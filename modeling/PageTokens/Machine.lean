import PageTokens.Cursor

/-!
# Machines that read

Everything that the scanner reads, a gap or a lexeme, is read by a machine: a state, and a rule
that says for each character what comes of it. A machine may go on, or be done *with* the character,
or be done *before* it; in the last case the character is left for whoever reads next. So a machine
never looks further than one character, and looks at that one only if its result hangs on it.

`Machine.run` sets a machine on a cursor. The rest of the library reads input in no other way.
-/

namespace PageTokens

/-- What comes of a character in a state. -/
inductive Advance (σ τ : Type) where
  /-- the character is taken and reading goes on -/
  | more (s : σ)
  /-- the character is taken and is the last one -/
  | last (result : τ)
  /-- the character is left, and reading ended before it -/
  | before (result : τ)

/-- Renames states and results. -/
def Advance.map {σ σ' τ τ' : Type} (state : σ → σ') (result : τ → τ') : Advance σ τ → Advance σ' τ'
  | .more s => .more (state s)
  | .last r => .last (result r)
  | .before r => .before (result r)

/-- A reader of characters with states `σ`, results `τ`, and reasons `ε` against the end of the
input. -/
structure Machine (σ τ ε : Type) where
  /-- what comes of a character -/
  step : σ → Char → Advance σ τ
  /-- what comes of the end of the input -/
  finish : σ → Except ε τ

/-- How a run ends. -/
inductive Ending (τ ε : Type) where
  /-- with a result -/
  | done (result : τ)
  /-- at the end of the input, which the state does not allow -/
  | rejected (reason : ε)
  /-- at a failed read -/
  | failed (f : Failure)
  deriving DecidableEq

/-- The end of the input, as a way for a run to end. -/
def Ending.ofFinish {τ ε : Type} : Except ε τ → Ending τ ε
  | .ok result => .done result
  | .error reason => .rejected reason

namespace Machine

variable {σ τ ε : Type}

/-- Runs a machine from a state: how it ends, and the cursor where reading ended. A byte is looked
at first, and passed only if it is taken. -/
def run (m : Machine σ τ ε) (s : σ) (c : Cursor) : Ending τ ε × Cursor :=
  match _h : c.peek with
  | (.error f, c') => (.failed f, c')
  | (.ok none, c') => (.ofFinish (m.finish s), c')
  | (.ok (some b), c') =>
    match m.step s b.char with
    | .more next => m.run next (c'.pass b)
    | .last result => (.done result, c'.pass b)
    | .before result => (.done result, c')
termination_by c.items.length
decreasing_by simp [Cursor.items_of_peek _h]

/-- A run shows no more of the input than a cursor does: it looks at the next byte, and passes it
unless it is done before it. -/
theorem run_eq_peek (m : Machine σ τ ε) (s : σ) (c : Cursor) :
    m.run s c =
      match c.peek with
      | (.error f, c') => (.failed f, c')
      | (.ok none, c') => (.ofFinish (m.finish s), c')
      | (.ok (some b), c') =>
        match m.step s b.char with
        | .more next => m.run next (c'.pass b)
        | .last result => (.done result, c'.pass b)
        | .before result => (.done result, c') := by
  rw [run]
  split <;> simp_all

/-! ## Runs on items

What a run comes to depends on the items that the cursor stands before, and on nothing else of it.
-/

/-- What a run comes to: how it ends, the bytes that it takes, and the items that it leaves. -/
structure Trace (τ ε : Type) where
  /-- how it ends -/
  ending : Ending τ ε
  /-- what it takes -/
  taken : List Byte
  /-- what it leaves -/
  rest : List Item

/-- A trace behind some more bytes. -/
def Trace.behind {τ ε : Type} (bytes : List Byte) (t : Trace τ ε) : Trace τ ε :=
  { t with taken := bytes ++ t.taken }

/-- Runs a machine on items. -/
def trace (m : Machine σ τ ε) (s : σ) : List Item → Trace τ ε
  | [] => ⟨.ofFinish (m.finish s), [], []⟩
  | .failure f :: items => ⟨.failed f, [], items⟩
  | .byte b :: items =>
    match m.step s b.char with
    | .more next => (m.trace next items).behind [b]
    | .last result => ⟨.done result, [b], items⟩
    | .before result => ⟨.done result, [], .byte b :: items⟩

/-- A run on a cursor is the run on its items: it ends the same way, leaves the same items, and
moves the cursor over the bytes that it takes. -/
theorem run_eq_trace (m : Machine σ τ ε) (s : σ) (c : Cursor) :
    (m.run s c).1 = (m.trace s c.items).ending ∧
      (m.run s c).2.items = (m.trace s c.items).rest ∧
      (m.run s c).2.location = c.location.advanceAll (m.trace s c.items).taken := by
  induction e : c.items generalizing s c with
  | nil =>
    obtain ⟨c', hc, hi, hl⟩ := Cursor.peek_of_nil e
    rw [run_eq_peek, hc]
    exact ⟨rfl, hi, hl⟩
  | cons item items ih =>
    rcases item with b | f
    · obtain ⟨c', hc, hi, hp, hl⟩ := Cursor.peek_of_byte e
      rw [run_eq_peek, hc]
      simp only [trace]
      cases m.step s b.char with
      | more next =>
        obtain ⟨h₁, h₂, h₃⟩ := ih next (c'.pass b) hp
        refine ⟨h₁, h₂, ?_⟩
        rw [h₃, Cursor.location_pass, hl]
        rfl
      | last result => exact ⟨rfl, hp, by rw [Cursor.location_pass, hl]; rfl⟩
      | before result => exact ⟨rfl, hi, hl⟩
    · obtain ⟨c', hc, hi, hl⟩ := Cursor.peek_of_failure e
      rw [run_eq_peek, hc]
      exact ⟨rfl, hi, hl⟩

/-- A run never adds to the input. -/
theorem length_trace_le (m : Machine σ τ ε) (s : σ) (items : List Item) :
    (m.trace s items).rest.length ≤ items.length := by
  induction items generalizing s with
  | nil => simp [trace]
  | cons item items ih =>
    rcases item with b | f
    · simp only [trace]
      split
      · exact Nat.le_succ_of_le (ih _)
      · simp
      · simp
    · simp [trace]

theorem length_run_le (m : Machine σ τ ε) (s : σ) (c : Cursor) :
    (m.run s c).2.items.length ≤ c.items.length := by
  rw [(m.run_eq_trace s c).2.1]
  exact m.length_trace_le s c.items

end Machine

end PageTokens
