import PageTokens.Proofs.Layout
import PageTokens.Proofs.Rendering

/-!
# The tokens that there are

Whatever source a token is read from, it is read from the bytes before the next failure alone, and
so it is the token of a piece (`Scanner.exists_piece_of_token`). What the grammar says of the tokens
of pieces therefore holds of every token that is ever read.
-/

namespace PageTokens

/-! ## Up to the next failure -/

/-- The bytes before the first failure. -/
def Item.front : List Item → List Byte
  | .byte b :: items => b :: front items
  | .failure _ :: _ | [] => []

/-- Behind the bytes before the first failure, nothing stands or the failure does. -/
theorem Item.exists_beyond (items : List Item) :
    ∃ beyond, items = ofBytes (front items) ++ beyond ∧
      (beyond = [] ∨ ∃ f others, beyond = .failure f :: others) := by
  induction items with
  | nil => exact ⟨[], rfl, .inl rfl⟩
  | cons item items ih =>
    cases item with
    | byte b =>
      obtain ⟨beyond, hi, hbeyond⟩ := ih
      exact ⟨beyond, congrArg (Item.byte b :: ·) hi, hbeyond⟩
    | failure f => exact ⟨_, rfl, .inr ⟨f, items, rfl⟩⟩

/-- What is done before the next failure is done with the bytes up to there. -/
theorem Machine.trace_front {σ τ ε : Type} {m : Machine σ τ ε} {s : σ} {items : List Item} {r : τ}
    (h : (m.trace s items).ending = .done r) :
    m.trace s (Item.ofBytes (Item.front items)) =
      ⟨.done r, (m.trace s items).taken, Item.ofBytes (Item.front (m.trace s items).rest)⟩ := by
  induction items generalizing s with
  | nil =>
    simp only [trace] at h
    rw [Item.front, Item.ofBytes_nil, trace, h]
    rfl
  | cons item items ih =>
    rcases item with b | f
    · rw [Item.front, Item.ofBytes_cons]
      rw [trace] at h ⊢
      rw [trace]
      cases hs : m.step s b.char with
      | more next =>
        rw [hs] at h
        simp only [ih h]
        rfl
      | last result =>
        rw [hs] at h
        obtain rfl := Ending.done.inj h
        rfl
      | before result =>
        rw [hs] at h
        obtain rfl := Ending.done.inj h
        rfl
    · cases h

namespace Scanner

/-- A token is read from the bytes before the next failure. -/
theorem read_front {s s' : Scanner} {t : Token} (h : s.read.answer = .token t)
    (hi : s'.cursor.items = Item.ofBytes (Item.front s.cursor.items)) :
    s'.read.answer = .token t := by
  rcases gap_trace_cases s.cursor.items with ⟨gap, mid, hg⟩ | ⟨f, gap, rest, hg⟩
  · have hg' := Machine.trace_front (congrArg Machine.Trace.ending hg)
    rw [hg] at hg'
    rcases hl : Lexeme.machine.trace .fresh mid with ⟨e, lexeme, rest⟩
    obtain ⟨c, hr, -⟩ := read_of_traces hg hl
    rw [hr] at h
    rcases e with l | ⟨_ | _⟩ | f
    · have hl' := Machine.trace_front (congrArg Machine.Trace.ending hl)
      rw [← hi] at hg'
      obtain ⟨c', hr', -⟩ := read_of_traces hg' hl'
      rw [hr']
      exact h
    · cases h
    · cases h
    · cases h
  · obtain ⟨c, hr, -⟩ := read_of_gap_failure hg
    rw [hr] at h
    cases h

/-- A scanner stands before a piece and reads it: it answers with its token, and leaves what stands
behind it. -/
structure ReadsPiece (s : Scanner) (p : Piece) (left : List Item) : Prop where
  /-- what stands before the scanner -/
  items : s.cursor.items = Item.ofBytes p.bytes ++ left
  /-- the token -/
  answer : s.read.answer = .token p.token
  /-- what is left -/
  after : s.read.after.cursor.items = left
  /-- the place behind the gap -/
  tokenStart : s.read.after.tokenStart = s.location.advanceAll p.gap
  /-- the place behind the lexeme -/
  location : s.read.after.location = s.location.advanceAll p.bytes

theorem readsPiece_of_finding {s : Scanner} {p : Piece} {left : List Item} {c : Cursor}
    {remark : Option Remark} (hi : s.cursor.items = Item.ofBytes p.bytes ++ left)
    (hr : s.read = finding ⟨p.token, remark⟩ c (s.location.advanceAll p.gap) s.failed)
    (hc : c.items = left) (hl : c.location = s.location.advanceAll p.bytes) :
    s.ReadsPiece p left := by
  refine ⟨hi, ?_, ?_, ?_, ?_⟩
  · rw [hr]
    rfl
  · rw [hr]
    exact hc
  · rw [hr]
    rfl
  · rw [hr]
    exact hl

/-- A scanner reads the piece that stands before it. -/
theorem readsPiece_of_fits {s : Scanner} {p : Piece} {rest : List Byte} (hp : p.Fits rest)
    (hi : s.cursor.items = Item.ofBytes (p.bytes ++ rest)) : s.ReadsPiece p (Item.ofBytes rest) := by
  obtain ⟨ha, hafter, hl⟩ := after_piece hp hi
  obtain ⟨-, hstart, -⟩ := stepOfReading_of_piece hp hi
  exact ⟨hi.trans (Item.ofBytes_append ..), ha, hafter, hstart, hl⟩

/-- A token is read from a piece that stands before the scanner, and remarked on as its lexeme says.
Unless that shows its own end, what is left begins as the piece has it, so no failure stands right
behind it. -/
theorem exists_finding_of_read {s : Scanner} {t : Token} (h : s.read.answer = .token t) :
    ∃ (p : Piece) (rest : List Byte) (left : List Item) (c : Cursor) (closed : Bool),
      p.Fits rest ∧ s.cursor.items = Item.ofBytes p.bytes ++ left ∧
      s.read = finding ⟨p.token, Lexeme.remarkOf closed p.token⟩ c (s.location.advanceAll p.gap)
        s.failed ∧
      c.items = left ∧ c.location = s.location.advanceAll p.bytes ∧
      (closed = true ∧ Lexeme.Closed (Byte.text p.lexeme) p.token ∨
        closed = false ∧ Lexeme.Open (Byte.text p.lexeme) (Byte.text rest).head? p.token ∧
          Machine.Begins left (Byte.text rest).head?) := by
  obtain ⟨beyond, hi, hbeyond⟩ := Item.exists_beyond s.cursor.items
  have hfront : (start (.ofBytes (Item.front s.cursor.items))).cursor.items =
    Item.ofBytes (Item.front s.cursor.items) := Input.delivers_ofBytes _
  have ha := read_front h hfront
  obtain ⟨p, rest, hbytes, hp, -⟩ := exists_piece hfront ha
  rw [hbytes, Item.ofBytes_append, List.append_assoc] at hi
  rcases hp.spells with hclosed | hopen
  · obtain ⟨c, hr, hc, hl⟩ := read_of_lexeme_trace hp (hclosed.trace _) hi
    exact ⟨p, rest, _, c, true, hp, hi, hr, hc, hl, .inl ⟨rfl, hclosed⟩⟩
  · have hbegins : Machine.Begins (Item.ofBytes rest ++ beyond) (Byte.text rest).head? := by
      cases rest with
      | cons b rest => rfl
      | nil =>
        rcases hbeyond with rfl | ⟨f, items, rfl⟩
        · trivial
        · -- a failure right behind the piece would have been the answer
          obtain ⟨c, hr, -⟩ := read_of_lexeme_trace hp (hopen.trace_failure f items) hi
          rw [hr] at h
          cases h
    obtain ⟨c, hr, hc, hl⟩ := read_of_lexeme_trace hp (hopen.trace hbegins) hi
    exact ⟨p, rest, _, c, false, hp, hi, hr, hc, hl, .inr ⟨rfl, hopen, hbegins⟩⟩

/-- The piece of a token, whatever is remarked about it. -/
theorem exists_piece_of_read {s : Scanner} {t : Token} (h : s.read.answer = .token t) :
    ∃ (p : Piece) (rest : List Byte) (left : List Item), p.Fits rest ∧ s.ReadsPiece p left ∧
      (Lexeme.Closed (Byte.text p.lexeme) p.token ∨
        Machine.Begins left (Byte.text rest).head?) := by
  obtain ⟨p, rest, left, c, closed, hp, hi, hr, hc, hl, hside⟩ := exists_finding_of_read h
  exact ⟨p, rest, left, hp, readsPiece_of_finding hi hr hc hl,
    hside.imp (fun h => h.2) (fun h => h.2.2)⟩

/-- **Every token that is read is the token of a piece**, whatever source it is read from. -/
theorem exists_piece_of_token {s : Scanner} {t : Token} (h : s.read.answer = .token t) :
    ∃ (p : Piece) (rest : List Byte), p.Fits rest ∧ p.token = t := by
  obtain ⟨p, rest, left, hp, hreads, -⟩ := exists_piece_of_read h
  exact ⟨p, rest, hp, Answer.token.inj (hreads.answer.symm.trans h)⟩

end Scanner

end PageTokens
