import PageTokens.Machine

/-!
# What a machine does with a text

Statements about a machine are about texts: that it takes one and goes on (`Advance.feed`), that the
last character of one makes the result (`Advance.Completes`), that what stands behind one makes the
result (`Machine.Settles`). They are proved by going through the text, and only at the end is a text
laid before the machine as items, with anything behind it.

The three lemmas that do so (`trace_of_completes`, `trace_of_feed`, `trace_of_settles`) are where it
shows how far a machine looks: not beyond its result in the first case, and to the very next item in
the last.
-/

namespace PageTokens

namespace Advance

variable {σ τ : Type} {step : σ → Char → Advance σ τ}

/-- The state behind a text that is taken without a result, if it is. -/
def feed (step : σ → Char → Advance σ τ) : σ → Text → Option σ
  | s, [] => some s
  | s, c :: t =>
    match step s c with
    | .more next => feed step next t
    | .last _ | .before _ => none

/-- A text completes a result if all but its last character are taken without one, and the last one
makes it. -/
inductive Completes (step : σ → Char → Advance σ τ) : σ → Text → τ → Prop
  /-- the last character -/
  | last {s : σ} {c : Char} {r : τ} : step s c = .last r → Completes step s [c] r
  /-- a character before it -/
  | more {s next : σ} {c : Char} {t : Text} {r : τ} :
      step s c = .more next → Completes step next t r → Completes step s (c :: t) r

@[simp] theorem feed_nil (s : σ) : feed step s [] = some s := rfl

theorem feed_cons {s next : σ} {c : Char} (h : step s c = .more next) (t : Text) :
    feed step s (c :: t) = feed step next t := by
  rw [feed, h]

theorem feed_append (s : σ) (t u : Text) :
    feed step s (t ++ u) = (feed step s t).bind fun next => feed step next u := by
  induction t generalizing s with
  | nil => rfl
  | cons c t ih =>
    rw [List.cons_append, feed, feed]
    cases step s c with
    | more next => exact ih next
    | last r => rfl
    | before r => rfl

theorem not_completes_nil {s : σ} {r : τ} : ¬ Completes step s [] r := by
  rintro ⟨⟩

/-- A text completes no more than one result. -/
theorem Completes.unique {s : σ} {t : Text} {r r' : τ} (h : Completes step s t r)
    (h' : Completes step s t r') : r = r' := by
  induction h with
  | last hl =>
    rcases h' with hl' | ⟨-, hc'⟩
    · exact Advance.last.inj (hl.symm.trans hl')
    · exact absurd hc' not_completes_nil
  | more hm hc ih =>
    rcases h' with hl' | ⟨hm', hc'⟩
    · exact absurd hc not_completes_nil
    · obtain rfl := Advance.more.inj (hm.symm.trans hm')
      exact ih hc'

/-- What completes a result behind a character that is taken. -/
theorem completes_cons {s next : σ} {c : Char} (h : step s c = .more next) {t : Text} {r : τ} :
    Completes step s (c :: t) r ↔ Completes step next t r := by
  constructor
  · rintro (hl | ⟨hm, hc⟩)
    · rw [h] at hl
      cases hl
    · rw [h] at hm
      cases hm
      exact hc
  · exact .more h

/-- What completes a result behind a text that is taken. -/
theorem completes_append {s next : σ} {t : Text} (h : feed step s t = some next) {u : Text}
    {r : τ} : Completes step s (t ++ u) r ↔ Completes step next u r := by
  induction t generalizing s with
  | nil =>
    cases h
    rfl
  | cons c t ih =>
    rw [feed] at h
    cases hs : step s c with
    | more s' =>
      rw [hs] at h
      rw [List.cons_append, completes_cons hs, ih h]
    | last r => simp [hs] at h
    | before r => simp [hs] at h

/-- States that do the same with a character do the same with what begins with it. -/
theorem completes_congr {s s' : σ} {c : Char} (h : step s c = step s' c) {t : Text} {r : τ} :
    Completes step s (c :: t) r ↔ Completes step s' (c :: t) r := by
  constructor
  · rintro (hl | ⟨hm, hc⟩)
    · exact .last (h ▸ hl)
    · exact .more (h ▸ hm) hc
  · rintro (hl | ⟨hm, hc⟩)
    · exact .last (h.symm ▸ hl)
    · exact .more (h.symm ▸ hm) hc

/-- Where no result comes before a character, a text is taken as a whole or some of it completes a
result. -/
theorem feed_or_completes (hb : ∀ s c r, step s c ≠ .before r) (s : σ) (t : Text) :
    (∃ next, feed step s t = some next) ∨ ∃ l u r, t = l ++ u ∧ Completes step s l r := by
  induction t generalizing s with
  | nil => exact .inl ⟨s, rfl⟩
  | cons c t ih =>
    cases hs : step s c with
    | more next =>
      rcases ih next with ⟨n, hn⟩ | ⟨l, u, r, rfl, hr⟩
      · exact .inl ⟨n, (feed_cons hs t).trans hn⟩
      · exact .inr ⟨c :: l, u, r, rfl, .more hs hr⟩
    | last r => exact .inr ⟨[c], t, r, rfl, .last hs⟩
    | before r => exact absurd hs (hb s c r)

section Map

variable {σ' τ' : Type} {step' : σ' → Char → Advance σ' τ'} {f : σ → σ'} {g : τ → τ'}

/-- A machine within another takes there what it takes alone. -/
theorem feed_map (h : ∀ s c, step' (f s) c = (step s c).map f g) (s : σ) (t : Text) :
    feed step' (f s) t = (feed step s t).map f := by
  induction t generalizing s with
  | nil => rfl
  | cons c t ih =>
    rw [feed, feed, h]
    cases step s c with
    | more next => exact ih next
    | last r => rfl
    | before r => rfl

theorem Completes.map (h : ∀ s c, step' (f s) c = (step s c).map f g) {s : σ} {t : Text} {r : τ}
    (hc : Completes step s t r) : Completes step' (f s) t (g r) := by
  induction hc with
  | last hl => exact .last (by rw [h, hl]; rfl)
  | more hm _ ih => exact .more (by rw [h, hm]; rfl) ih

end Map

end Advance

namespace Machine

variable {σ τ ε : Type} {m : Machine σ τ ε} {s next : σ} {r : τ}

/-- Whether items begin with a character, or are none at all. -/
def Begins : List Item → Option Char → Prop
  | [], none => True
  | .byte b :: _, some c => b.char = c
  | _, _ => False

theorem begins_ofBytes (bytes : List Byte) :
    Begins (Item.ofBytes bytes) (Byte.text bytes).head? := by
  cases bytes <;> simp [Begins]

/-- How items begin shows at the first of them. -/
theorem Begins.congr {items items' : List Item} {c : Option Char} (h : Begins items c)
    (hi : items.head? = items'.head?) : Begins items' c := by
  rcases items with _ | ⟨b | f, items⟩ <;> rcases items' with _ | ⟨b' | f', items'⟩ <;>
    rcases c with _ | c <;> simp_all [Begins]

/-- What stands next makes the result, and is left: a character, or the end of the input. -/
def Settles (m : Machine σ τ ε) (s : σ) (r : τ) : Option Char → Prop
  | none => m.finish s = .ok r
  | some c => m.step s c = .before r

/-- A machine does not look beyond a text that completes its result. -/
theorem trace_of_completes {bytes : List Byte} (h : Advance.Completes m.step s (Byte.text bytes) r)
    (items : List Item) :
    m.trace s (Item.ofBytes bytes ++ items) = ⟨.done r, bytes, items⟩ := by
  induction bytes generalizing s with
  | nil => cases h
  | cons b bytes ih =>
    rw [Item.ofBytes_cons, List.cons_append, trace]
    cases bytes with
    | nil =>
      rcases h with hl | ⟨-, hc⟩
      · rw [hl]
        rfl
      · cases hc
    | cons b' bytes =>
      rcases h with ⟨⟩ | ⟨hm, hc⟩
      rw [hm]
      simp only [ih hc]
      rfl

theorem trace_of_feed {bytes : List Byte} (h : Advance.feed m.step s (Byte.text bytes) = some next)
    (items : List Item) :
    m.trace s (Item.ofBytes bytes ++ items) = (m.trace next items).behind bytes := by
  induction bytes generalizing s with
  | nil =>
    cases h
    rfl
  | cons b bytes ih =>
    rw [Byte.text_cons, Advance.feed] at h
    rw [Item.ofBytes_cons, List.cons_append, trace]
    cases hs : m.step s b.char with
    | more s' =>
      rw [hs] at h
      simp only [ih h]
      rfl
    | last r => simp [hs] at h
    | before r => simp [hs] at h

theorem trace_of_settles {c : Option Char} {items : List Item} (h : m.Settles s r c)
    (hi : Begins items c) : m.trace s items = ⟨.done r, [], items⟩ := by
  rcases items with _ | ⟨b | f, items⟩ <;> rcases c with _ | c
  · simp only [Settles] at h
    rw [trace, h]
    rfl
  · cases hi
  · cases hi
  · cases hi
    simp only [Settles] at h
    rw [trace, h]
  · cases hi
  · cases hi

/-- What a run comes to on a cursor whose items have a known trace. -/
theorem run_of_trace {c : Cursor} {e : Ending τ ε} {bytes : List Byte} {rest : List Item}
    (h : m.trace s c.items = ⟨e, bytes, rest⟩) :
    ∃ c', m.run s c = (e, c') ∧ c'.items = rest ∧ c'.location = c.location.advanceAll bytes := by
  obtain ⟨he, hr, hl⟩ := m.run_eq_trace s c
  rw [h] at he hr hl
  exact ⟨(m.run s c).2, Prod.ext he rfl, hr, hl⟩

end Machine

end PageTokens
