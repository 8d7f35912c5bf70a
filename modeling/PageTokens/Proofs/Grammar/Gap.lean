import PageTokens.Gap
import PageTokens.Proofs.Trace

/-!
# The grammar of gaps

`Gap.Fills gap rest` says what a gap is without a machine: white space and comments in any order, of
which every comment goes on to a line break or to the end of the input. The line break may be the
first character behind the gap, so what stands there has a part in it.

A text that begins with neither white space nor a comment begins something (`Begun`). Before such a
text, or before the end, the machine takes a gap as a whole and nothing else (`trace_of_fills`), and
every text is a gap and then such a text (`exists_fills`).
-/

namespace PageTokens.Gap

/-- A text begins with a line break if it begins at all. -/
def BreaksLine (t : Text) : Prop :=
  ∀ c ∈ t.head?, isLineBreak c = true

/-- A gap before the rest of an input. -/
inductive Fills : Text → Text → Prop
  /-- the empty gap -/
  | nil {rest : Text} : Fills [] rest
  /-- white space -/
  | white {c : Char} {gap rest : Text} : isWhite c = true → Fills gap rest → Fills (c :: gap) rest
  /-- a comment, up to a line break or the end of the input -/
  | comment {t gap rest : Text} : (∀ c ∈ t, isLineBreak c = false) → BreaksLine (gap ++ rest) →
      Fills gap rest → Fills ('%' :: t ++ gap) rest

/-- A text that begins something: it is not empty, and no gap begins it. -/
def Begun (t : Text) : Prop :=
  ∃ c u, t = c :: u ∧ isWhite c = false ∧ c ≠ '%'

open Advance

theorem spaceStep_white {c : Char} (h : isWhite c = true) : step .space c = .more .space := by
  simp [step, spaceStep, h]

theorem spaceStep_percent : step .space '%' = .more .comment :=
  rfl

theorem commentStep_other {c : Char} (h : isLineBreak c = false) :
    step .comment c = .more .comment := by
  simp [step, h]

/-- A line break is to a comment what it is to white space. -/
theorem commentStep_break {c : Char} (h : isLineBreak c = true) :
    step .comment c = step .space c := by
  simp [step, h]

theorem isWhite_of_isLineBreak {c : Char} (h : isLineBreak c = true) : isWhite c = true := by
  rcases Bool.or_eq_true .. ▸ h with h | h <;> simp [isWhite, h]

theorem feed_comment {t : Text} (h : ∀ c ∈ t, isLineBreak c = false) :
    feed step .comment t = some .comment := by
  induction t with
  | nil => rfl
  | cons c t ih =>
    obtain ⟨hc, ht⟩ := List.forall_mem_cons.mp h
    rw [feed_cons (commentStep_other hc), ih ht]

/-- Before a line break a comment is white space. -/
theorem feed_comment_eq {t : Text} (h : BreaksLine t) (ht : t ≠ []) :
    feed step .comment t = feed step .space t := by
  cases t with
  | nil => exact absurd rfl ht
  | cons c t =>
    rw [feed, feed, commentStep_break (h c rfl)]

/-- Behind a gap the machine is between comments, or in one that the gap ends with. -/
theorem feed_of_fills {gap rest : Text} (h : Fills gap rest) :
    feed step .space gap = some .space ∨
      feed step .space gap = some .comment ∧ BreaksLine rest := by
  induction h with
  | nil => exact .inl rfl
  | white hc _ ih =>
    rw [feed_cons (spaceStep_white hc)]
    exact ih
  | @comment t gap rest ht hb _ ih =>
    rw [List.cons_append, feed_cons spaceStep_percent, feed_append, feed_comment ht,
      Option.bind_some]
    cases gap with
    | nil => exact .inr ⟨rfl, hb⟩
    | cons c gap =>
      -- the line break behind the comment is read as if there had been none
      have hc : BreaksLine (c :: gap) := hb
      rw [feed_comment_eq hc (by simp)]
      exact ih

/-- What begins something is no line break. -/
theorem Begun.not_breaksLine {t : Text} (h : Begun t) : ¬ BreaksLine t := by
  obtain ⟨c, u, rfl, hw, -⟩ := h
  intro hb
  have := isWhite_of_isLineBreak (hb c rfl)
  simp [hw] at this

/-- Between comments the machine ends before what begins something, and at the end. -/
theorem settles_space {t : Text} (h : t = [] ∨ Begun t) : machine.Settles .space () t.head? := by
  rcases h with rfl | ⟨c, u, rfl, hw, hp⟩
  · rfl
  · simp [Machine.Settles, machine, step, spaceStep, hw, hp]

/-- A gap is read as a whole, and nothing behind it, whatever may come behind the first character
there. -/
theorem trace_of_fills {gap : List Byte} {rest : Text} {items : List Item}
    (h : Fills (Byte.text gap) rest) (hr : rest = [] ∨ Begun rest)
    (hi : Machine.Begins items rest.head?) :
    machine.trace .space (Item.ofBytes gap ++ items) = ⟨.done (), gap, items⟩ := by
  rcases feed_of_fills h with hf | ⟨hf, hb⟩
  · rw [Machine.trace_of_feed hf, Machine.trace_of_settles (settles_space hr) hi]
    simp [Machine.Trace.behind]
  · -- a gap ends with a comment only where the input ends too
    have he : rest = [] := hr.resolve_right fun hbegun => hbegun.not_breaksLine hb
    subst he
    have hs : machine.Settles .comment () none := rfl
    rw [Machine.trace_of_feed hf, Machine.trace_of_settles hs hi]
    simp [Machine.Trace.behind]

/-- A comment and what goes on behind it. -/
theorem exists_comment (t : Text) :
    ∃ u rest, t = u ++ rest ∧ (∀ c ∈ u, isLineBreak c = false) ∧ BreaksLine rest := by
  induction t with
  | nil => exact ⟨[], [], rfl, by simp, by simp [BreaksLine]⟩
  | cons c t ih =>
    by_cases hc : isLineBreak c = true
    · exact ⟨[], c :: t, rfl, by simp, by simpa [BreaksLine] using hc⟩
    · obtain ⟨u, rest, rfl, hu, hrest⟩ := ih
      exact ⟨c :: u, rest, rfl, List.forall_mem_cons.mpr ⟨by simpa using hc, hu⟩, hrest⟩

/-- Every text is a gap, and then nothing or something that is begun. -/
theorem exists_fills (t : Text) :
    ∃ gap rest, t = gap ++ rest ∧ Fills gap rest ∧ (rest = [] ∨ Begun rest) := by
  induction hn : t.length using Nat.strongRecOn generalizing t with
  | ind n ih =>
    cases t with
    | nil => exact ⟨[], [], rfl, .nil, .inl rfl⟩
    | cons c t =>
      by_cases hw : isWhite c = true
      · obtain ⟨gap, rest, rfl, hf, hr⟩ := ih t.length (by simp [← hn]) t rfl
        exact ⟨c :: gap, rest, rfl, .white hw hf, hr⟩
      · by_cases hp : c = '%'
        · subst hp
          obtain ⟨u, t', rfl, hu, hb⟩ := exists_comment t
          obtain ⟨gap, rest, rfl, hf, hr⟩ := ih t'.length
            (by simp only [← hn, List.length_cons, List.length_append]; omega) t' rfl
          exact ⟨'%' :: u ++ gap, rest, by simp, .comment hu hb hf, hr⟩
        · exact ⟨[], c :: t, rfl, .nil, .inr ⟨c, t, rfl, by simpa using hw, hp⟩⟩

end PageTokens.Gap
