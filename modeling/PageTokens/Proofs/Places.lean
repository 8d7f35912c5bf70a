import Mathlib.Data.List.DropRight
import PageTokens.Location

/-!
# Places told by bytes

A location is counted forward, byte by byte, and its line and column stop at a limit. It can as well
be told from all the bytes before it at once: how many they are, how many of them are line feeds, and
how many stand behind the last of these (`Location.after`). A counter that stops on the way stops
where the whole count does, so the limit need only be looked at in the end (`Location.counted`,
`Location.start_advanceAll`); where fewer bytes than the limit stand before a place, it does not show
(`Location.start_advanceAll_of_lt`).
-/

namespace PageTokens.Location

/-- A place as it is counted: no line and no column is beyond the limit. -/
def counted (l : Location) : Location := ⟨l.offset, min l.line limit, min l.column limit⟩

/-- The place behind the first bytes of an input, if lines and columns had no limit. -/
def after (bytes : List Byte) : Location :=
  ⟨bytes.length, 1 + bytes.count 0x0a, 1 + (bytes.rtakeWhile (· ≠ 0x0a)).length⟩

theorem counted_of_le {l : Location} (hline : l.line ≤ limit) (hcolumn : l.column ≤ limit) :
    l.counted = l := by
  rw [counted, Nat.min_eq_left hline, Nat.min_eq_left hcolumn]

theorem advance_lineFeed (l : Location) :
    l.advance 0x0a = ⟨l.offset + 1, min (l.line + 1) limit, 1⟩ := rfl

theorem advance_of_ne {b : Byte} (h : b ≠ 0x0a) (l : Location) :
    l.advance b = ⟨l.offset + 1, l.line, min (l.column + 1) limit⟩ := by
  have hchar : b.char ≠ '\n' := by
    intro hc
    exact h (Byte.char_injective hc)
  rw [advance, if_neg hchar]

/-- The place behind one more byte than some. -/
theorem after_concat (bytes : List Byte) (b : Byte) :
    (after (bytes ++ [b])).counted = (after bytes).counted.advance b := by
  by_cases hb : b = 0x0a
  · subst hb
    have hline : (bytes ++ [0x0a]).count 0x0a = bytes.count 0x0a + 1 := List.count_append
    rw [advance_lineFeed, after, List.rtakeWhile_concat_neg _ _ _ (by simp), hline]
    simp only [counted, after, List.length_append, List.length_singleton, List.length_nil, mk.injEq]
    exact ⟨trivial, by omega, rfl⟩
  · have hnone : [b].count 0x0a = 0 := List.count_eq_zero.mpr (by simpa using Ne.symm hb)
    rw [advance_of_ne hb, after, List.rtakeWhile_concat_pos _ _ _ (by simpa using hb),
      List.count_append, hnone]
    simp only [counted, after, List.length_append, List.length_singleton, mk.injEq]
    exact ⟨trivial, rfl, by omega⟩

/-- **The place behind the first bytes of an input.** -/
theorem start_advanceAll (bytes : List Byte) : start.advanceAll bytes = (after bytes).counted := by
  -- the last byte decides whether the last line goes on or is a new one
  induction bytes using List.reverseRecOn with
  | nil => rfl
  | append_singleton bytes b ih => rw [advanceAll_append, ih, after_concat]; rfl

/-- Without a line feed, all bytes stand on the first line. -/
theorem after_of_notMem {bytes : List Byte} (h : 0x0a ∉ bytes) :
    after bytes = ⟨bytes.length, 1, 1 + bytes.length⟩ := by
  have hall : bytes.rtakeWhile (· ≠ 0x0a) = bytes := by
    rw [List.rtakeWhile_eq_self_iff]
    intro b hb
    simpa using fun he : b = 0x0a => h (he ▸ hb)
  rw [after, List.count_eq_zero.mpr h, hall]

/-- Neither the line nor the column of a place is further on than its bytes allow. -/
theorem line_after_le (bytes : List Byte) : (after bytes).line ≤ bytes.length + 1 := by
  have h : bytes.count 0x0a ≤ bytes.length := List.count_le_length
  simp only [after]
  omega

theorem column_after_le (bytes : List Byte) : (after bytes).column ≤ bytes.length + 1 := by
  have h := (List.rtakeWhile_suffix (· ≠ 0x0a) bytes).length_le
  simp only [after]
  omega

/-- Behind fewer bytes than the limit, it does not show. -/
theorem counted_after {bytes : List Byte} (h : bytes.length < limit) :
    (after bytes).counted = after bytes :=
  counted_of_le (Nat.le_trans (line_after_le bytes) h) (Nat.le_trans (column_after_le bytes) h)

theorem start_advanceAll_of_lt {bytes : List Byte} (h : bytes.length < limit) :
    start.advanceAll bytes = after bytes := by
  rw [start_advanceAll, counted_after h]

end PageTokens.Location
