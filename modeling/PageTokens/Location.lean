import PageTokens.Alphabet

/-!
# Places in a page program

A location counts the bytes before it and names its line and column. Lines end with a line feed and
with nothing else, so a carriage return counts as one more column of its line.

Lines and columns are counted in 32 bits, and a counter that has come to its end stays there. Bytes
are counted in 64 bits; that counter comes to its end behind 16 exbibytes, so it is a plain number
here.
-/

namespace PageTokens

/-- A place between two bytes of the input. -/
structure Location where
  /-- how many bytes stand before it -/
  offset : Nat
  /-- its line; the first is 1 -/
  line : Nat
  /-- its column; the first is 1 -/
  column : Nat
  deriving DecidableEq, Repr

namespace Location

/-- The highest line and the highest column that are counted. -/
def limit : Nat := 4294967295

/-- The place before the first byte. -/
def start : Location := ⟨0, 1, 1⟩

/-- No place at all: what a scanner names as the start of its token before it has begun one. -/
def unset : Location := ⟨0, 0, 0⟩

/-- The place after one more byte. -/
def advance (l : Location) (b : Byte) : Location :=
  if b.char = '\n' then ⟨l.offset + 1, min (l.line + 1) limit, 1⟩
  else ⟨l.offset + 1, l.line, min (l.column + 1) limit⟩

/-- The place after the given bytes. -/
def advanceAll (l : Location) (bytes : List Byte) : Location :=
  bytes.foldl advance l

/-- A location as messages show it: line and column, without the offset. -/
def display (l : Location) : String :=
  s!"{l.line}:{l.column}"

@[simp] theorem offset_advance (l : Location) (b : Byte) : (l.advance b).offset = l.offset + 1 := by
  unfold advance
  split <;> rfl

@[simp] theorem offset_advanceAll (l : Location) (bytes : List Byte) :
    (l.advanceAll bytes).offset = l.offset + bytes.length := by
  induction bytes generalizing l with
  | nil => rfl
  | cons b bytes ih =>
    have h : l.advanceAll (b :: bytes) = (l.advance b).advanceAll bytes := rfl
    rw [h, ih, offset_advance, List.length_cons]
    omega

theorem advanceAll_append (l : Location) (xs ys : List Byte) :
    l.advanceAll (xs ++ ys) = (l.advanceAll xs).advanceAll ys :=
  List.foldl_append

end Location

end PageTokens
