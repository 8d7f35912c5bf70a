/-!
# The alphabet of page programs

A page program is a sequence of bytes, and every byte stands for the character of the same code:
`Byte.char` is the whole of the decoding. The classes below are therefore predicates on
characters, and those of the grammar meet only the first 256 of them.

* White space separates: space, tab, line feed, carriage return. A form feed or a NUL does *not*.
* Delimiters stand for themselves, and end whatever stands before them.
* Everything else is regular, bytes beyond ASCII included; runs of regular characters are names
  and numerals.
-/

namespace PageTokens

/-- One byte of a page program. -/
abbrev Byte := UInt8

/-- The character that a byte stands for: the one with the same code. -/
def Byte.char (b : Byte) : Char := Char.ofUInt8 b

/-- A piece of text. It is a list, since every piece is read or written front to back. -/
abbrev Text := List Char

/-- The text that bytes stand for. -/
def Byte.text (bytes : List Byte) : Text := bytes.map Byte.char

/-! ## Classes of characters -/

/-- White space ends a name or a numeral and is otherwise without meaning between tokens. -/
def isWhite (c : Char) : Bool :=
  c == ' ' || c == '\t' || c == '\n' || c == '\r'

/-- The characters that open, close or mark something. -/
def isDelimiter (c : Char) : Bool :=
  c == '(' || c == ')' || c == '<' || c == '>' || c == '[' || c == ']' || c == '{' || c == '}' ||
    c == '/' || c == '%'

/-- The characters of names and numerals: all that neither separate nor delimit. -/
def isRegular (c : Char) : Bool :=
  !isWhite c && !isDelimiter c

/-- The digits of an octal escape. -/
def isOctal (c : Char) : Bool :=
  '0' ≤ c && c ≤ '7'

/-- The characters that a numeral may begin with; a run that begins otherwise is a name at once. -/
def opensNumeral (c : Char) : Bool :=
  c == '-' || c == '.' || c.isDigit

/-- The characters that end a line, and with it a comment. -/
def isLineBreak (c : Char) : Bool :=
  c == '\n' || c == '\r'

theorem isRegular_iff {c : Char} :
    isRegular c = true ↔ isWhite c = false ∧ isDelimiter c = false := by
  simp [isRegular]

/-- The code of a byte's character is the byte. -/
theorem Byte.toNat_char (b : Byte) : b.char.toNat = b.toNat := rfl

/-- Distinct bytes stand for distinct characters, so decoding loses nothing. -/
theorem Byte.char_injective {a b : Byte} (h : a.char = b.char) : a = b := by
  have : a.toNat = b.toNat := congrArg Char.toNat h
  exact UInt8.toNat_inj.mp this

@[simp] theorem Byte.text_nil : Byte.text [] = [] := rfl

@[simp] theorem Byte.text_cons (b : Byte) (bytes : List Byte) :
    Byte.text (b :: bytes) = b.char :: Byte.text bytes := rfl

@[simp] theorem Byte.text_append (xs ys : List Byte) :
    Byte.text (xs ++ ys) = Byte.text xs ++ Byte.text ys :=
  List.map_append

end PageTokens
