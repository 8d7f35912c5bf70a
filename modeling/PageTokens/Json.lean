import PageTokens.Alphabet

/-!
# Objects in JSON

The part of JSON that records need: an object is a list of fields, each with a text or a number.
An object may be written compactly, on one line without spaces, and a list of objects may be
written with one field a line.

In a string, quotes and backslashes are escaped and so are the controls of ASCII, by a letter
where JSON has one; everything else stands for itself.
-/

namespace PageTokens.Json

/-- The value of a field. -/
inductive Value where
  /-- a string -/
  | text (t : Text)
  /-- a number -/
  | number (n : Nat)
  deriving DecidableEq, Repr

/-- A field of an object: its key and its value. -/
structure Field where
  /-- the key -/
  key : Text
  /-- the value -/
  value : Value
  deriving DecidableEq, Repr

/-- One character of a string. -/
def escapeChar (c : Char) : Text :=
  if c = '"' then ['\\', '"']
  else if c = '\\' then ['\\', '\\']
  else if c = '\x08' then ['\\', 'b']
  else if c = '\t' then ['\\', 't']
  else if c = '\n' then ['\\', 'n']
  else if c = '\x0c' then ['\\', 'f']
  else if c = '\r' then ['\\', 'r']
  else if c.toNat < 0x20 then ['\\', 'u'] ++ List.leftpad 4 '0' (Nat.toDigits 16 c.toNat)
  else [c]

/-- A string. -/
def quote (t : Text) : Text :=
  '"' :: t.flatMap escapeChar ++ ['"']

/-- A value. -/
def Value.write : Value → Text
  | .text t => quote t
  | .number n => Nat.toDigits 10 n

/-- Pieces of text, with a separator between any two. -/
def separated (separator : Text) : List Text → Text
  | [] => []
  | [piece] => piece
  | piece :: pieces => piece ++ separator ++ separated separator pieces

/-! ## On one line -/

/-- A field without spaces. -/
def Field.compact (f : Field) : Text :=
  quote f.key ++ ':' :: f.value.write

/-- An object without spaces. -/
def compact (fields : List Field) : Text :=
  '{' :: separated [','] (fields.map Field.compact) ++ ['}']

/-! ## With one field a line -/

/-- The indentation of a depth: two spaces for each level. -/
def indent (depth : Nat) : Text :=
  List.replicate (2 * depth) ' '

/-- A field on its own line. -/
def Field.pretty (f : Field) : Text :=
  indent 2 ++ quote f.key ++ ':' :: ' ' :: f.value.write

/-- The lines of an object within a list. -/
def prettyObject (fields : List Field) : Text :=
  indent 1 ++ '{' :: '\n' :: separated [',', '\n'] (fields.map Field.pretty) ++
    '\n' :: indent 1 ++ ['}']

/-- A list of objects. The empty list is written without a line break. -/
def pretty : List (List Field) → Text
  | [] => ['[', ']']
  | objects => '[' :: '\n' :: separated [',', '\n'] (objects.map prettyObject) ++ ['\n', ']']

end PageTokens.Json
