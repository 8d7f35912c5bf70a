import PageTokens.Token

/-!
# Tokens as source text

Rendering writes a token the way it could stand in a program: the value between the delimiters of
its kind. Two passes go over a value. The first, `escape`, is for the eye: a backslash, a control
character or a character beyond Latin-1 becomes an escape, so that a value never leaves its line.
The second is for parenthesized strings alone, and puts a backslash before every parenthesis.

The escapes are those that a parenthesized string understands. Elsewhere a backslash is an
ordinary character, so a name or a hex string with one is shown, but not read back.
-/

namespace PageTokens

/-- The control characters, of ASCII and of Latin-1. -/
def isControl (c : Char) : Bool :=
  c.toNat < 0x20 || (0x7F ≤ c.toNat && c.toNat ≤ 0x9F)

/-- Whether a character is shown by its code: it is a control, or not of Latin-1. -/
def needsCode (c : Char) : Bool :=
  isControl c || 0xFF < c.toNat

/-- A code in octal, with three digits or more. -/
def octalCode (n : Nat) : Text :=
  List.leftpad 3 '0' (Nat.toDigits 8 n)

/-- One character of a shown value. -/
def escapeChar (c : Char) : Text :=
  if c = '\n' then ['\\', 'n']
  else if c = '\r' then ['\\', 'r']
  else if c = '\t' then ['\\', 't']
  else if c = '\x08' then ['\\', 'b']
  else if c = '\x0c' then ['\\', 'f']
  else if c = '\\' then ['\\', '\\']
  else if needsCode c then '\\' :: octalCode c.toNat
  else [c]

/-- A value as it is shown: on one line, in Latin-1. -/
def escape (t : Text) : Text :=
  t.flatMap escapeChar

/-- One character within parentheses; a parenthesis there must not nest. -/
def guardChar (c : Char) : Text :=
  if c = '(' || c = ')' then ['\\', c] else [c]

/-- A text as it stands within parentheses. -/
def guardParens (t : Text) : Text :=
  t.flatMap guardChar

/-- A token as it could stand in a program. -/
def Token.render (t : Token) : Text :=
  match t.kind with
  | .string .literal => '(' :: guardParens (escape t.value) ++ [')']
  | .string .hex => '<' :: escape t.value ++ ['>']
  | .string .base85 => '<' :: '~' :: escape t.value ++ ['~', '>']
  | .literalName => '/' :: escape t.value
  | .immediateName => '/' :: '/' :: escape t.value
  | .name | .numeral _ | .mark _ => escape t.value

theorem escape_cons (c : Char) (t : Text) : escape (c :: t) = escapeChar c ++ escape t :=
  List.flatMap_cons

theorem escape_append (s t : Text) : escape (s ++ t) = escape s ++ escape t :=
  List.flatMap_append

theorem guardParens_append (s t : Text) : guardParens (s ++ t) = guardParens s ++ guardParens t :=
  List.flatMap_append

end PageTokens
