import PageTokens.Token

/-!
# Tokens in messages

A message shows a token as its kind and its value in quotation marks, `NAME("moveto")`. The quoted
text shows what a terminal would not: quotes, backslashes and the usual controls get a short
escape, and every other character without a shape of its own is shown by its code in braces.
-/

namespace PageTokens

/-- The characters below U+0200 that have no shape: controls, the no-break space, the soft hyphen.
-/
def isShapeless (c : Char) : Bool :=
  c.toNat < 0x20 || (0x7F ≤ c.toNat && c.toNat ≤ 0xA0) || c.toNat == 0xAD

namespace Token

/-- One character between quotation marks. -/
def quoteChar (c : Char) : Text :=
  if c = '\x00' then ['\\', '0']
  else if c = '\t' then ['\\', 't']
  else if c = '\n' then ['\\', 'n']
  else if c = '\r' then ['\\', 'r']
  else if c = '"' then ['\\', '"']
  else if c = '\\' then ['\\', '\\']
  else if isShapeless c then ['\\', 'u', '{'] ++ Nat.toDigits 16 c.toNat ++ ['}']
  else [c]

/-- A text between quotation marks. -/
def quote (t : Text) : Text :=
  '"' :: t.flatMap quoteChar ++ ['"']

/-- A token as messages show it. -/
def display (t : Token) : String :=
  s!"{t.kind.label}({String.ofList (quote t.value)})"

end Token

end PageTokens
