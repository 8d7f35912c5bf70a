import PageTokens.Machine

/-!
# The text of a parenthesized string

Between its parentheses a string may hold anything. Parentheses nest, and those inside belong to the
text; the one that brings the depth below zero ends the string. A backslash begins an escape:

* `\n \r \t \b \f` are the control characters of those names;
* three octal digits are the character of that code, at most 511. Fewer than three are not an escape
  at all: the backslash is dropped and the digits stand for themselves;
* a line break, of one or two characters, is dropped together with the backslash;
* any other character, parentheses and the backslash included, stands for itself and nests nothing.

Whether an octal escape has a third digit, or a carriage return its line feed, shows at the next
character; it is then read as if nothing had come before.
-/

namespace PageTokens.Literal

/-- What an unfinished escape has read so far. -/
inductive Escape where
  /-- no escape is under way -/
  | none
  /-- the backslash -/
  | backslash
  /-- a backslash and a carriage return; a line feed would belong to them -/
  | lineBreak
  /-- a backslash and an octal digit -/
  | octal (first : Char)
  /-- a backslash and two octal digits -/
  | octals (first second : Char)
  deriving DecidableEq, Repr

/-- Where reading stands in a string. The depth is counted without a limit. It is no more than the
number of characters (`depth_le_length`), so that 32 bits would do for fewer than `2 ^ 32` of them. -/
structure State where
  /-- how many parentheses within the string are open -/
  depth : Nat
  /-- the text so far, last character first -/
  text : Text
  /-- the escape under way -/
  escape : Escape
  deriving DecidableEq, Repr

/-- Behind the opening parenthesis. -/
def State.start : State := ⟨0, [], .none⟩

/-- The value of an octal digit. -/
def octalValue (c : Char) : Nat :=
  c.toNat - '0'.toNat

/-- The character that three octal digits stand for. -/
def octalChar (first second third : Char) : Char :=
  Char.ofNat (octalValue first * 64 + octalValue second * 8 + octalValue third)

/-- A character that no escape claims. -/
def plainStep (depth : Nat) (text : Text) (c : Char) : Advance State Text :=
  if c = '(' then .more ⟨depth + 1, c :: text, .none⟩
  else if c = ')' then
    match depth with
    | 0 => .last text.reverse
    | outer + 1 => .more ⟨outer, c :: text, .none⟩
  else if c = '\\' then .more ⟨depth, text, .backslash⟩
  else .more ⟨depth, c :: text, .none⟩

/-- The state behind a backslash and one more character. -/
def escapedState (depth : Nat) (text : Text) (c : Char) : State :=
  if c = 'n' then ⟨depth, '\n' :: text, .none⟩
  else if c = 'r' then ⟨depth, '\r' :: text, .none⟩
  else if c = 't' then ⟨depth, '\t' :: text, .none⟩
  else if c = 'b' then ⟨depth, '\x08' :: text, .none⟩
  else if c = 'f' then ⟨depth, '\x0c' :: text, .none⟩
  else if c = '\n' then ⟨depth, text, .none⟩
  else if c = '\r' then ⟨depth, text, .lineBreak⟩
  else if isOctal c then ⟨depth, text, .octal c⟩
  else ⟨depth, c :: text, .none⟩

/-- What comes of a character. -/
def step (s : State) (c : Char) : Advance State Text :=
  match s.escape with
  | .none => plainStep s.depth s.text c
  | .backslash => .more (escapedState s.depth s.text c)
  | .lineBreak =>
    if c = '\n' then .more ⟨s.depth, s.text, .none⟩ else plainStep s.depth s.text c
  | .octal d =>
    if isOctal c then .more ⟨s.depth, s.text, .octals d c⟩ else plainStep s.depth (d :: s.text) c
  | .octals d e =>
    if isOctal c then .more ⟨s.depth, octalChar d e c :: s.text, .none⟩
    else plainStep s.depth (e :: d :: s.text) c

end PageTokens.Literal
