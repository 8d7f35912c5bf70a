import PageTokens.Lexeme.Literal
import PageTokens.Token

/-!
# Lexemes

A lexeme is a piece of input that makes one token. Its first character decides what it is; from
there on each kind of lexeme has its own end.

* A run of regular characters is a numeral if it has the form of one, else a name. It ends before
  the first character that is not regular.
* `/` and `//` begin literal and immediate names, which may be empty.
* `<<`, `>>`, brackets and braces are markers.
* `(` begins a string that ends at its own closing parenthesis, `<` one that ends at the first
  `>`, `<~` one that ends at the first `~>`. The last two may also end with the input.
* A `)` or `>` that closes nothing is a name.

Where the scanner had to make the best of it, the lexeme carries a remark that says so.
-/

namespace PageTokens

/-- Something worth noting about how a token came about. -/
inductive Remark where
  /-- a run that begins like a numeral but is none, taken as a name -/
  | notNumeral (text : Text)
  /-- a closing delimiter without its opener, taken as a name -/
  | stray (c : Char)
  /-- a string whose end is the end of the input -/
  | unclosed (form : StringForm)
  deriving DecidableEq, Repr

/-- A token as it was read, with a remark if there is one to make. -/
structure Lexeme where
  /-- the token -/
  token : Token
  /-- what is to be noted about it -/
  remark : Option Remark
  deriving DecidableEq, Repr

namespace Lexeme

/-- A lexeme about which there is nothing to note. -/
def plain (t : Token) : Lexeme := ⟨t, none⟩

/-! ## The lexemes that end where their characters end -/

/-- The lexeme of a run of regular characters. Only a run that could begin a numeral is looked at
for being one. -/
def ofRun (run : Text) : Lexeme :=
  if run.head?.any opensNumeral then
    match Numeral.classify? run with
    | some form => plain ⟨.numeral form, run⟩
    | none => ⟨⟨.name, run⟩, some (.notNumeral run)⟩
  else plain ⟨.name, run⟩

/-- The lexeme of a closing delimiter without its opener. -/
def stray (c : Char) : Lexeme := ⟨⟨.name, [c]⟩, some (.stray c)⟩

/-- The token of a hex string with these digits. An odd one out is followed by a zero. -/
def hexToken (digits : Text) : Token :=
  ⟨.string .hex, if digits.length % 2 = 1 then digits ++ ['0'] else digits⟩

/-- The token of a base-85 string with this text. -/
def base85Token (text : Text) : Token := ⟨.string .base85, text⟩

/-! ## The machine -/

/-- Where reading stands in a lexeme. Text is kept last character first. -/
inductive State where
  /-- before the lexeme -/
  | fresh
  /-- in a run of regular characters -/
  | run (text : Text)
  /-- behind a first slash -/
  | slash
  /-- in a literal name, behind its slash -/
  | literalName (text : Text)
  /-- in an immediate name, behind its two slashes -/
  | immediateName (text : Text)
  /-- behind a first `<` -/
  | less
  /-- behind a first `>` -/
  | greater
  /-- in a hex string -/
  | hex (digits : Text)
  /-- in a base-85 string -/
  | base85 (text : Text)
  /-- behind a tilde in a base-85 string, which may be the first half of its end -/
  | tilde (text : Text)
  /-- in a parenthesized string -/
  | literal (s : Literal.State)
  deriving DecidableEq, Repr

/-- What comes of a character: a state for the lexeme's further reading, or the lexeme. -/
abbrev Next := Advance State Lexeme

/-- The first character of a lexeme. White space and `%` do not get here: a gap has come before. -/
def freshStep (c : Char) : Next :=
  if c = '(' then .more (.literal .start)
  else if c = '<' then .more .less
  else if c = '>' then .more .greater
  else if c = '/' then .more .slash
  else if c = '[' then .last (plain (.ofMark .arrayStart))
  else if c = ']' then .last (plain (.ofMark .arrayEnd))
  else if c = '{' then .last (plain (.ofMark .procedureStart))
  else if c = '}' then .last (plain (.ofMark .procedureEnd))
  else if c = ')' then .last (stray c)
  else .more (.run [c])

/-- A character in a hex string. -/
def hexStep (digits : Text) (c : Char) : Next :=
  if c = '>' then .last (plain (hexToken digits.reverse))
  else if isWhite c then .more (.hex digits)
  else .more (.hex (c :: digits))

/-- A character in a name behind its slashes. -/
def nameStep (kind : Kind) (state : Text → State) (text : Text) (c : Char) : Next :=
  if isRegular c then .more (state (c :: text)) else .before (plain ⟨kind, text.reverse⟩)

/-- What comes of a character. -/
def step (s : State) (c : Char) : Next :=
  match s with
  | .fresh => freshStep c
  | .run text => if isRegular c then .more (.run (c :: text)) else .before (ofRun text.reverse)
  | .slash =>
    if c = '/' then .more (.immediateName []) else nameStep .literalName .literalName [] c
  | .literalName text => nameStep .literalName .literalName text c
  | .immediateName text => nameStep .immediateName .immediateName text c
  | .less =>
    if c = '<' then .last (plain (.ofMark .dictionaryStart))
    else if c = '~' then .more (.base85 [])
    else hexStep [] c
  | .greater =>
    if c = '>' then .last (plain (.ofMark .dictionaryEnd)) else .before (stray '>')
  | .hex digits => hexStep digits c
  | .base85 text => if c = '~' then .more (.tilde text) else .more (.base85 (c :: text))
  | .tilde text =>
    if c = '>' then .last (plain (base85Token text.reverse))
    else if c = '~' then .more (.tilde ('~' :: text))
    else .more (.base85 (c :: '~' :: text))
  | .literal s =>
    (Literal.step s c).map .literal fun text => plain ⟨.string .literal, text⟩

/-- The ways for an input to end where a lexeme was wanted. -/
inductive Missing where
  /-- no lexeme was begun: nothing is left -/
  | lexeme
  /-- the closing parenthesis of a string is missing -/
  | parenthesis
  deriving DecidableEq, Repr

/-- A string that is closed by the end of the input. -/
def unclosed (form : StringForm) (t : Token) : Lexeme :=
  ⟨t, some (.unclosed form)⟩

/-- What comes of the end of the input. -/
def finish : State → Except Missing Lexeme
  | .fresh => .error .lexeme
  | .run text => .ok (ofRun text.reverse)
  | .slash => .ok (plain ⟨.literalName, []⟩)
  | .literalName text => .ok (plain ⟨.literalName, text.reverse⟩)
  | .immediateName text => .ok (plain ⟨.immediateName, text.reverse⟩)
  | .less => .ok (unclosed .hex (hexToken []))
  | .greater => .ok (stray '>')
  | .hex digits => .ok (unclosed .hex (hexToken digits.reverse))
  | .base85 text => .ok (unclosed .base85 (base85Token text.reverse))
  | .tilde text => .ok (unclosed .base85 (base85Token ('~' :: text).reverse))
  | .literal _ => .error .parenthesis

/-- Reads one lexeme. -/
def machine : Machine State Lexeme Missing where
  step := step
  finish := finish

/-- Reads the lexeme that a cursor stands before. -/
def read (c : Cursor) : Ending Lexeme Missing × Cursor :=
  machine.run .fresh c

/-! ## A lexeme is not empty -/

/-- The first character belongs to the lexeme. -/
theorem freshStep_ne_before (c : Char) (l : Lexeme) : freshStep c ≠ .before l := by
  unfold freshStep
  repeat' split
  all_goals simp

/-- Reading a lexeme uses up input. -/
theorem length_read_lt {c : Cursor} {l : Lexeme} (h : (read c).1 = .done l) :
    (read c).2.items.length < c.items.length := by
  obtain ⟨he, hr, -⟩ := machine.run_eq_trace .fresh c
  rw [read, he] at h
  rw [read, hr]
  generalize c.items = items at h ⊢
  rcases items with _ | ⟨b | f, items⟩
  · cases h
  · have hb := freshStep_ne_before b.char
    simp only [Machine.trace]
    cases hs : machine.step .fresh b.char with
    | more next => exact Nat.lt_succ_of_le (machine.length_trace_le next items)
    | last r => exact Nat.lt_succ_self _
    | before r => exact absurd hs (hb r)
  · cases h

end Lexeme

end PageTokens
