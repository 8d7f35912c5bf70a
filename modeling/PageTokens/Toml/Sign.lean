import PageTokens.Alphabet

/-!
# The signs of a TOML document

A configuration file is a TOML document that says little: its values are strings and booleans, and
tables and lists only as far as they are empty or lead to such values. This module cuts a document
into signs, that is bare words, quoted strings, punctuation and line ends; blanks and comments
vanish. What TOML has beyond that (numbers, dates) contains a character that is no sign here, or a
word that is no boolean, so it is refused without being understood.

Strings come in TOML's four kinds: basic ones with escapes and literal ones without, each on one
line or, between three quotation marks, on several.
-/

namespace PageTokens.Toml

/-! ## Characters -/

/-- A line feed, or a carriage return with its line feed, ends a line. Once the pairs are made
single line feeds, a carriage return that is left is a control character like any other. -/
def unifyLineEnds : Text → Text
  | '\r' :: '\n' :: rest => '\n' :: unifyLineEnds rest
  | c :: rest => c :: unifyLineEnds rest
  | [] => []

/-- The characters of bare words. -/
def isBare (c : Char) : Bool :=
  c.isAlphanum || c == '_' || c == '-'

/-- Blanks separate signs. -/
def isBlank (c : Char) : Bool :=
  c == ' ' || c == '\t'

/-- The characters that may stand in comments and strings: all but controls, and the tab. -/
def isPrintable (c : Char) : Bool :=
  c == '\t' || (0x20 ≤ c.toNat && c.toNat != 0x7F)

/-- The value of a hexadecimal digit. -/
def hexValue? (c : Char) : Option Nat :=
  if c.isDigit then some (c.toNat - '0'.toNat)
  else if 'a' ≤ c && c ≤ 'f' then some (c.toNat - 'a'.toNat + 10)
  else if 'A' ≤ c && c ≤ 'F' then some (c.toNat - 'A'.toNat + 10)
  else none

/-- The character of a code, if there is one. -/
def charOfCode? (n : Nat) : Option Char :=
  if n.isValidChar then some (Char.ofNat n) else none

/-! ## Signs -/

/-- The signs that documents are made of. -/
inductive Sign where
  /-- a bare word -/
  | word (t : Text)
  /-- a string on one line -/
  | quoted (t : Text)
  /-- a string between triple quotation marks -/
  | block (t : Text)
  /-- an equals sign -/
  | equals
  /-- a dot -/
  | dot
  /-- a comma -/
  | comma
  /-- `[` -/
  | openBracket
  /-- `]` -/
  | closeBracket
  /-- a brace that opens -/
  | openBrace
  /-- a brace that closes -/
  | closeBrace
  /-- the end of a line -/
  | lineEnd
  deriving DecidableEq, Repr

/-- Why a text is no document. -/
inductive Fault where
  /-- this character cannot stand where it does -/
  | unexpected (c : Char)
  /-- an escape has no meaning -/
  | badEscape
  /-- a string is open when the text ends -/
  | unclosedString
  /-- a line is neither a header nor of the form `key = value` -/
  | badLine
  /-- a key has too many words, or too many tables are open -/
  | tooDeep
  /-- what a key leads to is there already, and cannot be changed -/
  | duplicate (key : Text)
  /-- nothing has this name -/
  | unknownKey (key : Text)
  /-- the value is not one that the key can have -/
  | badValue (key : Text)
  deriving DecidableEq, Repr

/-- A fault in words. -/
def Fault.message : Fault → String
  | .unexpected c => s!"unexpected character '{c}'"
  | .badEscape => "invalid escape in a string"
  | .unclosedString => "unclosed string"
  | .badLine => "expected a line of the form [key] or key = value"
  | .tooDeep => "too many nested tables"
  | .duplicate key => s!"duplicate key {String.ofList key}"
  | .unknownKey key => s!"unknown key {String.ofList key}"
  | .badValue key => s!"invalid value of {String.ofList key}"

/-! ## Reading signs -/

/-- The two quotation marks. -/
inductive Quote where
  /-- `"`: escapes have a meaning -/
  | basic
  /-- `'`: nothing has a meaning but the mark -/
  | literal
  deriving DecidableEq, Repr

/-- The mark itself. -/
def Quote.mark : Quote → Char
  | .basic => '"'
  | .literal => '\''

/-- What an unfinished escape has read so far. -/
inductive Escape where
  /-- the backslash -/
  | backslash
  /-- the beginning of an escape by code: digits that are missing, and the code so far -/
  | code (left : Nat) (value : Nat)
  deriving DecidableEq, Repr

/-- Where reading stands in a block. -/
inductive Phase where
  /-- behind the opening marks, where a line end is dropped -/
  | opening
  /-- in the text -/
  | text
  /-- behind this many marks, which may be its end -/
  | marks (count : Nat)
  /-- in an escape -/
  | escape (e : Escape)
  /-- behind a backslash and a blank; the line has to end -/
  | fold
  /-- behind a backslash and a line end; blanks and line ends are dropped -/
  | folded
  deriving DecidableEq, Repr

/-- Where reading stands in a document. Text is kept last character first. -/
inductive Mode where
  /-- between signs -/
  | blank
  /-- in a comment -/
  | comment
  /-- in a bare word -/
  | word (text : Text)
  /-- behind one quotation mark -/
  | quote (q : Quote)
  /-- behind two: an empty string, unless a third comes -/
  | quotes (q : Quote)
  /-- in a string on one line, perhaps in an escape -/
  | quoted (q : Quote) (text : Text) (escape : Option Escape)
  /-- in a string between triple marks -/
  | block (q : Quote) (text : Text) (phase : Phase)
  deriving DecidableEq, Repr

/-- What comes of a character: the mode behind it, and the signs that it completed. -/
abbrev Next := Except Fault (Mode × List Sign)

/-- A mode, and no sign completed. -/
def Next.go (m : Mode) : Next := .ok (m, [])

/-- A sign before what comes of a character. -/
def Next.after (sign : Sign) (n : Next) : Next :=
  n.map fun (mode, signs) => (mode, sign :: signs)

/-- The sign that a character is by itself. -/
def Sign.ofChar? : Char → Option Sign
  | '\n' => some .lineEnd
  | '=' => some .equals
  | '.' => some .dot
  | ',' => some .comma
  | '[' => some .openBracket
  | ']' => some .closeBracket
  | '\x7b' => some .openBrace
  | '\x7d' => some .closeBrace
  | _ => none

/-- A character between signs. -/
def blankStep (c : Char) : Next :=
  if let some sign := Sign.ofChar? c then .ok (.blank, [sign])
  else if isBlank c then .go .blank
  else if c = '#' then .go .comment
  else if c = '"' then .go (.quote .basic)
  else if c = '\'' then .go (.quote .literal)
  else if isBare c then .go (.word [c])
  else .error (.unexpected c)

/-- What an escape comes to: the character that it stands for, or an escape that is unfinished. -/
abbrev Resolved := Except Fault (Sum Char Escape)

/-- A character behind a backslash. Line ends and blanks are left to blocks. -/
def backslashStep (c : Char) : Resolved :=
  if c = 'b' then .ok (.inl '\x08')
  else if c = 't' then .ok (.inl '\t')
  else if c = 'n' then .ok (.inl '\n')
  else if c = 'f' then .ok (.inl '\x0c')
  else if c = 'r' then .ok (.inl '\r')
  else if c = '"' || c = '\\' then .ok (.inl c)
  else if c = 'u' then .ok (.inr (.code 4 0))
  else if c = 'U' then .ok (.inr (.code 8 0))
  else .error .badEscape

/-- A digit of an escape by code. -/
def codeStep (left value : Nat) (c : Char) : Resolved :=
  match hexValue? c with
  | none => .error .badEscape
  | some d =>
    if left ≤ 1 then
      match charOfCode? (value * 16 + d) with
      | some c => .ok (.inl c)
      | none => .error .badEscape
    else .ok (.inr (.code (left - 1) (value * 16 + d)))

/-- A character in an escape. -/
def Escape.step : Escape → Char → Resolved
  | .backslash, c => backslashStep c
  | .code left value, c => codeStep left value c

/-- Goes on in a string, whose mode is given by its text and the escape under way, with what an
escape came to. -/
def resume (mode : Text → Option Escape → Mode) (text : Text) : Resolved → Next
  | .ok (.inl c) => .go (mode (c :: text) none)
  | .ok (.inr e) => .go (mode text (some e))
  | .error fault => .error fault

/-- A character in a string on one line. -/
def quotedStep (q : Quote) (text : Text) (escape : Option Escape) (c : Char) : Next :=
  match escape with
  | some e => resume (.quoted q) text (e.step c)
  | none =>
    if c = q.mark then .ok (.blank, [.quoted text.reverse])
    else if c = '\\' && q = .basic then .go (.quoted q text (some .backslash))
    else if isPrintable c then .go (.quoted q (c :: text) none)
    else .error (.unexpected c)

/-- A character in the text of a block. -/
def blockText (q : Quote) (text : Text) (c : Char) : Next :=
  if c = q.mark then .go (.block q text (.marks 1))
  else if c = '\\' && q = .basic then .go (.block q text (.escape .backslash))
  else if isPrintable c || c = '\n' then .go (.block q (c :: text) .text)
  else .error (.unexpected c)

/-- The sign of a block that ends with a run of marks: the last three close it, and those before
belong to it. -/
def blockSign (q : Quote) (text : Text) (marks : Nat) : Sign :=
  .block (List.replicate (marks - 3) q.mark ++ text).reverse

/-- The mode of a block, by its text and the escape under way. -/
def blockMode (q : Quote) (text : Text) (escape : Option Escape) : Mode :=
  .block q text (escape.elim .text .escape)

/-- A character in a block. -/
def blockStep (q : Quote) (text : Text) (phase : Phase) (c : Char) : Next :=
  match phase with
  | .opening => if c = '\n' then .go (.block q text .text) else blockText q text c
  | .text => blockText q text c
  | .marks count =>
    if c = q.mark then
      if count < 5 then .go (.block q text (.marks (count + 1))) else .error (.unexpected c)
    else if count < 3 then blockText q (List.replicate count q.mark ++ text) c
    else Next.after (blockSign q text count) (blankStep c)
  | .escape e =>
    if e = .backslash && c = '\n' then .go (.block q text .folded)
    else if e = .backslash && isBlank c then .go (.block q text .fold)
    else resume (blockMode q) text (e.step c)
  | .fold =>
    if c = '\n' then .go (.block q text .folded)
    else if isBlank c then .go (.block q text .fold)
    else .error .badEscape
  | .folded => if isBlank c || c = '\n' then .go (.block q text .folded) else blockText q text c

/-- What comes of a character. -/
def step (m : Mode) (c : Char) : Next :=
  match m with
  | .blank => blankStep c
  | .comment =>
    if c = '\n' then blankStep c
    else if isPrintable c then .go .comment
    else .error (.unexpected c)
  | .word text =>
    if isBare c then .go (.word (c :: text)) else Next.after (.word text.reverse) (blankStep c)
  | .quote q => if c = q.mark then .go (.quotes q) else quotedStep q [] none c
  | .quotes q =>
    if c = q.mark then .go (.block q [] .opening) else Next.after (.quoted []) (blankStep c)
  | .quoted q text escape => quotedStep q text escape c
  | .block q text phase => blockStep q text phase c

/-- What comes of the end of the text: the signs that it completes. -/
def finish : Mode → Except Fault (List Sign)
  | .blank | .comment => .ok []
  | .word text => .ok [.word text.reverse]
  | .quotes _ => .ok [.quoted []]
  | .block q text (.marks count) =>
    if 3 ≤ count then .ok [blockSign q text count] else .error .unclosedString
  | .quote _ | .quoted .. | .block .. => .error .unclosedString

/-- The signs of a text, read from a mode. -/
def signsFrom (m : Mode) : Text → Except Fault (List Sign)
  | [] => finish m
  | c :: rest =>
    match step m c with
    | .error fault => .error fault
    | .ok (next, signs) => (signsFrom next rest).map (signs ++ ·)

/-- The signs of a text. A byte-order mark in front of it does not count. -/
def signs (t : Text) : Except Fault (List Sign) :=
  signsFrom .blank (unifyLineEnds (if t.head? = some '\ufeff' then t.tail else t))

end PageTokens.Toml
