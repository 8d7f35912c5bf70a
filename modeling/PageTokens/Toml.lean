import PageTokens.Toml.Document

/-!
# Reading TOML

A document is read sign by sign. Its lines are empty, or headers `[key]`, or entries `key = value`;
a key is made of bare words and of strings on one line, with dots in between, and all spellings of
a word are the same key. A value is a boolean, a string of any kind, an empty list, or an inline
table, that is, entries between braces with commas in between. A value is written on one line,
except that blocks and lists may go over several.
-/

namespace PageTokens.Toml

/-! ## What a sign says -/

/-- The word of a key that a sign spells. -/
def Sign.key? : Sign → Option Text
  | .word t | .quoted t => some t
  | _ => none

/-- The value that a sign denotes by itself. -/
def Sign.value? : Sign → Option Content
  | .word ['t', 'r', 'u', 'e'] => some (.flag true)
  | .word ['f', 'a', 'l', 's', 'e'] => some (.flag false)
  | .quoted t | .block t => some (.text t)
  | _ => none

/-! ## Reading signs -/

/-- Where reading stands among the signs. A key that is under way is kept as far as it has been
read. -/
inductive Place where
  /-- at the beginning of a line -/
  | line
  /-- in a header, in front of a word -/
  | headerWord (key : Path)
  /-- in a header, behind a word -/
  | header (key : Path)
  /-- in an entry, in front of a word of its key -/
  | word (key : Path)
  /-- in an entry, behind a word of its key -/
  | key (key : Path)
  /-- in front of the value of an entry -/
  | value (key : Path)
  /-- in a list, which is the value of an entry -/
  | list (key : Path)
  /-- behind the brace that opens an inline table -/
  | brace
  /-- behind a header or an entry -/
  | done
  deriving DecidableEq, Repr

/-- A document in the course of being read. -/
structure State where
  /-- what has been read -/
  document : Document
  /-- the table of the last header, or the one at the top -/
  table : Path
  /-- the inline tables that are open, the innermost first -/
  inline : List Path
  /-- where reading stands -/
  place : Place
  deriving DecidableEq, Repr

namespace State

/-- Before the first sign. -/
def start : State := ⟨[], [], [], .line⟩

/-- The table that entries go to. -/
def base (s : State) : Path := s.inline.headD s.table

/-- At another place. -/
def goto (s : State) (p : Place) : Except Fault State := .ok { s with place := p }

/-- Keys have fewer words than this, and inline tables are less deep. -/
def depthLimit : Nat := 80

/-- Goes on with a key that has one more word. -/
def extend (s : State) (place : Path → Place) (key : Path) (sign : Sign) : Except Fault State :=
  match sign.key? with
  | none => .error .badLine
  | some k => if key.length + 1 < depthLimit then s.goto (place (key ++ [k])) else .error .tooDeep

/-- Ends an entry whose value is not a table. -/
def define (s : State) (key : Path) (c : Content) : Except Fault State := do
  return { s with document := ← s.document.define s.base c key, place := .done }

/-- Ends a header. Its key starts at the top. -/
def openTable (s : State) (key : Path) : Except Fault State := do
  return { s with document := ← s.document.openTable [] key, table := key, place := .done }

/-- Opens an inline table. -/
def openInline (s : State) (key : Path) : Except Fault State := do
  if s.inline.length + 1 < depthLimit then
    let document ← s.document.define s.base (.table .inline) key
    return ⟨document, s.table, (s.base ++ key) :: s.inline, .brace⟩
  else throw .tooDeep

/-- Closes the innermost inline table. -/
def closeInline (s : State) : Except Fault State :=
  match s.inline with
  | [] => .error .badLine
  | _ :: outer => .ok { s with inline := outer, place := .done }

/-- Behind a header or an entry. -/
def endStep (s : State) : Sign → Except Fault State
  | .lineEnd => if s.inline = [] then s.goto .line else .error .badLine
  | .comma => if s.inline = [] then .error .badLine else s.goto (.word [])
  | .closeBrace => s.closeInline
  | _ => .error .badLine

/-- In front of the value of an entry. -/
def valueStep (s : State) (key : Path) : Sign → Except Fault State
  | .openBracket => s.goto (.list key)
  | .openBrace => s.openInline key
  | sign =>
    match sign.value? with
    | some c => s.define key c
    | none => .error .badLine

/-- What comes of a sign. -/
def step (s : State) (sign : Sign) : Except Fault State :=
  match s.place, sign with
  | .line, .lineEnd => .ok s
  | .line, .openBracket => s.goto (.headerWord [])
  | .line, _ => s.extend .key [] sign
  | .headerWord key, _ => s.extend .header key sign
  | .header key, .dot => s.goto (.headerWord key)
  | .header key, .closeBracket => s.openTable key
  | .word key, _ => s.extend .key key sign
  | .key key, .dot => s.goto (.word key)
  | .key key, .equals => s.goto (.value key)
  | .value key, _ => s.valueStep key sign
  | .list _, .lineEnd => .ok s
  | .list key, .closeBracket => s.define key .list
  | .brace, .closeBrace => s.closeInline
  | .brace, _ => s.extend .key [] sign
  | .done, _ => s.endStep sign
  | .header _, _ | .key _, _ | .list _, _ => .error .badLine

/-- The document, if it may end here. -/
def finish (s : State) : Except Fault Document :=
  match s.place, s.inline with
  | .line, [] | .done, [] => .ok s.document
  | _, _ => .error .badLine

end State

/-- Reads a document. What its keys mean is not yet looked at. -/
def parse (t : Text) : Except Fault Document := do
  let s ← (← signs t).foldlM State.step .start
  s.finish

end PageTokens.Toml
