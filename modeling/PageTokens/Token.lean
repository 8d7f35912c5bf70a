import PageTokens.Numeral

/-!
# Tokens

A token is a kind and a value. The value of a name or numeral is its text, that of a marker its own
spelling; a string holds what it denotes as text: with escapes resolved if it is parenthesized, as
hex digits without white space, or as base-85 text untouched.
-/

namespace PageTokens

/-- The ways to write a string. -/
inductive StringForm where
  /-- between parentheses, with escapes -/
  | literal
  /-- hex digits between angle brackets -/
  | hex
  /-- base-85 text between `<~` and `~>` -/
  | base85
  deriving DecidableEq, Repr

/-- The name of a form of strings. -/
def StringForm.label : StringForm → String
  | .literal => "literal"
  | .hex => "hex"
  | .base85 => "base85"

/-- The brackets that open and close arrays, procedures and dictionaries. Whether they match is not
the scanner's concern. -/
inductive Mark where
  /-- `[` -/
  | arrayStart
  /-- `]` -/
  | arrayEnd
  /-- an opening brace -/
  | procedureStart
  /-- a closing brace -/
  | procedureEnd
  /-- `<<` -/
  | dictionaryStart
  /-- `>>` -/
  | dictionaryEnd
  deriving DecidableEq, Repr

/-- How a marker is written. -/
def Mark.spelling : Mark → Text
  | .arrayStart => ['[']
  | .arrayEnd => [']']
  | .procedureStart => ['{']
  | .procedureEnd => ['}']
  | .dictionaryStart => ['<', '<']
  | .dictionaryEnd => ['>', '>']

/-- The kinds of tokens. -/
inductive Kind where
  /-- a name to be executed, or a closing delimiter without its opener -/
  | name
  /-- a numeral of one of the three forms -/
  | numeral (form : Numeral)
  /-- a string in one of the three forms -/
  | string (form : StringForm)
  /-- a name after one slash -/
  | literalName
  /-- a name after two slashes -/
  | immediateName
  /-- a bracket -/
  | mark (m : Mark)
  deriving DecidableEq, Repr

namespace Kind

/-- The name of a kind. The three forms of strings share one. -/
def label : Kind → String
  | .name => "NAME"
  | .numeral .integer => "INT"
  | .numeral .real => "REAL"
  | .numeral .radix => "RADIX"
  | .string _ => "LIT_STRING"
  | .literalName => "LIT_NAME"
  | .immediateName => "IMMEDIATE_NAME"
  | .mark .arrayStart => "ARRAY_START"
  | .mark .arrayEnd => "ARRAY_END"
  | .mark .procedureStart => "PROC_START"
  | .mark .procedureEnd => "PROC_END"
  | .mark .dictionaryStart => "DICT_START"
  | .mark .dictionaryEnd => "DICT_END"

/-- Whether a kind is one of the numerals. -/
def isNumeric : Kind → Bool
  | .numeral _ => true
  | _ => false

/-- The form of a string, for the kinds that are strings. -/
def stringForm? : Kind → Option StringForm
  | .string form => some form
  | _ => none

/-- Whether a kind is one of the strings. -/
def isString (k : Kind) : Bool :=
  k.stringForm?.isSome

end Kind

/-- A token: what it is, and its text. -/
structure Token where
  /-- what it is -/
  kind : Kind
  /-- its text -/
  value : Text
  deriving DecidableEq, Repr

/-- The token of a marker. -/
def Token.ofMark (m : Mark) : Token := ⟨.mark m, m.spelling⟩

end PageTokens
