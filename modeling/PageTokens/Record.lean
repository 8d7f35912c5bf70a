import PageTokens.Json
import PageTokens.Location
import PageTokens.Token.Source

/-!
# Records

A record is what is told of a token in a dump: the token, and the line and column where it starts
if locations are wanted. It can be told in two ways: as a line of text with the token as it would
stand in a program, or as a JSON object with the bare value.
-/

namespace PageTokens

/-- A token to be told about. -/
structure Record where
  /-- the token -/
  token : Token
  /-- where it starts, if that is to be told -/
  place : Option Location
  deriving DecidableEq, Repr

namespace Record

/-- The record of a token that starts at a place, which is told only if it is wanted. -/
def ofToken (t : Token) (start : Location) (showLocation : Bool) : Record :=
  ⟨t, if showLocation then some start else none⟩

/-- A line and column, and a tab to keep them apart from what follows. -/
def placeText : Option Location → Text
  | some l => Nat.toDigits 10 l.line ++ ':' :: Nat.toDigits 10 l.column ++ ['\t']
  | none => []

/-- The record as text, without the end of its line. -/
def line (r : Record) : Text :=
  placeText r.place ++ r.token.kind.label.toList ++ ' ' :: r.token.render

/-- The fields for the place of a token. -/
def placeFields : Option Location → List Json.Field
  | some l => [⟨"line".toList, .number l.line⟩, ⟨"column".toList, .number l.column⟩]
  | none => []

/-- The field for the form of a string; other tokens have none. -/
def formFields (k : Kind) : List Json.Field :=
  match k.stringForm? with
  | some form => [⟨"syntax".toList, .text form.label.toList⟩]
  | none => []

/-- The record as the fields of an object. -/
def fields (r : Record) : List Json.Field :=
  ⟨"kind".toList, .text r.token.kind.label.toList⟩ :: formFields r.token.kind ++
    ⟨"value".toList, .text r.token.value⟩ :: placeFields r.place

/-- The record as JSON on one line. -/
def json (r : Record) : Text :=
  Json.compact r.fields

end Record

end PageTokens
