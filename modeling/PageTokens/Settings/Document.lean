import PageTokens.Error
import PageTokens.Settings
import PageTokens.Toml

/-!
# Settings in a document

A configuration file may have two keys, `format` and `show_location`, and no others. What it does
not say keeps its default. The second is a boolean. The first is one of a few alternatives, and
these have two spellings: the name of the alternative as a string, or a table with this name as its
only key. Since no format takes anything along with it, what the name leads to is then an empty
list or an empty table.
-/

namespace PageTokens.Settings

open Toml (Document Fault)

/-- The key of the format. -/
def formatKey : Text := "format".toList

/-- The key of the places of tokens. -/
def showLocationKey : Text := "show_location".toList

/-- The format of a name. -/
def formatOfName (t : Text) : Except Fault Format :=
  match Format.ofName? (String.ofList t) with
  | some f => .ok f
  | none => .error (.badValue formatKey)

/-- The format that a document chooses, by name or by a table with one key. -/
def formatOf (d : Document) : Except Fault Format :=
  match d.content? [formatKey] with
  | none => .ok default.format
  | some (.text t) => formatOfName t
  | some (.table _) =>
    match d.keys [formatKey] with
    | [k] => if d.isEmptyAt [formatKey, k] then formatOfName k else .error (.badValue formatKey)
    | _ => .error (.badValue formatKey)
  | some (.flag _) | some .list => .error (.badValue formatKey)

/-- What a document says on the places of tokens. -/
def showLocationOf (d : Document) : Except Fault Bool :=
  match d.content? [showLocationKey] with
  | none => .ok default.showLocation
  | some (.flag b) => .ok b
  | some _ => .error (.badValue showLocationKey)

/-- The settings of a document. -/
def ofDocument (d : Document) : Except Fault Settings :=
  match (d.keys []).find? fun k => k != formatKey && k != showLocationKey with
  | some k => .error (.unknownKey k)
  | none => do return ⟨← formatOf d, ← showLocationOf d⟩

/-- The settings of a configuration text. -/
def parse (t : Text) : Except Error Settings :=
  match Toml.parse t >>= ofDocument with
  | .ok s => .ok s
  | .error fault => .error (.configuration s!"Failed to parse configuration: {fault.message}")

end PageTokens.Settings
