/-!
# Settings

Two things can be chosen about a dump: its format, and whether it shows where tokens start. They
come from a configuration file, and what the command line says goes before what the file says.
-/

namespace PageTokens

/-- The formats of a dump. -/
inductive Format where
  /-- a line of text for each token -/
  | text
  /-- one JSON list -/
  | json
  deriving DecidableEq, Repr

namespace Format

/-- The name by which a format is chosen. -/
def name : Format → String
  | .text => "text"
  | .json => "json"

/-- The format of a name; names are matched exactly. -/
def ofName? (s : String) : Option Format :=
  if s = "text" then some .text else if s = "json" then some .json else none

end Format

/-- What can be chosen about a dump. -/
structure Settings where
  /-- its format -/
  format : Format
  /-- whether tokens are shown with their places -/
  showLocation : Bool
  deriving DecidableEq, Repr

namespace Settings

/-- What holds if nothing is chosen. -/
def default : Settings := ⟨.text, false⟩

/-- Settings under a command line that may ask for a format and for locations. There is no asking
for locations to be left out. -/
def override (s : Settings) (format : Option Format) (showLocation : Bool) : Settings :=
  ⟨format.getD s.format, showLocation || s.showLocation⟩

end Settings

end PageTokens
