import PageTokens.Lexeme
import PageTokens.ScanError
import PageTokens.Token.Display

/-!
# What a scanner reports of its work

Besides its answers a scanner reports events, for whoever keeps a log. Each read reports how it
ended, and before that, if a token came about in an unexpected way, what was unexpected. Ordinary
outcomes are for tracing; what may explain a surprise is for debugging.
-/

namespace PageTokens

/-- How much it matters what is reported. -/
inductive Severity where
  /-- it is of interest to everyone -/
  | info
  /-- it explains a surprise -/
  | debug
  /-- it is part of the ordinary course -/
  | trace
  deriving DecidableEq, Repr

/-- The name of a severity. -/
def Severity.label : Severity → String
  | .info => "INFO"
  | .debug => "DEBUG"
  | .trace => "TRACE"

/-- Where it comes from what is reported: a part of the scanner, or of the program around it. -/
inductive Origin where
  /-- the reads of a scanner -/
  | scanner
  /-- what reads runs, which are numerals or names -/
  | runs
  /-- what reads delimiters -/
  | delimiters
  /-- what reads strings -/
  | strings
  /-- what finds the configuration -/
  | configuration
  /-- what dumps tokens -/
  | tokens
  /-- what checks inputs -/
  | check
  deriving DecidableEq, Repr

/-- Something that happened in a scan. -/
inductive Event where
  /-- a token was not quite what its text might suggest; it begins here -/
  | remarked (r : Remark) (start : Location)
  /-- a token was read; it begins here -/
  | scanned (t : Token) (start : Location)
  /-- the input ends here -/
  | ended (location : Location)
  /-- the read had no answer -/
  | failed (e : ScanError)
  deriving DecidableEq, Repr

/-- A remark in words, about the token that begins at a place. -/
def Remark.message (start : Location) : Remark → String
  | .notNumeral text => s!"'{String.ofList text}' is not a numeral, scanning as a name"
  | .stray c => s!"stray '{c}' at {start.display}, scanning as a name"
  | .unclosed form => s!"{form.label} string at {start.display} closed by end of input"

namespace Event

/-- How much an event matters. -/
def severity : Event → Severity
  | .scanned .. | .ended .. => .trace
  | .remarked .. | .failed .. => .debug

/-- Where an event comes from. -/
def origin : Event → Origin
  | .remarked (.notNumeral _) _ => .runs
  | .remarked (.stray _) _ => .delimiters
  | .remarked (.unclosed _) _ => .strings
  | .scanned .. | .ended .. | .failed _ => .scanner

/-- An event in words. -/
def message : Event → String
  | .remarked r start => r.message start
  | .scanned t start => s!"{t.display} at {start.display}"
  | .ended location => s!"end of input at {location.display}"
  | .failed e => s!"scan failed: {e.message}"

/-- The line of a log: the severity and the words. -/
def line (e : Event) : String :=
  s!"{e.severity.label} {e.message}"

end Event

end PageTokens
