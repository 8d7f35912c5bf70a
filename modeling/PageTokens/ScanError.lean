import PageTokens.Input
import PageTokens.Location

/-!
# What can go wrong in a scan

Almost nothing: every sequence of bytes is some sequence of tokens, unless a parenthesized string is
still open when the input ends. The other error is not the text's: a read failed.
-/

namespace PageTokens

/-- An error of a scan. -/
inductive ScanError where
  /-- the parenthesized string that begins at this place has no end -/
  | unterminated (start : Location)
  /-- a read failed -/
  | read (f : Failure)
  deriving DecidableEq, Repr

namespace ScanError

/-- The error in words. -/
def message : ScanError → String
  | .unterminated start => s!"unterminated string literal starting at {start.display}"
  | .read f => s!"failed to read input: {f.message}"

/-- The place that the error points to, if it points to one. -/
def location? : ScanError → Option Location
  | .unterminated start => some start
  | .read _ => none

/-- The failure behind the error, if there is one. -/
def failure? : ScanError → Option Failure
  | .unterminated _ => none
  | .read f => some f

end ScanError

end PageTokens
