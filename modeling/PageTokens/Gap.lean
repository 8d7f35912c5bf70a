import PageTokens.Machine

/-!
# Gaps

What stands between tokens has no meaning: white space, and comments, each from a `%` to the end of
its line. The line break that ends a comment is not part of it; it is white space, or the input ends
there. A comment's text is not looked at, so nothing in it opens or closes anything.
-/

namespace PageTokens.Gap

/-- Where a gap stands. -/
inductive State where
  /-- between comments -/
  | space
  /-- in a comment -/
  | comment
  deriving DecidableEq, Repr

/-- Between comments a gap ends before the first character that begins something. -/
def spaceStep (c : Char) : Advance State Unit :=
  if isWhite c then .more .space
  else if c = '%' then .more .comment
  else .before ()

/-- A comment goes on to its line break, which is white space again. -/
def step : State → Char → Advance State Unit
  | .space, c => spaceStep c
  | .comment, c => if isLineBreak c then spaceStep c else .more .comment

/-- Reads a gap, empty or not. The end of the input ends a gap too. -/
def machine : Machine State Unit Empty where
  step := step
  finish _ := .ok ()

/-- Moves a cursor past the gap that it stands before, or to the failed read within it. -/
def skip (c : Cursor) : Except Failure Unit × Cursor :=
  match machine.run .space c with
  | (.done (), next) => (.ok (), next)
  | (.failed f, next) => (.error f, next)

end PageTokens.Gap
