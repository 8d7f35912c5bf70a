import PageTokens.Scanner.Run

/-!
# Sessions

A session is a sequence of requests to one scanner. Each step of it tells what was answered, what
was reported, and where the scanner then stands: what a client could find out by asking.
-/

namespace PageTokens

/-- Something that a scanner can be asked in a session. -/
inductive Request where
  /-- the next token, even after an error -/
  | read
  /-- the next token, if there was no error yet -/
  | next
  /-- all tokens that are left, if there was no error yet -/
  | collect
  /-- nothing but where it stands -/
  | state
  deriving DecidableEq, Repr

/-- The answer to a request. -/
inductive Response where
  /-- to a request for one token -/
  | one (a : Answer)
  /-- to a request for all tokens -/
  | all (tokens : Except ScanError (List Token))
  /-- to a request for nothing -/
  | nothing

/-- A step of a session: the response, the events, and where the scanner stands behind it. -/
structure Step where
  /-- the response -/
  response : Response
  /-- what happened -/
  events : List Event
  /-- where the latest token begins -/
  tokenStart : Location
  /-- the place of the next byte -/
  location : Location

namespace Session

/-- The step in which a scanner responds and reports. -/
def stepOf (response : Response) (events : List Event) (after : Scanner) : Step :=
  ⟨response, events, after.tokenStart, after.location⟩

/-- The step of a read. -/
def stepOfReading (r : Reading) : Step :=
  stepOf (.one r.answer) r.events r.after

/-- One request: the step, and the scanner for the next one. -/
def respond (s : Scanner) : Request → Step × Scanner
  | .read => (stepOfReading s.read, s.read.after)
  | .next => (stepOfReading s.next, s.next.after)
  | .collect => (stepOf (.all s.collect.tokens) s.collect.events s.collect.after, s.collect.after)
  | .state => (stepOf .nothing [] s, s)

/-- The steps of a session. -/
def run (s : Scanner) : List Request → List Step
  | [] => []
  | request :: requests =>
    let (step, after) := respond s request
    step :: run after requests

/-- The scanner behind a session. -/
def leave (s : Scanner) (requests : List Request) : Scanner :=
  requests.foldl (fun s request => (respond s request).2) s

theorem run_append (s : Scanner) (requests more : List Request) :
    run s (requests ++ more) = run s requests ++ run (leave s requests) more := by
  induction requests generalizing s with
  | nil => rfl
  | cons request requests ih => exact congrArg (_ :: ·) (ih _)

theorem length_run (s : Scanner) (requests : List Request) :
    (run s requests).length = requests.length := by
  induction requests generalizing s with
  | nil => rfl
  | cons request requests ih => exact congrArg (· + 1) (ih _)

/-- The session that reads until there is no token. -/
def readThrough (s : Scanner) : List Step :=
  s.readings.map stepOfReading

end Session

end PageTokens
