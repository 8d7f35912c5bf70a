import PageTokens.Error
import PageTokens.System

/-!
# Where input comes from

An input is named by a path, and `-` names the standard input. The standard input can be read once:
whoever asks for it again finds it empty.
-/

namespace PageTokens.Program

variable {m : Type → Type} [Monad m]

/-- How the standard input is called in messages. -/
def stdinName : String := "<stdin>"

/-- Whether a path means the standard input. Slashes behind the dash, and dots between them, do not
make it another path. -/
def isStdin (path : String) : Bool :=
  match path.splitOn "/" with
  | "-" :: rest => rest.all fun name => name = "" || name = "."
  | _ => false

/-- The input at a path where something was found. A directory is opened like a file, and fails when
it is read. -/
def inputOf (path : String) : Found → Except Error Input
  | .nothing why | .sealed why => .error (.io s!"{path}: {why.message}")
  | .directory => .ok ⟨[.failure ⟨.isADirectory, Refusal.isADirectory.message⟩]⟩
  | .file content => .ok (.ofBytes content)

/-- An input with the name that messages use for it. -/
structure Source where
  /-- the name -/
  name : String
  /-- the input -/
  input : Input
  deriving DecidableEq, Repr

/-- Opens the input at a path; `fresh` says that the standard input has not been read. -/
def openSource (sys : System m) (fresh : Bool) (path : String) : m (Except Error Source) := do
  if isStdin path then
    let content ← if fresh then sys.stdin else pure []
    return .ok ⟨stdinName, .ofBytes content⟩
  else
    return (inputOf path (← sys.look path)).map fun input => ⟨path, input⟩

end PageTokens.Program
