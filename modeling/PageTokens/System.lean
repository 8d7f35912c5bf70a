import PageTokens.Input

/-!
# What a run may ask of its surroundings

A run looks at paths, reads variables of the environment, and reads the standard input. `System`
lists these questions and leaves open how they are answered: by an operating system, or by a
description of files (`FileTree`), about which one can reason.
-/

namespace PageTokens

/-- The words and the number with which an operating system refuses something. -/
structure Refusal where
  /-- the words -/
  text : String
  /-- the number -/
  code : Nat
  deriving DecidableEq, Repr

namespace Refusal

/-- There is nothing at the path. -/
def notFound : Refusal := ⟨"No such file or directory", 2⟩

/-- The path goes on behind something that is not a directory. -/
def notADirectory : Refusal := ⟨"Not a directory", 20⟩

/-- A directory is to be read as if it were a file. -/
def isADirectory : Refusal := ⟨"Is a directory", 21⟩

/-- The refusal in words. -/
def message (r : Refusal) : String :=
  s!"{r.text} (os error {r.code})"

end Refusal

/-- What there is at a path. -/
inductive Found where
  /-- nothing, for this reason -/
  | nothing (why : Refusal)
  /-- something that cannot be opened, for this reason -/
  | sealed (why : Refusal)
  /-- a directory; it can be opened, but not read -/
  | directory
  /-- a file with this content -/
  | file (content : List Byte)
  deriving DecidableEq, Repr

/-- Whether there is anything. -/
def Found.isSomething : Found → Bool
  | .nothing _ => false
  | _ => true

/-- The surroundings of a run. -/
structure System (m : Type → Type) where
  /-- what there is at a path -/
  look : String → m Found
  /-- the value of a variable, if it is set -/
  env : String → m (Option String)
  /-- the whole of the standard input -/
  stdin : m (List Byte)

end PageTokens
