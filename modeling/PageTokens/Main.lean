import PageTokens.Program

/-!
# The executable

The surroundings of a run, as the operating system answers for them, and the entry point.
-/

namespace PageTokens.Executable

/-- The words and the number in an error of the operating system. -/
def refusalOf : IO.Error → Refusal
  | .alreadyExists _ code details | .otherError code details | .resourceBusy code details
  | .resourceVanished code details | .unsupportedOperation code details
  | .hardwareFault code details | .unsatisfiedConstraints code details
  | .illegalOperation code details | .protocolError code details | .timeExpired code details
  | .interrupted _ code details | .noFileOrDirectory _ code details
  | .invalidArgument _ code details | .permissionDenied _ code details
  | .resourceExhausted _ code details | .inappropriateType _ code details
  | .noSuchThing _ code details => ⟨details, code.toNat⟩
  | .unexpectedEof => ⟨"unexpected end of file", 0⟩
  | .userError details => ⟨details, 0⟩

/-- What is found where nothing could be opened: nothing, unless access was denied. -/
def foundRefusal (why : Refusal) : Found :=
  if why.code = 13 then .sealed why else .nothing why

/-- What is found where something was opened but not read: a directory, most of the time. -/
def foundUnreadable (why : Refusal) : Found :=
  if why.code = Refusal.isADirectory.code then .directory else .sealed why

/-- Looks at a path by opening and reading it. -/
def look (path : String) : IO Found := do
  match ← (IO.FS.Handle.mk path .read).toBaseIO with
  | .error e => return foundRefusal (refusalOf e)
  | .ok handle =>
    match ← handle.readBinToEnd.toBaseIO with
    | .error e => return foundUnreadable (refusalOf e)
    | .ok content => return .file content.toList

/-- Reads a stream to its end, behind what has been read of it. -/
partial def readToEnd (stream : IO.FS.Stream) (before : ByteArray) : IO ByteArray := do
  let bytes ← stream.read 65536
  if bytes.isEmpty then return before else readToEnd stream (before ++ bytes)

/-- The operating system as the surroundings of a run. -/
def system : System IO where
  look := look
  env name := IO.getEnv name
  stdin := do return (← readToEnd (← IO.getStdin) .empty).toList

/-- A log with the severity and the words of each record. The time and the colours are left out, and
the environment is not asked for a filter. -/
def logger : Logger where
  filter? := none
  layout _ _ r := line s!"{r.severity.label} {r.text}"

end PageTokens.Executable

open PageTokens.Executable in
/-- Runs the program with the words of its command line. -/
def main (words : List String) : IO UInt32 := do
  let outcome ← PageTokens.Program.run system words
  (← IO.getStdout).write ⟨outcome.stdout.toArray⟩
  (← IO.getStderr).write ⟨(outcome.standardError logger).toArray⟩
  return outcome.code.toUInt32
