import PageTokens.CommandLine
import PageTokens.Dump
import PageTokens.Program.Configuration
import PageTokens.Program.Source

/-!
# The program

A run reads its command line, finds its settings, and carries out its command. The settings come
first: if the configuration is at fault, no input is looked at, whatever the command.

`tokens` dumps one input. `check` scans each of its inputs and tells how many tokens it found, or
what was wrong; one bad input does not keep it from the others.

The lines of a run about errors and the records of its log come to the standard error in one order.
-/

namespace PageTokens.Program

variable {m : Type → Type} [Monad m]

/-! ## Outcomes -/

/-- What a command has to report. -/
structure Report where
  /-- the exit code -/
  code : Nat
  /-- the standard output -/
  stdout : List Byte
  /-- what comes to the standard error, in order -/
  notices : List Notice
  deriving DecidableEq, Repr

/-- What a run comes to. -/
structure Outcome extends Report where
  /-- what is asked about the log -/
  diagnostics : Diagnostics
  deriving DecidableEq, Repr

/-- The standard error without the log. -/
def Report.stderr (r : Report) : List Byte := Notice.unlogged r.notices

/-- The standard error, as it is with someone who keeps the log. -/
def Outcome.standardError (o : Outcome) (logger : Logger) : List Byte :=
  logger.written o.diagnostics 0 o.notices

/-- Where nothing of the log is written, this is the whole standard error. -/
theorem Outcome.standardError_of_refused {o : Outcome} {logger : Logger}
    (h : ∀ r, logger.admits o.diagnostics r = false) : o.standardError logger = o.stderr :=
  Logger.written_of_refused (fun r _ => h r) 0

/-- Whatever is written of the log, it is left of the standard error if that is taken out. -/
theorem Outcome.stderr_sublist (o : Outcome) (logger : Logger) :
    o.stderr.Sublist (o.standardError logger) :=
  Logger.unlogged_sublist_written 0 o.notices

/-- An error as a line for the standard error. -/
def errorNotice (e : Error) : Notice := .line s!"error: {e.message}"

/-- The report of a command that ends in an error, or not, with what it told until then. -/
def Report.ofResult (stdout : List Byte) (notices : List Notice) : Option Error → Report
  | none => ⟨0, stdout, notices⟩
  | some e => ⟨1, stdout, notices ++ [errorNotice e]⟩

/-- A report with notices in front. -/
def Report.behind (r : Report) (notices : List Notice) : Report :=
  { r with notices := notices ++ r.notices }

section Reports

variable (r : Report) (stdout : List Byte) (notices : List Notice) (e : Option Error)

@[simp] theorem Report.code_ofResult :
    (ofResult stdout notices e).code = if e.isSome then 1 else 0 := by
  cases e <;> rfl

@[simp] theorem Report.stdout_ofResult : (ofResult stdout notices e).stdout = stdout := by
  cases e <;> rfl

@[simp] theorem Report.code_behind : (r.behind notices).code = r.code := rfl

@[simp] theorem Report.stdout_behind : (r.behind notices).stdout = r.stdout := rfl

end Reports

/-! ## Commands -/

/-- Dumps one source. -/
def tokensReport (settings : Settings) (s : Source) : Report :=
  let result := dump s.input s.name settings .unlimited
  let log := ⟨.debug, .tokens, s!"scanning {s.name}"⟩ ::
    dumpLog s.input s.name settings.showLocation
  .ofResult result.written (log.map .record) result.error

/-- Carries out `tokens`. Without an input it reads the standard input. -/
def runTokens (sys : System m) (settings : Settings) (input : Option String) : m Report := do
  match ← openSource sys true (input.getD "-") with
  | .ok s => return tokensReport settings s
  | .error e => return .ofResult [] [] (some e)

/-- What checking an input comes to: its name and the number of its tokens, or an error. -/
abbrev Verdict := Except Error (String × Nat)

/-- The check of an input. -/
structure Examination where
  /-- what the scan reports -/
  events : List Event
  /-- what it comes to -/
  verdict : Verdict

/-- The verdict on an input with a name, by its tokens. -/
def verdictOn (name : String) : Except ScanError (List Token) → Verdict
  | .ok tokens => .ok (name, tokens.length)
  | .error e => .error (.scan name e)

/-- Checks a source. -/
def examine (s : Source) : Examination :=
  let collection := (Scanner.start s.input).collect
  ⟨collection.events, verdictOn s.name collection.tokens⟩

/-- Checks what was opened, if it was. -/
def examineOpened : Except Error Source → Examination
  | .ok s => examine s
  | .error e => ⟨[], .error e⟩

/-- Checks the inputs at some paths in order; `fresh` says that the standard input has not been
read. -/
def examinations (sys : System m) (fresh : Bool) : List String → m (List Examination)
  | [] => return []
  | path :: paths => do
    let examination := examineOpened (← openSource sys fresh path)
    return examination :: (← examinations sys (fresh && !isStdin path) paths)

/-- The line of a good input. -/
def okLine : Verdict → List Byte
  | .ok (name, count) => line s!"{name}: ok ({count} tokens)"
  | .error _ => []

/-- The line of a bad input. -/
def faultNotices : Verdict → List Notice
  | .ok _ => []
  | .error e => [errorNotice e]

/-- What is told of a check besides the line of a good input. -/
def Examination.notices (x : Examination) : List Notice :=
  x.events.map (.record ·.record) ++ faultNotices x.verdict

/-- Whether an input is bad. -/
def isFault : Verdict → Bool
  | .ok _ => false
  | .error _ => true

/-- What the log is told behind all inputs. -/
def summary (vs : List Verdict) : LogRecord :=
  ⟨.info, .check, s!"checked {vs.length} inputs, {vs.countP isFault} failed"⟩

/-- The error of a check with bad inputs. -/
def checkError? (vs : List Verdict) : Option Error :=
  let bad := vs.countP isFault
  if bad = 0 then none else some (.command s!"{bad} of {vs.length} inputs failed to scan")

/-- What a check comes to: a line for each input, the summary for the log, and an error at the end
if any input was bad. -/
def checkReport (xs : List Examination) : Report :=
  let vs := xs.map Examination.verdict
  .ofResult (vs.flatMap okLine) (xs.flatMap Examination.notices ++ [.record (summary vs)])
    (checkError? vs)

/-- Carries out `check`. Without inputs it reads the standard input. -/
def runCheck (sys : System m) (inputs : List String) : m Report := do
  return checkReport (← examinations sys true (if inputs.isEmpty then ["-"] else inputs))

/-- Carries out a command. -/
def runCommand (sys : System m) (settings : Settings) : CommandLine.Command → m Report
  | .tokens input format showLocation => runTokens sys (settings.override format showLocation) input
  | .check inputs => runCheck sys inputs

/-- Carries out a command with the settings that were found, if they are good. -/
def runSettled (sys : System m) (command : CommandLine.Command) :
    Except Error Settings → m Report
  | .ok settings => runCommand sys settings command
  | .error e => return .ofResult [] [] (some e)

/-- Carries out what a command line asks for, once its settings are looked for. -/
def runInvocation (sys : System m) (i : CommandLine.Invocation) : m Outcome := do
  let loading ← loadSettings sys i.config
  let report ← runSettled sys i.command loading.settings
  return ⟨report.behind loading.notices, i.diagnostics⟩

/-! ## Runs -/

/-- The version. -/
def version : String := "0.1.0"

/-- How to use the program. -/
def usage : String :=
  "\n".intercalate
    ["Usage: pstok [OPTIONS] <COMMAND>",
      "",
      "Commands:",
      "  tokens [-F text|json] [-l] [INPUT]  Print every token of a program",
      "  check [INPUTS]...                   Check that programs scan cleanly",
      "  help [COMMAND]                      Print this message",
      "",
      "Options:",
      "  -v, --verbose        Enable verbose output",
      "  -c, --config <PATH>  Path to configuration file",
      "      --no-color       Disable color output",
      "  -h, --help           Print help",
      "  -V, --version        Print version"]

/-- What comes of a command line that is not carried out. There is no log yet. -/
def stopped (stop : CommandLine.Stop) : Outcome :=
  let report : Report := match stop with
    | .misuse e => ⟨2, [], [.line s!"error: {e.message}\n\n{usage}"]⟩
    | .version scope => ⟨0, line s!"{scope.title} {version}", []⟩
    | .help => ⟨0, line usage, []⟩
  ⟨report, ⟨false, false⟩⟩

/-- The variables that stand in for options. -/
def readVariables (sys : System m) : m CommandLine.Variables := do
  return ⟨← sys.env "PSTOK_VERBOSE", ← sys.env "PSTOK_CONFIG", ← sys.env "PSTOK_NO_COLOR"⟩

/-- A run with the given words on its command line. -/
def run (sys : System m) (words : List String) : m Outcome := do
  match CommandLine.parse (← readVariables sys) words with
  | .ok invocation => runInvocation sys invocation
  | .error stop => return stopped stop

end PageTokens.Program
