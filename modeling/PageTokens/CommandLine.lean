import PageTokens.CommandLine.Level
import PageTokens.Notice

/-!
# The command line

A command line is `OPTIONS COMMAND OPTIONS OPERANDS`: it has two levels, one before the command
and one behind it. The general options may stand at either level; given at both, the one behind
the command counts, and what is given at neither may come from a variable of the environment.

Words are read in order. `--version` and `--help` answer at once, and a mistake ends the reading,
so of several the first counts. The first level is ended after the second, so that what is pending
at the command is settled last.

The switches for the log are on if they are given at either level, or if their variable says so.
-/

namespace PageTokens.CommandLine

/-- The commands, with all that was said about them. -/
inductive Command where
  /-- dump the tokens of one input -/
  | tokens (input : Option String) (format : Option Format) (showLocation : Bool)
  /-- check some inputs -/
  | check (inputs : List String)
  deriving DecidableEq, Repr

/-- What is to be done: a command, the configuration file to use if one was named, and what is asked
about the log. -/
structure Invocation where
  /-- the command -/
  command : Command
  /-- the path of the configuration file -/
  config : Option String
  /-- what is asked about the log -/
  diagnostics : Diagnostics
  deriving DecidableEq, Repr

/-- The command with the options and operands behind it. -/
def commandOf (l : Level) : Verb → Command
  | .tokens => .tokens l.operands.head? l.format (.showLocation ∈ l.switches)
  | .check => .check l.operands

/-- What is asked about the log, at the levels before and behind the command and in the
environment. -/
def diagnosticsOf (env : Variables) (top level : Level) : Diagnostics where
  verbose := .verbose ∈ level.switches || .verbose ∈ top.switches || env.verbose = some "true"
  noColor := .noColor ∈ level.switches || .noColor ∈ top.switches || env.noColor = some "true"

/-- Reads the words behind a command, with the level before it. -/
def parseCommand (env : Variables) (top : Level) (verb : Verb) (words : List String) :
    Except Stop Invocation := do
  let level ← words.foldlM (·.word (.behind verb) ·) Level.start
  let level ← level.close env
  let top ← top.close env
  return ⟨commandOf level verb, level.config <|> top.config <|> env.config,
    diagnosticsOf env top level⟩

/-- The answer to `help`, which may name a command. -/
def parseHelp : List String → Stop
  | [] => .help
  | [word] =>
    if (Verb.ofName? word).isSome || word = "help" then .help
    else .misuse (.unknownCommand word)
  | _ :: word :: _ => .misuse (.unknownCommand word)

/-- Reads the words from the first level on. -/
def parseFrom (env : Variables) (top : Level) : List String → Except Stop Invocation
  | [] => do
    let _ ← top.settle
    .error (.misuse .noCommand)
  | w :: words =>
    if shape w = .plain && !top.closed && !top.awaitsValue then
      match Verb.ofName? w with
      | some verb => parseCommand env top verb words
      | none => .error (if w = "help" then parseHelp words else .misuse (.unknownCommand w))
    else do parseFrom env (← top.word .top w) words

/-- Reads a command line. -/
def parse (env : Variables) (words : List String) : Except Stop Invocation :=
  parseFrom env .start words

end PageTokens.CommandLine
