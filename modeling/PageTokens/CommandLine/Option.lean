import PageTokens.Settings

/-!
# Options

An option is a switch, or a setting with a value, or a question about the program itself. The
general ones may stand before the command or behind it, those about a dump only behind `tokens`.
-/

namespace PageTokens.CommandLine

/-- Options that are given or not. -/
inductive Switch where
  /-- more in the log -/
  | verbose
  /-- a log without colours -/
  | noColor
  /-- show where tokens start -/
  | showLocation
  deriving DecidableEq, Repr

/-- Options that come with a value. -/
inductive Setting where
  /-- which configuration file to use -/
  | config
  /-- the format of a dump -/
  | format
  deriving DecidableEq, Repr

/-- The options. -/
inductive Opt where
  /-- one that is given or not -/
  | switch (s : Switch)
  /-- one with a value -/
  | setting (s : Setting)
  /-- how to use the program -/
  | help
  /-- which version it is -/
  | version
  deriving DecidableEq, Repr

namespace Opt

/-- The name behind two dashes. -/
def long : Opt → String
  | switch .verbose => "verbose"
  | switch .noColor => "no-color"
  | switch .showLocation => "show-location"
  | setting .config => "config"
  | setting .format => "format"
  | help => "help"
  | version => "version"

/-- The letter behind one dash. -/
def short? : Opt → Option Char
  | switch .verbose => some 'v'
  | switch .noColor => none
  | switch .showLocation => some 'l'
  | setting .config => some 'c'
  | setting .format => some 'F'
  | help => some 'h'
  | version => some 'V'

end Opt

/-- The commands, by their names. -/
inductive Verb where
  /-- dump the tokens of an input -/
  | tokens
  /-- check inputs -/
  | check
  deriving DecidableEq, Repr

namespace Verb

/-- The name of a command. -/
def name : Verb → String
  | tokens => "tokens"
  | check => "check"

/-- The command of a name. -/
def ofName? (s : String) : Option Verb :=
  [tokens, check].find? (·.name = s)

end Verb

/-- The places where options stand: before the command, or behind it. -/
inductive Scope where
  /-- before the command -/
  | top
  /-- behind the command -/
  | behind (v : Verb)
  deriving DecidableEq, Repr

namespace Scope

/-- The options that may stand anywhere. -/
def general : List Opt :=
  [.switch .verbose, .setting .config, .switch .noColor, .help, .version]

/-- The options of a place. -/
def options : Scope → List Opt
  | top | behind .check => general
  | behind .tokens => general ++ [.setting .format, .switch .showLocation]

/-- The option of a place with this name. -/
def named? (scope : Scope) (name : String) : Option Opt :=
  scope.options.find? (·.long = name)

/-- The option of a place with this letter. -/
def lettered? (scope : Scope) (c : Char) : Option Opt :=
  scope.options.find? (·.short? = some c)

/-- The name of the program, and of the command if there is one. -/
def title : Scope → String
  | top => "pstok"
  | behind v => s!"pstok-{v.name}"

/-- Whether an operand may follow those before it: `tokens` has one input, `check` any number. -/
def allowsOperand (scope : Scope) (before : List String) : Bool :=
  match scope with
  | top => false
  | behind .tokens => before.isEmpty
  | behind .check => true

end Scope

/-! ## What ends a command line early -/

/-- Mistakes on a command line. -/
inductive Misuse where
  /-- there is no command -/
  | noCommand
  /-- no command has this name -/
  | unknownCommand (word : String)
  /-- no option here has this name -/
  | unknownOption (name : String)
  /-- the setting has no value -/
  | missingValue (s : Setting)
  /-- the option has a value but takes none -/
  | unwantedValue (o : Opt)
  /-- the setting cannot have this value -/
  | badValue (s : Setting) (value : String)
  /-- the option is given twice at one level -/
  | repeated (o : Opt)
  /-- the operand is empty, or one too many -/
  | badOperand (word : String)
  /-- the option's variable cannot have this value -/
  | badVariable (o : Opt) (value : String)
  deriving DecidableEq, Repr

/-- A mistake in words. -/
def Misuse.message : Misuse → String
  | .noCommand => "a subcommand is required"
  | .unknownCommand word => s!"unrecognized subcommand '{word}'"
  | .unknownOption name => s!"unexpected argument '{name}'"
  | .missingValue s => s!"a value is required for '--{(Opt.setting s).long}'"
  | .unwantedValue o => s!"unexpected value for '--{o.long}'"
  | .badValue s value => s!"invalid value '{value}' for '--{(Opt.setting s).long}'"
  | .repeated o => s!"the argument '--{o.long}' cannot be used multiple times"
  | .badOperand word => s!"unexpected argument '{word}'"
  | .badVariable o value => s!"invalid value '{value}' from the environment for '--{o.long}'"

/-- What ends a command line before there is a command to run. -/
inductive Stop where
  /-- a mistake -/
  | misuse (m : Misuse)
  /-- the version was asked for -/
  | version (scope : Scope)
  /-- help was asked for -/
  | help
  deriving DecidableEq, Repr

end PageTokens.CommandLine
