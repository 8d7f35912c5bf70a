import PageTokens.CommandLine.Option

/-!
# One level of a command line

A level is what stands before the command, or what stands behind it. It collects options and
operands, word by word. Every word settles the option before it if that one was waiting for its
value, and only the word behind a value settles the option that the value is for; so a level may
end with an option unsettled.
-/

namespace PageTokens.CommandLine

/-! ## Words -/

/-- The shapes of words. -/
inductive Shape where
  /-- two dashes alone: no options from here on -/
  | separator
  /-- an option by its name, perhaps with a value attached by an equals sign -/
  | long (name : String) (attached : Option String)
  /-- options by their letters -/
  | letters (cs : List Char)
  /-- anything else, a lone dash included -/
  | plain
  deriving DecidableEq, Repr

/-- The shape of a word. -/
def shape (word : String) : Shape :=
  match word.toList with
  | ['-', '-'] => .separator
  | '-' :: '-' :: text =>
    match text.dropWhile (· != '=') with
    | _ :: value => .long (String.ofList (text.takeWhile (· != '='))) (some (String.ofList value))
    | [] => .long (String.ofList text) none
  | '-' :: c :: cs => .letters (c :: cs)
  | _ => .plain

/-! ## Levels -/

/-- A setting to be settled, with its value once the word for it has come. -/
structure Pending where
  /-- the setting -/
  setting : Setting
  /-- its value -/
  value : Option String
  deriving DecidableEq, Repr

/-- A level as far as it has been read. -/
structure Level where
  /-- the switches that were given -/
  switches : List Switch
  /-- the configuration file, if it was named -/
  config : Option String
  /-- the format of a dump, if it was named -/
  format : Option Format
  /-- the operands -/
  operands : List String
  /-- the setting that is to be settled, if there is one -/
  pending : Option Pending
  /-- whether `--` has been read, after which every word is an operand -/
  closed : Bool
  deriving DecidableEq, Repr

namespace Level

/-- A level before its first word. -/
def start : Level := ⟨[], none, none, [], none, false⟩

/-- Takes note of a switch. -/
def switch (l : Level) (s : Switch) : Except Stop Level :=
  if s ∈ l.switches then .error (.misuse (.repeated (.switch s)))
  else .ok { l with switches := s :: l.switches }

/-- Takes note of the configuration file. Its path may not be empty. -/
def assignConfig (l : Level) (path : String) : Except Stop Level :=
  if path.isEmpty then .error (.misuse (.badValue .config path))
  else if l.config.isSome then .error (.misuse (.repeated (.setting .config)))
  else .ok { l with config := some path }

/-- Takes note of the format. There has to be one of that name. -/
def assignFormat (l : Level) (name : String) : Except Stop Level :=
  match Format.ofName? name with
  | none => .error (.misuse (.badValue .format name))
  | some f =>
    if l.format.isSome then .error (.misuse (.repeated (.setting .format)))
    else .ok { l with format := some f }

/-- Takes note of a setting with its value. -/
def assign (l : Level) : Setting → String → Except Stop Level
  | .config, path => l.assignConfig path
  | .format, name => l.assignFormat name

/-- Settles the setting that is pending. -/
def settle (l : Level) : Except Stop Level :=
  match l.pending with
  | none => .ok l
  | some ⟨s, none⟩ => .error (.misuse (.missingValue s))
  | some ⟨s, some value⟩ => { l with pending := none }.assign s value

/-- Whether the next word is the value of a setting. -/
def awaitsValue (l : Level) : Bool :=
  l.pending.any (·.value.isNone)

/-! ## A word at a level -/

/-- An option without a value. A setting waits for one; a question is answered at once. -/
def bare (l : Level) (scope : Scope) : Opt → Except Stop Level
  | .switch s => l.switch s
  | .setting s => .ok { l with pending := some ⟨s, none⟩ }
  | .help => .error .help
  | .version => .error (.version scope)

/-- An option with a value attached to it. -/
def attached (l : Level) (value : String) : Opt → Except Stop Level
  | .setting s => l.assign s value
  | o => .error (.misuse (.unwantedValue o))

/-- An option by its name. -/
def long (l : Level) (scope : Scope) (name : String) (value : Option String) : Except Stop Level :=
  match scope.named? name, value with
  | none, _ => .error (.misuse (.unknownOption name))
  | some o, none => l.bare scope o
  | some o, some value => l.attached value o

/-- Options by their letters. The first that is a setting has the rest of the word for its value,
without the equals sign if it begins with one; if there is no rest, the value is the next word. -/
def letters (l : Level) (scope : Scope) : List Char → Except Stop Level
  | [] => .ok l
  | c :: rest =>
    match scope.lettered? c, rest with
    | none, _ => .error (.misuse (.unknownOption (String.ofList [c])))
    | some (.setting s), '=' :: value => l.assign s (String.ofList value)
    | some (.setting s), d :: value => l.assign s (String.ofList (d :: value))
    | some o, rest => do (← l.bare scope o).letters scope rest

/-- An operand. -/
def operand (l : Level) (scope : Scope) (word : String) : Except Stop Level :=
  if word.isEmpty || !scope.allowsOperand l.operands then .error (.misuse (.badOperand word))
  else .ok { l with operands := l.operands ++ [word] }

/-- A word that begins no option: a value, if one is awaited, or an operand. -/
def plain (l : Level) (scope : Scope) (word : String) : Except Stop Level :=
  match l.pending with
  | some ⟨s, none⟩ => .ok { l with pending := some ⟨s, some word⟩ }
  | _ => do (← l.settle).operand scope word

/-- A word of any shape. -/
def word (l : Level) (scope : Scope) (w : String) : Except Stop Level :=
  if l.closed then do (← l.settle).operand scope w
  else
    match shape w with
    | .separator => do return { ← l.settle with closed := true }
    | .long name value => do (← l.settle).long scope name value
    | .letters cs => do (← l.settle).letters scope cs
    | .plain => l.plain scope w

/-! ## The environment -/

end Level

/-- The variables of the environment that stand in for options. -/
structure Variables where
  /-- for `--verbose` -/
  verbose : Option String
  /-- for `--config` -/
  config : Option String
  /-- for `--no-color` -/
  noColor : Option String
  deriving DecidableEq, Repr

namespace Level

/-- Checks the variable of a switch that was not given: it has to say true or false. -/
def checkSwitch (l : Level) (s : Switch) (given : Option String) : Except Stop Unit :=
  match given with
  | some value =>
    if s ∈ l.switches || value = "true" || value = "false" then .ok ()
    else .error (.misuse (.badVariable (.switch s) value))
  | none => .ok ()

/-- Checks the variable of the configuration file if none was named: its path may not be empty. -/
def checkConfig (l : Level) (given : Option String) : Except Stop Unit :=
  match given with
  | some value =>
    if l.config.isSome || !value.isEmpty then .ok ()
    else .error (.misuse (.badVariable (.setting .config) value))
  | none => .ok ()

/-- Ends a level: what is pending is settled, and the variables for what was not given are
checked. -/
def close (l : Level) (env : Variables) : Except Stop Level := do
  let l ← l.settle
  l.checkSwitch .verbose env.verbose
  l.checkConfig env.config
  l.checkSwitch .noColor env.noColor
  return l

end Level

end PageTokens.CommandLine
