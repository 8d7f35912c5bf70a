import PageTokens.Notice
import PageTokens.Settings.Document
import PageTokens.System

/-!
# Where settings come from

The settings of a run come from one file: the one that was named, or the first of the usual ones
that exists. That file decides even if it is no good; the others are not tried. Only a run for
which there is no file at all has the default settings, and a file that was named has to exist. One
that was not named is told to the log before it is read.
-/

namespace PageTokens.Program

variable {m : Type → Type} [Monad m]

/-- The name of configuration files. -/
def configName : String := "pstok.toml"

/-- A path below a directory. A slash behind the name of the directory is not doubled. -/
def below (directory path : String) : String :=
  if directory.toList.getLast? = some '/' then directory ++ path else directory ++ "/" ++ path

/-- A path that begins at the root. -/
def isAbsolute (path : String) : Bool :=
  path.toList.head? = some '/'

/-- The directory for configuration files: the one that the environment names, if it does so by an
absolute path, or the usual one at home. -/
def configDirectory (home named : Option String) : Option String :=
  (named.filter isAbsolute) <|> (home.map (below · ".config"))

/-- The usual places of the configuration file, in the order in which they are tried. -/
def configPaths (home named : Option String) : List String :=
  let inDirectory := fun directory => below (below directory "pstok") configName
  [configName] ++ (home.map fun h => inDirectory (below h ".config")).toList ++
    ((configDirectory home named).map inDirectory).toList

/-- The settings in what was found at a configuration file's place. -/
def settingsOf (path : String) : Found → Except Error Settings
  | .nothing _ => .error (.configuration s!"Configuration file not found: {path}")
  | .sealed why => .error (.io why.message)
  | .directory => .error (.io Refusal.isADirectory.message)
  | .file content =>
    match String.fromUTF8? ⟨content.toArray⟩ with
    | some text => Settings.parse text.toList
    | none => .error (.io "stream did not contain valid UTF-8")

/-- What looking for settings comes to. -/
structure Loading where
  /-- what is told on the way -/
  notices : List Notice
  /-- the settings, or what is wrong with them -/
  settings : Except Error Settings

/-- Tells the log which file was found. -/
def foundNotice (path : String) : Notice :=
  .record ⟨.debug, .configuration, s!"using configuration from {path}"⟩

/-- The settings of the first path where there is anything, or the default. -/
def firstSettings (sys : System m) : List String → m Loading
  | [] => return ⟨[], .ok .default⟩
  | path :: paths => do
    let found ← sys.look path
    if found.isSomething then return ⟨[foundNotice path], settingsOf path found⟩
    else firstSettings sys paths

/-- The settings of a run that may have named its configuration file. -/
def loadSettings (sys : System m) : Option String → m Loading
  | some path => do return ⟨[], settingsOf path (← sys.look path)⟩
  | none => do
    let home := (← sys.env "HOME").filter (!·.isEmpty)
    firstSettings sys (configPaths home (← sys.env "XDG_CONFIG_HOME"))

end PageTokens.Program
