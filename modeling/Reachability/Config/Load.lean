import Reachability.Config.Toml.Decode
import Reachability.Config.Yaml.Decode
import Reachability.Files.Access
import Reachability.Text.Path

/-!
# Loading configurations

A configuration is loaded from a text in YAML or TOML, its gaps are filled with
defaults, and the result is checked.
-/

namespace Reachability

inductive LoadError where
  | unreadable (error : FileError)
  | malformed (isToml : Bool)
  | invalid (error : ConfigError)
  | noTempDir (error : FileError)
  | noReportsDir (path : String) (error : FileError)
deriving DecidableEq, Repr

def LoadError.message : LoadError → String
  | unreadable error => "could not read config file: " ++ error.message
  | malformed isToml =>
    "could not unmarshal config file" ++
      (if isToml then " as toml" else ", not as yaml, not as toml")
  | invalid error => error.message
  | noTempDir error => "could not create temp dir for reports: " ++ error.message
  | noReportsDir path error => "could not create directory " ++ path ++ ": " ++ error.message

namespace Config

def isTomlName (filename : String) : Bool := filename.endsWith ".toml"

/-- The text is in TOML if the name of the file says so; otherwise it is in YAML, or in TOML if it
is not. -/
def ofText? (filename text : String) : Option Config :=
  if isTomlName filename then Toml.decode text else (Yaml.decode text).or (Toml.decode text)

def withDefaults (config : Config) : Config :=
  let default : Config := {}
  let filled (text default : String) : String := if text = "" then default else text
  { analysis :=
      { config.analysis with
        targetFunction := filled config.analysis.targetFunction default.analysis.targetFunction
        waitlist := filled config.analysis.waitlist default.analysis.waitlist
        valueMerge := filled config.analysis.valueMerge default.analysis.valueMerge
        nondetPrefix := filled config.analysis.nondetPrefix default.analysis.nondetPrefix
        assumeFunction := filled config.analysis.assumeFunction default.analysis.assumeFunction
        function := filled config.analysis.function default.analysis.function }
    options :=
      { config.options with
        logLevel := if config.options.logLevel = 0 then default.options.logLevel
          else config.options.logLevel } }

def ofText (filename text : String) : Except LoadError Config :=
  match ofText? filename text with
  | none => .error (.malformed (isTomlName filename))
  | some config =>
    match config.withDefaults.validate with
    | .error error => .error (.invalid error)
    | .ok () => .ok config.withDefaults

/-- Unless the directory is given, it gets a new name next to the file of the configuration. -/
def makeReportsDir [Monad m] (access : FileAccess m) (filename : String) (config : Config) :
    m (Except LoadError Config) := do
  let path := config.options.reportsDir
  if !config.options.writesReports then return .ok config
  else if path = "" then
    match ← access.makeTempDir (Text.Path.dir filename) "-report" with
    | .error error => return .error (.noTempDir error)
    | .ok path => return .ok { config with options := { config.options with reportsDir := path } }
  else
    match ← access.makeDirs path with
    | .error error =>
      return if error.cause = .alreadyExists then .ok config else .error (.noReportsDir path error)
    | .ok () => return .ok config

def load [Monad m] (access : FileAccess m) (filename text : String) : m (Except LoadError Config) :=
  match ofText filename text with
  | .error error => return .error error
  | .ok config => config.makeReportsDir access filename

def loadFile [Monad m] (access : FileAccess m) (filename : String) :
    m (Except LoadError Config) := do
  match ← access.read filename with
  | .error error => return .error (.unreadable error)
  | .ok text => load access filename text

def siblingPath (filename path : String) : String := Text.Path.join [Text.Path.dir filename, path]

end Config

end Reachability
