import Reachability.CommandLine.Environment
import Reachability.CommandLine.Hint
import Reachability.CommandLine.Tool
import Reachability.Text.Placeholder

/-!
# Running the program

The exit code is zero if all went well, one if a target can be reached, and two
if something was wrong.
-/

namespace Reachability.CommandLine

open Source (SourceFile SourceError)

inductive CommandError where
  | nothingToRender
  | load (path : String) (error : LoadError)
  | fileCount (count : Nat)
  | unreadable (error : FileError)
  | source (error : SourceError)
  | verify (error : VerifyError)
  | unwritable (drawing : String) (error : FileError)

def CommandError.message : CommandError → String
  | nothingToRender => "nothing to render, use -cfaout or -argout"
  | load path error => "failed to load config file " ++ path ++ ": " ++ error.message
  | fileCount count => "expected one Go file, got " ++ toString count ++ " arguments"
  | unreadable error => "could not read source: " ++ error.message
  | source error => error.message
  | verify error => error.message?.getD ""
  | unwritable drawing error =>
    "could not write " ++ drawing ++ ": could not create file: " ++ error.message

structure Options where
  configPath : String
  verbose : Bool
  function : String
  all : Bool
  graphPath : String
  statesPath : String
  files : List String
deriving DecidableEq, Repr

/-- The options given by flags.  The number of workers does not change any result. -/
def Options.ofParsed (parsed : Parsed) : Options :=
  let text (name : String) : String := ((parsed.1.lookup name).map valueText).getD ""
  let flag (name : String) : Bool := parsed.1.lookup name = some (.flag true)
  { configPath := text "config"
    verbose := flag "verbose"
    function := text "function"
    all := flag "all"
    graphPath := text "cfaout"
    statesPath := text "argout"
    files := parsed.2 }

def Options.adjust (options : Options) (config : Config) : Config :=
  { analysis := { config.analysis with
      function := if options.function = "" then config.analysis.function else options.function }
    options := { config.options with
      logLevel := if options.verbose then LogLevel.debug.rank else config.options.logLevel } }

section

variable {m : Type → Type} [Monad m]

abbrev Attempt (m : Type → Type) := ExceptT CommandError m

def orGiveUp (cause : ε → CommandError) (step : m (Except ε α)) : Attempt m α :=
  ExceptT.mk (do return (← step).mapError cause)

def loadConfig (env : Environment m) (options : Options) : Attempt m Config := do
  if options.configPath = "" then return options.adjust {}
  else
    let config ← orGiveUp (.load options.configPath) (Config.loadFile env.files options.configPath)
    return options.adjust config

def readSource (env : Environment m) (options : Options) : Attempt m (String × String) := do
  match options.files with
  | [path] => return (path, ← orGiveUp .unreadable (env.files.read path))
  | files => throw (.fileCount files.length)

def buildGraph (env : Environment m) (config : Config) (file text : String) :
    Attempt m FlowGraph := do
  let spec := config.analysis
  let function ← orGiveUp .source (pure (Source.readFunction file text spec spec.function))
  let (result, messages) := FlowGraph.build function.name function.body
  env.tell config.options messages
  orGiveUp (fun error => .verify (.build function.name error)) (pure result)

def verifyNamed (env : Environment m) (config : Config) (file text : String) :
    Attempt m Report := do
  orGiveUp (fun error => .verify (.config error)) (pure config.validate)
  let spec := config.analysis
  let function ← orGiveUp .source (pure (Source.readFunction file text spec spec.function))
  orGiveUp .verify (env.verifyProgram config function.name function.body)

def writeDrawing (env : Environment m) (drawing path text : String) : Attempt m Unit := do
  let note := Text.emphasize env.onTerminal .faint [.text ("Writing " ++ drawing ++ " in " ++ path)]
  env.err (Text.withoutValues (note ++ "\n"))
  orGiveUp (.unwritable drawing) (env.files.write path text)

def printReport (env : Environment m) (report : Report) : m Unit :=
  env.out (report.summary env.onTerminal ++ "\n" ++ report.witnessText)

def isUnsafe (report : Report) : Bool :=
  match report.verdict with
  | .targetFound .. => true
  | _ => false

def printResult (env : Environment m) (result : FunctionResult) : m Bool :=
  match result.outcome with
  | none => return false
  | some (.ok report) => do
      printReport env report
      return isUnsafe report
  | some (.error error) => do
      env.out (result.function.name ++ ": " ++
        Text.emphasize env.onTerminal .yellow [.text "ERROR"] ++ " (" ++
        Text.escape (error.message?.getD "") ++ ")\n")
      return false

def verifyEach (env : Environment m) (config : Config) (function : Source.Function) :
    m FunctionResult := do
  let spec := config.analysis
  let filter := LogFilter.ofSettings config.options.logLevel config.options.silenceWarn
  let result ← (do
    if function.body.callsFunction spec.targetFunction then
      return .ended function (← env.verify spec (filter.admits .trace) function.name function.body)
    else return .skipped spec.targetFunction function)
  env.tell config.options (← result.save env.files config.options)
  return result

def verifyFunctionsIn (env : Environment m) (config : Config) (functions : List Source.Function) :
    m Bool := do
  env.tell config.options [FunctionResult.startMessage functions.length]
  let results ← functions.mapM (verifyEach env config)
  env.tell config.options [FunctionResult.doneMessage]
  return (← results.mapM (printResult env)).any id

def verifyAll (env : Environment m) (config : Config) (file text : String) : Attempt m Bool := do
  let source ← orGiveUp .source (pure (SourceFile.read file text))
  match source.skipped? config.analysis with
  | some reasons =>
    env.tell config.options [.ofText .warn ("some functions are skipped: " ++ Text.escape reasons)]
  | none => pure ()
  orGiveUp (fun error => .verify (.config error)) (pure config.validate)
  ExceptT.lift (verifyFunctionsIn env config (source.lowered config.analysis))

def runTool (env : Environment m) (options : Options) : Tool → Attempt m Bool
  | .verify => do
      let config ← loadConfig env options
      let (file, text) ← readSource env options
      if options.all then verifyAll env config file text
      else
        let report ← verifyNamed env config file text
        ExceptT.lift (printReport env report)
        return isUnsafe report
  | .render => do
      if options.graphPath = "" && options.statesPath = "" then throw .nothingToRender
      let config ← loadConfig env options
      let (file, text) ← readSource env options
      if options.graphPath ≠ "" then
        let graph ← buildGraph env config file text
        writeDrawing env "control-flow automaton" options.graphPath graph.drawing.text
      if options.statesPath ≠ "" then
        let report ← verifyNamed env config file text
        env.err (report.summary env.onTerminal ++ "\n")
        writeDrawing env "abstract reachability graph" options.statesPath report.argDrawing.text
      return false
  | .cfa => do
      let config ← loadConfig env options
      let (file, text) ← readSource env options
      let graph ← buildGraph env config file text
      let heads := graph.loopHeads.map fun head => (graph.node head).text
      env.out (graph.text ++ "loop heads: [" ++ ", ".intercalate heads ++ "]\n")
      return false

def complain (env : Environment m) (error : CommandError) : m Unit := do
  env.err ("error: " ++ error.message ++ "\n")
  let advice := hint error.message
  if advice ≠ "" then env.err ("Hint: " ++ advice ++ "\n")

def runWith (env : Environment m) (tool : Tool) (args : List String) : m Nat := do
  match readFlags (tool.flags env.processors) [] args with
  | .error error =>
    match error.message? with
    | none =>
      env.err (tool.usage env.processors)
      return 0
    | some message =>
      env.err (message ++ "\n" ++ tool.usage env.processors)
      return 2
  | .ok parsed =>
    match ← (runTool env (.ofParsed parsed) tool).run with
    | .ok reachable => return if reachable then 1 else 0
    | .error error =>
      complain env error
      return 2

def run (env : Environment m) (args : List String) : m Nat :=
  match args with
  | [] => do
      env.err ("error: expected subcommand\n" ++ usage ++ "\n")
      return 2
  | command :: rest =>
    if command = "-help" || command = "--help" then do
      env.out (usage ++ "\n")
      return 0
    else if command = "-version" || command = "--version" then do
      env.out (version ++ "\n")
      return 0
    else
      match Tool.ofName? command with
      | some tool => runWith env tool rest
      | none => do
          env.err ("error: unexpected command: " ++ command ++ "\nusage:\n" ++ usage ++ "\n")
          return 2

end

end Reachability.CommandLine
