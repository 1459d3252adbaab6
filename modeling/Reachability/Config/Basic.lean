import Reachability.Config.Duration
import Reachability.Text.Quoted

/-!
# Configurations

A configuration holds texts as they are written by users; `Config.validate`
finds the first one that makes no sense.
-/

namespace Reachability

def version : String := "v0.1.0"

/-- A reachability problem and the analyses used to solve it. -/
structure AnalysisSpec where
  components : List String := ["location", "value", "unreach-call"]
  targetFunction : String := "reach_error"
  waitlist : String := "dfs"
  valueMerge : String := "join"
  /-- A bound on the number of iterations, unless it is zero or less. -/
  maxIterations : Int := 0
  /-- A bound on the running time, unless it is empty. -/
  timeout : String := ""
  /-- The prefix of the names of functions that return arbitrary values. -/
  nondetPrefix : String := "__VERIFIER_nondet"
  /-- The function that restricts executions to those where its argument holds. -/
  assumeFunction : String := "__VERIFIER_assume"
  function : String := "main"
deriving DecidableEq, Repr, Inhabited

structure ReportOptions where
  reportsDir : String := ""
  reportCfa : Bool := false
  reportArg : Bool := false
  reportWitness : Bool := false
  logLevel : Int := 3
  silenceWarn : Bool := false
deriving DecidableEq, Repr, Inhabited

def ReportOptions.writesReports (options : ReportOptions) : Bool :=
  options.reportCfa || options.reportArg || options.reportWitness

structure Config where
  analysis : AnalysisSpec := {}
  options : ReportOptions := {}
deriving DecidableEq, Repr, Inhabited

def knownComponents : List String := ["location", "value", "unreach-call"]

def isPropertyComponent (name : String) : Bool := name == "unreach-call"

inductive ConfigError where
  | noComponents
  | unknownComponent (name : String)
  | repeatedComponent (name : String)
  | missingLocation
  | missingProperty
  | targetName (name : String)
  | nondetName (name : String)
  | assumeName (name : String)
  | unknownWaitlist (name : String)
  | unknownMerge (name : String)
  | badTimeout (text : String)
deriving DecidableEq, Repr

def ConfigError.reason : ConfigError → String
  | noComponents => "the list of component CPAs is empty"
  | unknownComponent name =>
    "unknown component CPA " ++ Text.quote name ++ " (known components: " ++
      ", ".intercalate knownComponents ++ ")"
  | repeatedComponent name => "component CPA " ++ Text.quote name ++ " appears more than once"
  | missingLocation => "the component CPAs must include \"location\""
  | missingProperty => "the component CPAs must include a property component (unreach-call)"
  | targetName name => "target function name " ++ Text.quote name ++ " is not a valid identifier"
  | nondetName name => "nondet prefix " ++ Text.quote name ++ " is not a valid identifier"
  | assumeName name => "assume function name " ++ Text.quote name ++ " is not a valid identifier"
  | unknownWaitlist name => "waitlist must be \"dfs\" or \"bfs\", not " ++ Text.quote name
  | unknownMerge name => "value-merge must be \"join\" or \"sep\", not " ++ Text.quote name
  | badTimeout text => "timeout " ++ Text.quote text ++ " is not a positive duration"

def ConfigError.message (error : ConfigError) : String := "invalid configuration: " ++ error.reason

def isIdentifier (name : String) : Bool :=
  match name.toList with
  | [] => false
  | first :: rest =>
    (Text.isLetter first || first = '_') &&
      rest.all fun char => Text.isLetter char || Text.isDigit char || char = '_'

namespace AnalysisSpec

def timeout? (spec : AnalysisSpec) : Option Nat :=
  match Duration.ofText? spec.timeout with
  | some duration => if 0 < duration then some duration.toNat else none
  | none => none

/-- The first name that is unknown or has occurred before, if `seen` are the names before
`names`. -/
def componentError? (seen : List String) : List String → Option ConfigError
  | [] => none
  | name :: names =>
    if !knownComponents.contains name then some (.unknownComponent name)
    else if seen.contains name then some (.repeatedComponent name)
    else componentError? (name :: seen) names

/-- The conditions in the order in which they are checked, each with the error that it rules out. -/
def requirements (spec : AnalysisSpec) : List (Bool × ConfigError) :=
  [(spec.components.contains "location", .missingLocation),
    (spec.components.any isPropertyComponent, .missingProperty),
    (isIdentifier spec.targetFunction, .targetName spec.targetFunction),
    (spec.nondetPrefix == "" || isIdentifier spec.nondetPrefix, .nondetName spec.nondetPrefix),
    (spec.assumeFunction == "" || isIdentifier spec.assumeFunction,
      .assumeName spec.assumeFunction),
    (["dfs", "bfs"].contains spec.waitlist, .unknownWaitlist spec.waitlist),
    (["join", "sep"].contains spec.valueMerge, .unknownMerge spec.valueMerge),
    (spec.timeout == "" || spec.timeout?.isSome, .badTimeout spec.timeout)]

def error? (spec : AnalysisSpec) : Option ConfigError :=
  if spec.components.isEmpty then some .noComponents
  else
    (componentError? [] spec.components).or
      ((spec.requirements.find? fun requirement => !requirement.1).map Prod.snd)

end AnalysisSpec

def Config.validate (config : Config) : Except ConfigError Unit :=
  match config.analysis.error? with
  | some error => .error error
  | none => .ok ()

end Reachability
