import Reachability.Config.Basic

/-!
# Settings by key

Files and options refer to the parts of a configuration by their keys.
-/

namespace Reachability

inductive Setting.Value where
  | text (text : String)
  | texts (texts : List String)
  | number (number : Int)
  | flag (flag : Bool)
deriving DecidableEq, Repr

/-- There is no result for an unknown key or a value of the wrong kind. -/
def AnalysisSpec.put (spec : AnalysisSpec) : String → Setting.Value → Option AnalysisSpec
  | "components", .texts names => some { spec with components := names }
  | "target-function", .text name => some { spec with targetFunction := name }
  | "waitlist", .text name => some { spec with waitlist := name }
  | "value-merge", .text name => some { spec with valueMerge := name }
  | "max-iterations", .number bound => some { spec with maxIterations := bound }
  | "timeout", .text bound => some { spec with timeout := bound }
  | "nondet-prefix", .text name => some { spec with nondetPrefix := name }
  | "assume-function", .text name => some { spec with assumeFunction := name }
  | "function", .text name => some { spec with function := name }
  | _, _ => none

def ReportOptions.put (options : ReportOptions) : String → Setting.Value → Option ReportOptions
  | "reports-dir", .text path => some { options with reportsDir := path }
  | "report-cfa", .flag flag => some { options with reportCfa := flag }
  | "report-arg", .flag flag => some { options with reportArg := flag }
  | "report-witness", .flag flag => some { options with reportWitness := flag }
  | "log-level", .number level => some { options with logLevel := level }
  | "silence-warn", .flag flag => some { options with silenceWarn := flag }
  | _, _ => none

def AnalysisSpec.settings (spec : AnalysisSpec) : List (String × Setting.Value) := [
  ("components", .texts spec.components),
  ("target-function", .text spec.targetFunction),
  ("waitlist", .text spec.waitlist),
  ("value-merge", .text spec.valueMerge),
  ("max-iterations", .number spec.maxIterations),
  ("timeout", .text spec.timeout),
  ("nondet-prefix", .text spec.nondetPrefix),
  ("assume-function", .text spec.assumeFunction),
  ("function", .text spec.function)]

def ReportOptions.settings (options : ReportOptions) : List (String × Setting.Value) := [
  ("reports-dir", .text options.reportsDir),
  ("report-cfa", .flag options.reportCfa),
  ("report-arg", .flag options.reportArg),
  ("report-witness", .flag options.reportWitness),
  ("log-level", .number options.logLevel),
  ("silence-warn", .flag options.silenceWarn)]

end Reachability
