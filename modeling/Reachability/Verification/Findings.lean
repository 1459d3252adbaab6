import Reachability.Config.Setting
import Reachability.Text.Digits
import Reachability.Verification.Functions

/-!
# Findings

The calls of the target function in a source file that cannot be proved
unreachable.  Functions that cannot be lowered are passed over.
-/

namespace Reachability

open Source (SourceFile Lowering)

structure Finding where
  pos : Nat
  message : String
deriving DecidableEq, Repr

def Report.finding? (target : String) (report : Report) : Option Finding :=
  match report.verdict with
  | .targetFound _ _ witness =>
    witness.getLast?.map fun call =>
      { pos := call.pos
        message := "call to " ++ target ++ " is reachable" ++
          (if report.confirmed then "" else " (possibly spurious)") ++ ": " ++
          "; ".intercalate (witness.map Edge.text) }
  | _ => none

/-- The findings in a file.  Comments are not looked at, so there are no labels. -/
def findings (spec : AnalysisSpec) (interruption : Option Interruption) (fuel : Nat)
    (file : SourceFile) : Except ConfigError (List Finding) := do
  let spec := { spec with components := knownComponents }
  ({ analysis := spec } : Config).validate
  return file.functions.filterMap fun decl => do
    let function ← (file.lower (Lowering.ofSpec spec []) decl).toOption
    if !function.body.callsFunction spec.targetFunction then none
    let report ←
      (Verification.run spec false interruption fuel function.name function.body).1.toOption
    report.finding? spec.targetFunction

def AnalysisSpec.setOption? (spec : AnalysisSpec) (name value : String) : Option AnalysisSpec :=
  match name with
  | "max-iterations" =>
    (Text.Digits.int64? value).bind fun number => spec.put name (.number number.toInt)
  | "target" => spec.put "target-function" (.text value)
  | "nondet-prefix" | "assume-function" | "waitlist" | "value-merge" | "timeout" =>
    spec.put name (.text value)
  | _ => none

end Reachability
