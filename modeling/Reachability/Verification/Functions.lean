import Reachability.Parallel
import Reachability.Source.Function
import Reachability.Text.Layout
import Reachability.Verification.Report

/-!
# Verification of all functions of a file

The functions are verified independently.  A function that does not call the
target function is skipped.
-/

namespace Reachability

open Source (Function SourceFile SourceError)

def Stmt.callsFunction (program : Stmt) (name : String) : Bool :=
  program.all.any fun stmt =>
    match stmt with
    | .call _ _ callee _ => callee = name
    | _ => false

structure FunctionResult where
  function : Function
  outcome : Option (Except VerifyError Report)
  messages : List LogMessage

namespace FunctionResult

def introduction (function : Function) (action rest : String) : LogMessage :=
  .ofText .debug (Text.padRight 10 action ++ "Func: " ++ Text.padRight 30 function.name ++ rest)

def skipped (target : String) (function : Function) : FunctionResult :=
  { function, outcome := none
    messages := [introduction function "Skipping" (" (no call to " ++ target ++ ")")] }

def ended (function : Function) (verification : Logged Report) : FunctionResult :=
  let failure := match verification.1 with
    | .ok _ => []
    | .error error =>
      [.ofText .error ("error while analyzing " ++ function.name ++ ":\n\t" ++
        error.message?.getD "" ++ "\n")]
  { function, outcome := verification.1
    messages := introduction function "Analyzing" " ..." :: verification.2 ++ failure }

end FunctionResult

def verifyFunction (spec : AnalysisSpec) (traced : Bool) (interruption : Option Interruption)
    (fuel : Nat) (function : Function) : FunctionResult :=
  if function.body.callsFunction spec.targetFunction then
    .ended function (Verification.run spec traced interruption fuel function.name function.body)
  else .skipped spec.targetFunction function

/-- Verify functions with a pool of workers; the results are in the order of the functions. -/
def verifyFunctions (config : Config) (traced : Bool) (interruption : Option Interruption)
    (fuel : Nat)
    (workers : Int) (functions : List Function) : Except ConfigError (List FunctionResult) := do
  config.validate
  return parallelMap workers (verifyFunction config.analysis traced interruption fuel) functions

namespace FunctionResult

def save {m : Type → Type u} [Monad m] (access : FileAccess m) (options : ReportOptions)
    (result : FunctionResult) : m (List LogMessage) := do
  match result.outcome with
  | some (.ok report) => return result.messages ++ (← report.save access options)
  | _ => return result.messages

def startMessage (count : Nat) : LogMessage :=
  .ofText .info ("Starting verification of " ++ toString count ++ " functions ...")

def doneMessage : LogMessage :=
  { level := .info, parts := [.text "Verification done (", .elapsed, .text ")."] }

def saveAll {m : Type → Type u} [Monad m] (access : FileAccess m) (options : ReportOptions)
    (results : List FunctionResult) : m (List LogMessage) := do
  let messages ← results.mapM (save access options)
  return [startMessage results.length] ++ messages.flatten ++ [doneMessage]

end FunctionResult

inductive SourceVerifyError where
  | source (error : SourceError)
  | verify (error : VerifyError)
deriving Repr

def verifySource (config : Config) (traced : Bool) (interruption : Option Interruption) (fuel : Nat)
    (file text : String) : Except SourceVerifyError Report × List LogMessage :=
  match config.validate with
  | .error error => (.error (.verify (.config error)), [])
  | .ok () =>
    match Source.readFunction file text config.analysis config.analysis.function with
    | .error error => (.error (.source error), [])
    | .ok function =>
      let (result, messages) :=
        Verification.run config.analysis traced interruption fuel function.name function.body
      (result.mapError .verify, messages)

end Reachability
