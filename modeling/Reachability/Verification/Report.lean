import Reachability.Arg.Drawing
import Reachability.Files.Access
import Reachability.FlowGraph.Drawing
import Reachability.Text.Layout
import Reachability.Text.Path
import Reachability.Verification.Verify

/-!
# Reports

The outcome of a verification as a line of text and as files.
-/

namespace Reachability.Report

def summary (onTerminal : Bool) (report : Report) : String :=
  let shown (emphasis : Text.Emphasis) (text : String) : String :=
    report.name ++ ": " ++ Text.emphasize onTerminal emphasis [.text text]
  match report.verdict with
  | .exhausted => shown .green "SAFE"
  | .targetFound _ _ witness =>
    shown .red "UNSAFE" ++ " (witness of " ++ toString witness.length ++ " edges, " ++
      (if report.confirmed then "confirmed" else "not confirmed") ++ ")"
  | .inconclusive reason => shown .yellow "UNKNOWN" ++ " (" ++ reason.message ++ ")"

/-- The witness, one edge per line, followed by the inputs of its execution.  The text is empty if
no target was found. -/
def witnessText (report : Report) : String :=
  match report.verdict with
  | .targetFound _ _ witness =>
    let edges := if witness.isEmpty then ""
      else Text.indent ("\n".intercalate (witness.map report.setting.graph.edgeLine)) 2 ++ "\n"
    let initial := report.inputs.initial.entries.map fun (name, value) =>
      name ++ " = " ++ toString value.toInt
    let nondet := report.inputs.nondet.map fun value => toString value.toInt
    "witness for " ++ report.name ++ ":\n" ++ edges ++
      (if initial.isEmpty then "" else "initial values: " ++ ", ".intercalate initial ++ "\n") ++
      (if nondet.isEmpty then "" else "nondet values: [" ++ " ".intercalate nondet ++ "]\n") ++
      "confirmed: " ++ toString report.confirmed ++ "\n"
  | _ => ""

def path (report : Report) : List Nat :=
  match report.verdict with
  | .targetFound _ path _ => path
  | _ => []

def argDrawing (report : Report) : Graph.Drawing :=
  report.search.arg.drawing report.setting.analysis report.setting.graph report.path

def files (options : ReportOptions) (report : Report) : List (String × String) :=
  let graph := if options.reportCfa then
    [(report.name ++ "-cfa.dot", report.setting.graph.drawing.text)] else []
  let states := if options.reportArg then
    [(report.name ++ "-arg.dot", report.argDrawing.text)] else []
  let witness := match report.verdict with
    | .targetFound .. => if options.reportWitness then
        [(report.name ++ "-witness.txt", report.witnessText)] else []
    | _ => []
  graph ++ states ++ witness

def writeFiles {m : Type → Type u} [Monad m] (access : FileAccess m) (directory name : String) :
    List (String × String) → m (List LogMessage)
  | [] => return []
  | (file, content) :: rest => do
      let path := Text.Path.join [directory, file]
      match ← access.write path content with
      | .error error =>
        return [.ofText .error ("could not write reports for " ++ name ++
          ": could not create report file: " ++ error.message)]
      | .ok () =>
        let messages ← writeFiles access directory name rest
        return .ofText .info ("Report written in " ++ path) :: messages

def save {m : Type → Type u} [Monad m] (access : FileAccess m) (options : ReportOptions)
    (report : Report) : m (List LogMessage) :=
  if !options.writesReports then return []
  else if options.reportsDir = "" then
    return [.ofText .warn
      ("No reports directory, reports for " ++ report.name ++ " not written")]
  else writeFiles access options.reportsDir report.name (report.files options)

end Reachability.Report
