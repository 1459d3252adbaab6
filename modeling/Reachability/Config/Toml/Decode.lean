import Reachability.Config.Setting
import Reachability.Config.Toml.Document

/-!
# Configurations in TOML

The tables `analysis` and `options` hold the settings.  Keys are compared
without regard to case, and unknown keys are passed over.
-/

namespace Reachability.Toml

def foldCase (char : Char) : Char :=
  if char = '\u212a' then 'k' else if char = '\u017f' then 's' else char.toLower

def sameKey (first second : String) : Bool :=
  first.toList.map foldCase == second.toList.map foldCase

def Value.text? : Value → Option String
  | text found => some found
  | _ => none

def Node.setting? : Node → Option Setting.Value
  | .value (.text text) => some (.text text)
  | .value (.integer number) => some (.number number.toInt)
  | .value (.boolean flag) => some (.flag flag)
  | .value (.array items) => (items.mapM Value.text?).map .texts
  | _ => none

def applyTable (keys : List String) (put : α → String → Setting.Value → Option α) (start : α)
    (table : Table) : Option α :=
  table.foldlM (fun current (name, node) =>
    match keys.find? (sameKey name) with
    | some key => node.setting?.bind (put current key)
    | none => some current) start

def applySection (keys : List String) (put : α → String → Setting.Value → Option α) (start : α) :
    Node → Option α
  | .table entries => applyTable keys put start entries
  | _ => none

def decode (text : String) : Option Config := do
  (← tables text).foldlM (fun (config : Config) (name, node) => do
    if sameKey name "analysis" then
      let keys := config.analysis.settings.map Prod.fst
      return { config with analysis := ← applySection keys AnalysisSpec.put config.analysis node }
    else if sameKey name "options" then
      let keys := config.options.settings.map Prod.fst
      return { config with options := ← applySection keys ReportOptions.put config.options node }
    else return config) {}

end Reachability.Toml
