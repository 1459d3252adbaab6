import Reachability.Analysis.Component
import Reachability.Analysis.Composite
import Reachability.Config.Basic

/-!
# Composing analyses

The names of a specification stand for component analyses, which are composed
in the order given.
-/

namespace Reachability

structure UnknownPolicy where
  name : String
deriving DecidableEq, Repr

def UnknownPolicy.message (error : UnknownPolicy) : String :=
  "unknown merge policy " ++ Text.quote error.name ++ " for the value analysis"

def MergePolicy.ofName (name : String) : Except UnknownPolicy MergePolicy :=
  if name = "join" then .ok .join
  else if name = "sep" then .ok .separate
  else .error ⟨name⟩

inductive CompositionError where
  | unknownComponent (name : String)
  | unknownPolicy (policy : UnknownPolicy)
  | noComponents
deriving DecidableEq, Repr

def CompositionError.message : CompositionError → String
  | unknownComponent name => "invalid configuration: unknown component CPA " ++ Text.quote name
  | unknownPolicy policy => "invalid configuration: " ++ policy.message
  | noComponents => "invalid configuration: the list of component CPAs is empty"

namespace AnalysisSpec

def component (spec : AnalysisSpec) (graph : FlowGraph) (name : String) :
    Except CompositionError (Analysis ComponentState) :=
  if name = "location" then .ok (.locations graph)
  else if name = "value" then
    match MergePolicy.ofName spec.valueMerge with
    | .ok policy => .ok (.values policy)
    | .error error => .error (.unknownPolicy error)
  else if name = "unreach-call" then .ok (.targetCalls spec.targetFunction)
  else .error (.unknownComponent name)

def compose (spec : AnalysisSpec) (graph : FlowGraph) :
    Except CompositionError (Analysis (List ComponentState)) := do
  let components ← spec.components.mapM (spec.component graph)
  if components.isEmpty then throw .noComponents
  return .composite components

end AnalysisSpec

end Reachability
