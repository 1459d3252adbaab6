import Reachability.FlowGraph.Basic

/-!
# Analyses

An analysis is an abstract domain with the operators that an exploration needs.
-/

namespace Reachability

structure Analysis (σ : Type u) where
  initial : Node → σ
  /-- The successors of a state along an edge; there are none if the edge cannot be taken. -/
  transfer : σ → Edge → List σ
  /-- The state that takes the place of `reached` when `new` arrives there, if any. -/
  merge : (new reached : σ) → Option σ
  /-- Whether everything described by `state` is described by `reached`. -/
  covers : (state reached : σ) → Bool
  isTarget : σ → Bool
  location : σ → Option Node
  text : σ → String

namespace Analysis

variable {σ : Type u}

def stop (analysis : Analysis σ) (state : σ) (reached : List σ) : Bool :=
  reached.any (analysis.covers state)

def merged (analysis : Analysis σ) (new reached : σ) : σ :=
  (analysis.merge new reached).getD reached

end Analysis

end Reachability
