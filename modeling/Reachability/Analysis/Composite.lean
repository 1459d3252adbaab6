import Reachability.Analysis.Basic

/-!
# Composite analyses

A tuple has a successor for every combination of successors of its states, and
tuples are merged only if every merged state covers the new one.
-/

namespace Reachability.Analysis

variable {σ : Type u}

/-- Extend tuples by the successors of the states that remain.  Several successors take the places
of the tuples with copies of them. -/
def extendTuples (edge : Edge) :
    List (Analysis σ) → List σ → (tuples : List (List σ)) → List (List σ)
  | [], _, tuples => tuples
  | _ :: _, [], _ => []
  | component :: components, state :: states, tuples =>
    match component.transfer state edge with
    | [] => []
    | [next] => extendTuples edge components states (tuples.map (· ++ [next]))
    | nexts => extendTuples edge components states
        (tuples.flatMap fun tuple => nexts.map fun next => tuple ++ [next])

def successorTuples (components : List (Analysis σ)) (tuple : List σ) (edge : Edge) :
    List (List σ) :=
  extendTuples edge components tuple [[]]

/-- Merge tuples state by state.  There is no result if some merged state does not cover the new
one; the flag tells whether some merged state is not covered by the reached one. -/
def mergedTuple : List (Analysis σ) → List σ → List σ → Option (Bool × List σ)
  | component :: components, new :: news, reached :: reacheds =>
    let merged := component.merged new reached
    if component.covers new merged then
      (mergedTuple components news reacheds).map fun (changed, rest) =>
        ((component.merge new reached).isSome && !component.covers merged reached || changed,
          merged :: rest)
    else none
  | _, _, _ => some (false, [])

def coversTuple : List (Analysis σ) → List σ → List σ → Bool
  | component :: components, state :: states, reached :: reacheds =>
    component.covers state reached && coversTuple components states reacheds
  | _, _, _ => true

def slots (components : List (Analysis σ)) (tuple : List σ) : List (Analysis σ × σ) :=
  components.zip tuple

def composite (components : List (Analysis σ)) : Analysis (List σ) where
  initial node := components.map fun component => component.initial node
  transfer tuple edge := successorTuples components tuple edge
  merge new reached :=
    match mergedTuple components new reached with
    | some (true, merged) => some merged
    | _ => none
  covers state reached := coversTuple components state reached
  isTarget tuple := (slots components tuple).any fun (component, state) => component.isTarget state
  location tuple := (slots components tuple).findSome? fun (component, state) =>
    component.location state
  text tuple :=
    "(" ++ ", ".intercalate ((slots components tuple).map fun (component, state) =>
      component.text state) ++ ")"

end Reachability.Analysis
