import Reachability.Analysis.Component
import Reachability.Analysis.Composite

/-!
# States of a session

States of a session are told apart by their origin and not by what they look
like.
-/

namespace Reachability

/-- Where a state was created: the step of the session, the place among the components of a
composite analysis and the position among the successors. -/
abbrev Origin := List Nat

inductive SessionState where
  | component (origin : Origin) (state : ComponentState)
  | custom (origin : Origin) (kind text : String)
  | tuple (origin : Origin) (owner : Nat) (parts : List SessionState)
deriving Inhabited

/-- An analysis whose states are texts, defined by the user of a session.  A state without given
successors stays as it is. -/
structure CustomAnalysis where
  stateKind : String
  initial : String
  successors? : Edge → String → Option (List String)
  merge : (new reached : String) → Option String
  covers : (state reached : String) → Bool
  isTarget : String → Bool

namespace SessionState

def origin : SessionState → Origin
  | component origin _ | custom origin _ _ | tuple origin _ _ => origin

def kind : SessionState → String
  | component _ (.location _) => "*location.State"
  | component _ (.bounds _) => "*value.State"
  | component _ (.call _) => "*unreachcall.State"
  | custom _ kind _ => kind
  | tuple .. => "*cpa.CompositeState"

def component? : SessionState → Option ComponentState
  | component _ state => some state
  | _ => none

def customText? : SessionState → Option String
  | custom _ _ text => some text
  | _ => none

def parts : SessionState → List SessionState
  | tuple _ _ parts => parts
  | _ => []

def bounds? (state : SessionState) : Option Bounds := state.component?.bind ComponentState.bounds?

end SessionState

namespace Analysis

/-- New states get `fresh` as their origin; a successor that is kept has the origin of the state it
comes from. -/
def withOrigins (base : Analysis ComponentState) (fresh initialOrigin : Origin)
    (keeps : Edge → ComponentState → ComponentState → Bool) : Analysis SessionState where
  initial node := .component initialOrigin (base.initial node)
  transfer
    | .component origin state, edge => (base.transfer state edge).mapIdx fun index next =>
      .component (if keeps edge state next then origin else fresh ++ [index]) next
    | _, _ => []
  merge
    | .component _ new, .component _ reached => (base.merge new reached).map (.component fresh)
    | _, _ => none
  covers
    | .component _ state, .component _ reached => base.covers state reached
    | _, _ => false
  isTarget state := (state.component?.map base.isTarget).getD false
  location state := state.component?.bind base.location
  text state := (state.component?.map base.text).getD ""

def ofCustom (base : CustomAnalysis) (fresh : Origin) : Analysis SessionState where
  initial _ := .custom fresh base.stateKind base.initial
  transfer
    | .custom origin kind text, edge =>
      match base.successors? edge text with
      | none => [.custom origin kind text]
      | some texts => texts.mapIdx fun index next => .custom (fresh ++ [index]) kind next
    | _, _ => []
  merge
    | .custom _ kind new, .custom _ _ reached => (base.merge new reached).map (.custom fresh kind)
    | _, _ => none
  covers
    | .custom _ _ state, .custom _ _ reached => base.covers state reached
    | _, _ => false
  isTarget state := (state.customText?.map base.isTarget).getD false
  location _ := none
  text state := state.customText?.getD ""

def ofTuples (base : Analysis (List SessionState)) (owner : Nat) (fresh : Origin) :
    Analysis SessionState where
  initial node := .tuple fresh owner (base.initial node)
  transfer state edge := (base.transfer state.parts edge).mapIdx fun index parts =>
    .tuple (fresh ++ [index]) owner parts
  merge new reached := (base.merge new.parts reached.parts).map (.tuple fresh owner)
  covers state reached := base.covers state.parts reached.parts
  isTarget state := base.isTarget state.parts
  location state := base.location state.parts
  text state := base.text state.parts

end Analysis

end Reachability
