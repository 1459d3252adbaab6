import Reachability.Arg.Witness
import Reachability.Exploration.Reached
import Reachability.Log

/-!
# Exploration

The worklist algorithm.  One `step` is an iteration; `explore` repeats it, and
whoever calls it decides when to give up.
-/

namespace Reachability

structure Stats where
  iterations : Nat := 0
  successors : Nat := 0
  stopped : Nat := 0
  merges : Nat := 0
  maxWaiting : Nat := 0
deriving DecidableEq, Repr

inductive Interruption where
  | cancelled
  | deadlineExceeded
deriving DecidableEq, Repr

inductive Inconclusive where
  | iterationBound (bound : Nat)
  | interrupted (cause : Interruption)
deriving DecidableEq, Repr

def Inconclusive.message : Inconclusive → String
  | iterationBound bound =>
    "analysis inconclusive: reached the maximum number of iterations (" ++ toString bound ++ ")"
  | interrupted .cancelled => "analysis inconclusive: context canceled"
  | interrupted .deadlineExceeded => "analysis inconclusive: context deadline exceeded"

inductive Verdict where
  | targetFound (target : Nat) (path : List Nat) (witness : List Edge)
  | exhausted
  | inconclusive (reason : Inconclusive)
deriving DecidableEq, Repr

def Verdict.status : Verdict → String
  | targetFound .. => "target found"
  | exhausted => "exhausted"
  | inconclusive _ => "inconclusive"

/-- What does not change during an exploration.  A bound of zero or less is no bound. -/
structure Setting (σ : Type u) where
  graph : FlowGraph
  analysis : Analysis σ
  maxIterations : Int := 0
  traced : Bool := false

structure Search (σ : Type u) where
  arg : Arg σ
  reached : Reached Nat
  stats : Stats := {}
  log : List LogMessage := []

inductive Progress (σ : Type u) where
  | continued (search : Search σ)
  | finished (search : Search σ) (verdict : Verdict)
  | failed (search : Search σ) (error : WitnessError)

namespace Search

variable {σ : Type u}

def entry (setting : Setting σ) (search : Search σ) (key : Nat) : ReachedState Nat :=
  { key, id := search.arg.id key,
    location := (search.arg.location setting.analysis key).map Node.id }

def report (search : Search σ) (message : String) : Search σ :=
  { search with log := .ofText .trace message :: search.log }

/-- The result of a merge replaces the reached state and waits; it is added to `merged`. -/
def mergeInto (setting : Setting σ) (successor : Nat) (merging : List Nat × Search σ)
    (old : ReachedState Nat) : List Nat × Search σ :=
  let (merged, search) := merging
  match search.arg.merge setting.analysis successor old.key with
  | (none, arg) => (merged, { search with arg })
  | (some key, arg) =>
    let search := { search with arg, stats.merges := search.stats.merges + 1 }
    let search := { search with reached := search.reached.replace old (search.entry setting key) }
    let search :=
      if setting.traced then
        search.report ("merged " ++ search.arg.text setting.analysis successor ++ " into " ++
          search.arg.text setting.analysis key ++ "\n")
      else search
    (merged ++ [key], search)

/-- Insert a successor, unless reached states at its location cover it.  Those that merge with it
are replaced first. -/
def insert (setting : Setting σ) (search : Search σ) (successor : Nat) : Search σ :=
  let entry := search.entry setting successor
  let atLocation := search.reached.statesAt entry.location
  if search.arg.stop setting.analysis successor (atLocation.map ReachedState.key) then
    { search with
      arg := search.arg.discard successor
      stats.stopped := search.stats.stopped + 1 }
  else
    let (merged, search) := atLocation.foldl (mergeInto setting successor) ([], search)
    if !merged.isEmpty && search.arg.stop setting.analysis successor merged then
      { search with arg := search.arg.discard successor }
    else { search with reached := search.reached.add entry }

def expandAlong (setting : Setting σ) (key : Nat) (search : Search σ) (edge : Edge) : Search σ :=
  let (successors, arg) := search.arg.transfer setting.analysis key edge
  successors.foldl (fun search successor =>
    { search with stats.successors := search.stats.successors + 1 }.insert setting successor)
    { search with arg }

def expand (setting : Setting σ) (key : Nat) (search : Search σ) : Search σ :=
  let edges := ((search.arg.location setting.analysis key).map fun node =>
    setting.graph.outgoing node.id).getD []
  let search := edges.foldl (expandAlong setting key) search
  { search with
    stats.maxWaiting := max search.stats.maxWaiting search.reached.waitingCount }

def visit (setting : Setting σ) (key : Nat) (search : Search σ) : Progress σ :=
  if search.arg.isTarget setting.analysis key then
    match search.arg.witnessPath key with
    | .error error => .failed search error
    | .ok path =>
      match search.arg.pathEdges setting.analysis setting.graph path with
      | .error error => .failed search error
      | .ok witness => .finished search (.targetFound key path witness)
  else .continued (search.expand setting key)

def atBound (setting : Setting σ) (search : Search σ) : Bool :=
  0 < setting.maxIterations && setting.maxIterations ≤ search.stats.iterations

def step (setting : Setting σ) (interruption : Option Interruption) (search : Search σ) :
    Progress σ :=
  if !search.reached.hasWaiting then .finished search .exhausted
  else if search.atBound setting then
    .finished search (.inconclusive (.iterationBound setting.maxIterations.toNat))
  else match interruption with
    | some cause => .finished search (.inconclusive (.interrupted cause))
    | none =>
      let (next, reached) := search.reached.pop
      let search := { search with reached, stats.iterations := search.stats.iterations + 1 }
      match next with
      | none => .continued search
      | some state =>
        let search :=
          if setting.traced then
            search.report ("pop " ++ search.arg.text setting.analysis state.key ++ " (" ++
              toString reached.waitingCount ++ " waiting)\n")
          else search
        search.visit setting state.key

def explore (setting : Setting σ) (interruption : Option Interruption) :
    Nat → Search σ → Progress σ
  | 0, search => .continued search
  | fuel + 1, search =>
    match search.step setting interruption with
    | .continued search => explore setting interruption fuel search
    | progress => progress

structure Untracked where
  state : String
  graph : String
deriving DecidableEq, Repr

def Untracked.message (error : Untracked) : String :=
  "the initial state " ++ error.state ++ " does not track the location of " ++ error.graph

def start (setting : Setting σ) (order : WaitOrder) (arg : Arg σ) :
    Except Untracked (Search σ) × Arg σ :=
  let (key, arg) := arg.initial setting.analysis (setting.graph.node setting.graph.entry)
  if (arg.location setting.analysis key).map Node.id = some setting.graph.entry then
    let search : Search σ := { arg, reached := .empty order }
    (.ok { search with reached := search.reached.add (search.entry setting key) }, arg)
  else (.error ⟨arg.text setting.analysis key, setting.graph.name⟩, arg)

def summary (setting : Setting σ) (search : Search σ) (verdict : Verdict) : LogMessage :=
  { level := .debug
    parts := [
      .text (setting.graph.name ++ ": " ++ verdict.status ++ " after " ++
        toString search.stats.iterations ++ " iterations, " ++ toString search.reached.size ++
        " reached states ("),
      .elapsed,
      .text ")\n"] }

end Search

end Reachability
