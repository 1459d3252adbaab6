import Mathlib
import Reachability.Proofs.Execution.Agreement
import Reachability.Proofs.FlowGraph.Meaning
import Reachability.Proofs.FlowGraph.Origins

/-!
# Where executions block

An execution blocks where no edge that leaves a node can be taken.  Without
assumptions in the program there are two such edges, with opposite assumptions
about one condition.  The condition is evaluated anew for the second edge, so the
execution blocks exactly if it draws other values then and changes from false to
true.  Conditions that draw nothing never do.
-/

namespace Reachability

def Stmt.AssumeFree (program : Stmt) : Prop := ∀ span cond, .assume span cond ∉ program.all

/-- A condition that does not hold, and that holds when it is evaluated once more. -/
def Expr.Wavers (cond : Expr) (inputs : Inputs) (machine : Machine) : Prop :=
  ∃ middle final word, cond.eval inputs.draw machine.env machine.drawn = .ok (0, middle) ∧
    cond.eval inputs.draw machine.env middle = .ok (word, final) ∧ word ≠ 0

theorem Expr.not_wavers {cond : Expr} {inputs : Inputs} {machine : Machine}
    (quiet : cond.draws = false) : ¬cond.Wavers inputs machine := by
  intro wavers
  obtain ⟨middle, final, word, fails, holds, nonzero⟩ := wavers
  have same : middle = machine.drawn := drawn_eq_of_eval quiet fails
  subst same
  rw [fails] at holds
  cases holds
  exact nonzero rfl

namespace Machine

variable {inputs : Inputs} {machine ready : Machine} {edge : Edge} {rest : List Edge} {cond : Expr}

theorem choose_cons_none (chooses : machine.choose inputs (edge :: rest) = .ok (none, ready)) :
    ∃ middle, machine.enabled inputs edge = .ok (false, middle) ∧
      middle.choose inputs rest = .ok (none, ready) := by
  cases enables : machine.enabled inputs edge with
  | error error =>
    simp only [choose, enables, bind, Except.bind] at chooses
    cases chooses
  | ok result =>
    obtain ⟨taken, middle⟩ := result
    cases taken with
    | true =>
      rw [choose_cons_true enables] at chooses
      cases chooses
    | false =>
      rw [choose_cons_false enables] at chooses
      exact ⟨middle, rfl, chooses⟩

/-- Neither of two edges with opposite assumptions is chosen if and only if the condition wavers. -/
theorem choose_fork_none {first second : Edge} (holds : first.action = .assume cond true)
    (fails : second.action = .assume cond false) :
    (∃ ready, machine.choose inputs [first, second] = .ok (none, ready)) ↔
      cond.Wavers inputs machine := by
  constructor
  · intro chooses
    obtain ⟨ready, chooses⟩ := chooses
    obtain ⟨middle, firstEnables, chooses⟩ := choose_cons_none chooses
    obtain ⟨final, secondEnables, _⟩ := choose_cons_none chooses
    obtain ⟨value, drawn, firstValue, isFalse, rfl⟩ := enabled_assume holds firstEnables
    obtain ⟨word, last, secondValue, isTrue, _⟩ := enabled_assume fails secondEnables
    have zero : value = 0 := by simpa using isFalse
    subst zero
    exact ⟨drawn, last, word, firstValue, secondValue, by simpa using isTrue⟩
  · intro wavers
    obtain ⟨middle, final, word, isZero, isWord, nonzero⟩ := wavers
    have first := enabled_assume_of holds isZero
    have second := enabled_assume_of fails isWord
    rw [bne_self_eq_false] at first
    rw [bne_iff_ne.mpr nonzero] at second
    exact ⟨_, (choose_cons_false first _).trans (choose_cons_false second _)⟩

end Machine

namespace FlowGraph

variable {name : String} {program : Stmt} {graph : FlowGraph} {target : String} {inputs : Inputs}
  {node : Nat} {machine : Machine}

theorem exists_twin (built : (build name program).1 = .ok graph) (free : program.AssumeFree)
    {edge : Edge} (member : edge ∈ graph.edges) {cond : Expr} {truth : Bool}
    (assumes : edge.action = .assume cond truth) :
    ∃ twin ∈ graph.edges, twin.source = edge.source ∧ twin.action = .assume cond (!truth) := by
  cases build_origin built edge member with
  | blank isBlank =>
    rw [assumes] at isBlank
    cases isBlank
  | @action stmt isLive performs =>
    rw [assumes] at performs
    cases stmt with
    | assume span other => exact absurd (program.live_subset_all isLive) (free span other)
    | assign | call | skip => cases Option.some.inj performs
    | _ => cases performs
  | condition _ _ other present alike opposite =>
    rw [assumes] at other
    cases other
    exact ⟨_, present, alike, opposite⟩

/-- The edges that leave a node of such a graph: a single one can always be taken. -/
theorem branches_or_passes (built : (build name program).1 = .ok graph) (free : program.AssumeFree)
    (leaves : graph.outgoing node ≠ []) :
    (∃ cond yes no, graph.Branches node cond yes no) ∨
      ∃ edge, graph.outgoing node = [edge] ∧ ∀ cond truth, edge.action ≠ .assume cond truth := by
  have branching := build_branching built node
  cases shape : graph.outgoing node with
  | nil => exact absurd shape leaves
  | cons first rest =>
    rw [shape] at branching
    cases branching with
    | single =>
      refine .inr ⟨first, rfl, ?_⟩
      intro cond truth assumes
      have isFirst : first ∈ graph.outgoing node := by simp [shape]
      obtain ⟨member, source⟩ := mem_outgoing.mp isFirst
      obtain ⟨twin, present, alike, opposite⟩ := exists_twin built free member assumes
      have isTwin : twin ∈ graph.outgoing node :=
        mem_outgoing.mpr ⟨present, alike.trans source⟩
      rw [shape, List.mem_singleton] at isTwin
      rw [isTwin, assumes] at opposite
      simp at opposite
    | fork holds fails =>
      exact .inl ⟨_, _, _, first, _, shape, ⟨holds, rfl⟩, fails, rfl⟩

theorem react_eq_blocked_iff :
    (∃ env, graph.react target inputs node machine = .halts .blocked env) ↔
      graph.outgoing node ≠ [] ∧
        ∃ ready, machine.choose inputs (graph.outgoing node) = .ok (none, ready) := by
  unfold react
  by_cases isExit : graph.outgoing node = []
  · simp [isExit]
  · rw [if_neg isExit]
    cases machine.choose inputs (graph.outgoing node) with
    | error error => simp
    | ok choice =>
      obtain ⟨chosen, ready⟩ := choice
      cases chosen with
      | none => simp [isExit]
      | some edge =>
        simp only [ne_eq, Except.ok.injEq, Prod.mk.injEq, reduceCtorEq, false_and, exists_false,
          and_false, iff_false, not_exists]
        intro env
        cases ready.perform inputs target edge.action with
        | error error => simp
        | ok after =>
          dsimp only
          split
          · simp
          · simp

theorem react_blocked_iff (built : (build name program).1 = .ok graph) (free : program.AssumeFree) :
    (∃ env, graph.react target inputs node machine = .halts .blocked env) ↔
      ∃ cond yes no, graph.Branches node cond yes no ∧ cond.Wavers inputs machine := by
  rw [react_eq_blocked_iff]
  constructor
  · intro blocks
    obtain ⟨leaves, ready, chooses⟩ := blocks
    rcases branches_or_passes built free leaves with ⟨cond, yes, no, branches⟩
      | ⟨edge, alone, passes⟩
    · refine ⟨cond, yes, no, branches, ?_⟩
      obtain ⟨first, second, shape, ⟨holds, _⟩, fails, _⟩ := branches
      rw [shape] at chooses
      exact (Machine.choose_fork_none holds fails).mp ⟨ready, chooses⟩
    · rw [alone, Machine.choose_cons_true (Machine.enabled_of_not_assume passes)] at chooses
      cases chooses
  · intro wavers
    obtain ⟨cond, yes, no, ⟨first, second, shape, ⟨holds, _⟩, fails, _⟩, wavers⟩ := wavers
    refine ⟨outgoing_ne_nil shape, ?_⟩
    rw [shape]
    exact (Machine.choose_fork_none holds fails).mpr wavers

/-- At a branch the execution fails, goes one of the two ways, or blocks because the condition
wavers. -/
theorem react_branch {cond : Expr} {yes no : Nat} (branches : graph.Branches node cond yes no) :
    (∃ error, graph.react target inputs node machine = .halts (.failed error) machine.env) ∨
      (∃ next after, (next = yes ∨ next = no) ∧
        graph.Advances target inputs (node, machine) (next, after)) ∨
      cond.Wavers inputs machine := by
  obtain ⟨first, second, shape, ⟨holds, rfl⟩, fails, rfl⟩ := branches
  have leaves := outgoing_ne_nil shape
  cases chooses : machine.choose inputs [first, second] with
  | error error =>
    refine .inl ⟨error, ?_⟩
    simp [react, shape, chooses]
  | ok choice =>
    obtain ⟨chosen, ready⟩ := choice
    cases chosen with
    | none =>
      refine .inr (.inr ?_)
      exact (Machine.choose_fork_none holds fails).mp ⟨ready, chooses⟩
    | some edge =>
      have member := ((Machine.choose_ok chooses).2 edge rfl).1
      have assumes : ∃ truth, edge.action = .assume cond truth := by
        rcases List.mem_cons.mp member with rfl | member
        · exact ⟨true, holds⟩
        · rw [List.mem_singleton] at member
          exact ⟨false, member ▸ fails⟩
      obtain ⟨truth, assumes⟩ := assumes
      refine .inr (.inl ⟨edge.target, ready, ?_, ?_⟩)
      · rcases List.mem_cons.mp member with rfl | member
        · exact .inl rfl
        · rw [List.mem_singleton] at member
          exact .inr (congrArg Edge.target member)
      · simp [Advances, react, shape, chooses, assumes, Machine.perform, Action.calls]

theorem FinishesIn.exists_halt {finish : Finish} {env : Env} {steps : Nat}
    (finishes : graph.FinishesIn target inputs finish env steps node machine) :
    ∃ place, graph.Reaches target inputs (node, machine) place ∧
      graph.react target inputs place.1 place.2 = .halts finish env := by
  induction finishes with
  | halt halts => exact ⟨_, .refl, halts⟩
  | @move steps node next machine after moves _ induction =>
    have advances : graph.Advances target inputs (node, machine) (next, after) := moves
    obtain ⟨place, reaches, halts⟩ := induction
    exact ⟨place, .head advances reaches, halts⟩

end FlowGraph

theorem Ending.finish?_eq_blocked {ending : Ending} :
    ending.finish? = some .blocked ↔ ending = .blocked := by
  cases ending with
  | failed fault => cases fault <;> simp [Ending.finish?]
  | _ => simp [Ending.finish?]

namespace FlowGraph

variable {name : String} {program : Stmt} {graph : FlowGraph} {target : String} {inputs : Inputs}

theorem exists_blocked_iff :
    (∃ limit, (graph.run target inputs limit).ending = .blocked) ↔
      ∃ node machine, graph.Reaches target inputs (graph.entry, .start inputs) (node, machine) ∧
        ∃ env, graph.react target inputs node machine = .halts .blocked env := by
  constructor
  · intro blocks
    obtain ⟨limit, blocked⟩ := blocks
    obtain ⟨steps, finishes⟩ :=
      exists_run_iff.mp ⟨limit, Ending.finish?_eq_blocked.mpr blocked, rfl⟩
    obtain ⟨place, reaches, halts⟩ := finishes.exists_halt
    exact ⟨place.1, place.2, reaches, _, halts⟩
  · intro halts
    obtain ⟨node, machine, reaches, env, halts⟩ := halts
    obtain ⟨limit, blocked, _⟩ := exists_run_iff.mpr (exists_finishesIn_of_reaches reaches halts)
    exact ⟨limit, Ending.finish?_eq_blocked.mp blocked⟩

/-- Executions of a program without assumptions.  At every branch they fail, take one of the two
edges, or find that the condition wavers.  They block exactly if they get to a condition that
wavers, and so never if no condition of a conditional or a loop draws a value. -/
theorem blocked_iff_wavers (built : (build name program).1 = .ok graph) (free : program.AssumeFree)
    (target : String) (inputs : Inputs) :
    (∀ node machine cond yes no, graph.Branches node cond yes no →
      (∃ error, graph.react target inputs node machine = .halts (.failed error) machine.env) ∨
        (∃ next after, (next = yes ∨ next = no) ∧
          graph.Advances target inputs (node, machine) (next, after)) ∨
        cond.Wavers inputs machine) ∧
    ((∃ limit, (graph.run target inputs limit).ending = .blocked) ↔
      ∃ node machine cond yes no,
        graph.Reaches target inputs (graph.entry, .start inputs) (node, machine) ∧
        graph.Branches node cond yes no ∧ cond.Wavers inputs machine) ∧
    (program.Steady → ∀ limit, (graph.run target inputs limit).ending ≠ .blocked) := by
  have wavering : (∃ limit, (graph.run target inputs limit).ending = .blocked) ↔
      ∃ node machine cond yes no,
        graph.Reaches target inputs (graph.entry, .start inputs) (node, machine) ∧
        graph.Branches node cond yes no ∧ cond.Wavers inputs machine := by
    simp only [exists_blocked_iff, react_blocked_iff built free, exists_and_left]
  refine ⟨fun node machine cond yes no => react_branch, wavering, ?_⟩
  intro steady limit blocked
  obtain ⟨node, machine, cond, yes, no, _, branches, wavers⟩ := wavering.mp ⟨limit, blocked⟩
  obtain ⟨first, second, shape, _, fails, _⟩ := branches
  have leaving : second ∈ graph.outgoing node := by simp [shape]
  have quiet := build_quiet built steady second (FlowGraph.mem_outgoing.mp leaving).1 cond fails
  exact Expr.not_wavers quiet wavers

/-- A value is drawn and lowered by values that are drawn later. -/
def drawsDown : Stmt :=
  .block {} [
    .assign {} "x" (.nondet 0 ""),
    .loop {} (.binary 0 (.compare .lt) (.literal 0 0) (.var 0 "x"))
      (.assign {} "x" (.binary 0 (.arith .sub) (.var 0 "x") (.nondet 0 ""))),
    .branch {} (.binary 0 (.compare .eq) (.var 0 "x") (.literal 0 0))
      (.call {} "" "reach_error" []) .missing]

theorem blocked_iff_wavers_drawsDown : ∃ graph : FlowGraph,
    (build "draws" drawsDown).1 = .ok graph ∧ drawsDown.AssumeFree ∧ drawsDown.Steady ∧
      (graph.run "reach_error" { nondet := [5, 2, 3] } 20).ending = .reached ∧
      ∀ inputs limit, (graph.run "reach_error" inputs limit).ending ≠ .blocked := by
  have built : (build "draws" drawsDown).1 = .ok (lowered "draws" drawsDown) :=
    build_ok_iff.mpr ⟨by cbv, rfl, by cbv⟩
  have free : drawsDown.AssumeFree := by
    intro span cond
    simp [drawsDown, Stmt.all, Stmt.nested, Stmt.nestedAll]
  have steady : drawsDown.Steady := by
    unfold Stmt.Steady
    decide
  refine ⟨_, built, free, steady, by cbv, ?_⟩
  intro inputs
  exact (blocked_iff_wavers built free "reach_error" inputs).2.2 steady

/-- A condition that asks for a value. -/
def asksOnce : Stmt := .branch {} (.nondet 0 "") (.skip {}) (.skip {})

/-- The condition is false with the first value and true with the second one, and neither edge is
taken. -/
theorem asksOnce_blocks : asksOnce.AssumeFree ∧ ∃ graph : FlowGraph,
    (build "asks" asksOnce).1 = .ok graph ∧
      (graph.run "reach_error" { nondet := [0, 1] } 10).ending = .blocked := by
  constructor
  · intro span cond
    simp [asksOnce, Stmt.all, Stmt.nested]
  · exact ⟨lowered "asks" asksOnce, build_ok_iff.mpr ⟨by cbv, rfl, by cbv⟩, by cbv⟩

end FlowGraph

end Reachability
