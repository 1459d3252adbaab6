import Mathlib
import Reachability.Proofs.Analysis.Links
import Reachability.Proofs.Bounds.Soundness
import Reachability.Proofs.Execution.Steps
import Reachability.Proofs.Exploration.Coverage

/-!
# Tuples simulate executions

A tuple describes a point of an execution if each of its states does: control is
at its location, its bounds admit the values of the variables, and a call to the
target has been noted.  Whatever step an execution takes from a described point,
some successor of the tuple describes where it arrives.
-/

namespace Reachability

open ComponentState

section Actions

variable {bounds : Bounds} {env : Env} {drawn : Nat} {inputs : Inputs} {target : String}
  {edge : Edge} {ready done : Machine}

theorem evalArgs_env {args : List Expr} {machine : Machine}
    (evaluated : machine.evalArgs inputs args = .ok done) : done.env = machine.env := by
  induction args generalizing machine with
  | nil =>
    cases evaluated
    rfl
  | cons arg rest induction =>
    unfold Machine.evalArgs at evaluated
    cases value : arg.eval inputs.draw machine.env machine.drawn with
    | error error => simp [value, bind, Except.bind] at evaluated
    | ok result =>
      simp only [value, bind, Except.bind] at evaluated
      have rest := induction evaluated
      exact rest

/-- An assumption that lets control pass refines the bounds, and stays satisfied. -/
theorem Bounds.Admits.passes (admits : bounds.Admits env) {cond : Expr} {truth : Bool} {next : Nat}
    {value : Int64} (evaluated : cond.eval inputs.draw env drawn = .ok (value, next))
    (agrees : (value != 0) = truth) :
    ∃ refined, bounds.assume (if truth then cond else cond.negation) = some refined ∧
      refined.Admits env := by
  cases truth with
  | true => exact admits.assume evaluated (bne_iff_ne.mp agrees)
  | false =>
    have zero : value = 0 := by simpa using agrees
    have negated : cond.negation.eval inputs.draw env drawn = .ok (1, next) := by
      simp [Expr.negation, Expr.eval, evaluated, zero, bind, Except.bind, truthWord]
    exact admits.assume negated (by decide)

theorem Bounds.Admits.after (admits : bounds.Admits env)
    (enabled : ({ env, drawn } : Machine).enabled inputs edge = .ok (true, ready))
    (performed : ready.perform inputs target edge.action = .ok done) :
    ∃ next, bounds.after edge.action = some next ∧ next.Admits done.env := by
  have sameEnv : ready.env = env := Machine.enabled_env enabled
  cases action : edge.action with
  | assign var value =>
    simp only [action, Machine.perform] at performed
    cases evaluated : value.eval inputs.draw ready.env ready.drawn with
    | error error => simp [evaluated, bind, Except.bind] at performed
    | ok result =>
      simp only [evaluated, bind, Except.bind, pure, Except.pure] at performed
      cases performed
      rw [sameEnv] at evaluated ⊢
      exact ⟨_, rfl, admits.set (mem_eval admits evaluated)⟩
  | assume cond truth =>
    simp only [action, Machine.perform] at performed
    cases performed
    simp only [Machine.enabled, action] at enabled
    cases evaluated : cond.eval inputs.draw env drawn with
    | error error => simp [evaluated, bind, Except.bind] at enabled
    | ok result =>
      simp only [evaluated, bind, Except.bind, pure, Except.pure] at enabled
      injection enabled with enabled
      rw [Prod.mk.injEq, beq_iff_eq] at enabled
      rw [sameEnv]
      exact admits.passes evaluated enabled.1
  | call result callee args =>
    simp only [action, Machine.perform] at performed
    cases evaluated : ready.evalArgs inputs args with
    | error error => simp [evaluated, bind, Except.bind] at performed
    | ok machine =>
      have argsEnv := (evalArgs_env evaluated).trans sameEnv
      simp only [evaluated, bind, Except.bind, pure, Except.pure] at performed
      split at performed
      · cases performed
        refine ⟨_, rfl, ?_⟩
        rw [argsEnv]
        split
        · exact admits
        · exact admits.narrow (Interval.mem_top _)
      · rename_i draws
        cases performed
        refine ⟨_, rfl, ?_⟩
        rw [if_neg (fun unused => draws (.inr unused)), argsEnv]
        exact admits.set (Interval.mem_top _)
  | blank description =>
    simp only [action, Machine.perform] at performed
    cases performed
    exact ⟨bounds, rfl, sameEnv ▸ admits⟩

end Actions

/-- A component state describes a point of an execution. -/
def ComponentState.Describes (point : Point) : ComponentState → Prop
  | .location node => node.id = point.node
  | .bounds known => known.Admits point.env
  | .call callee => point.called = true → callee.isSome = true

section Tuples

variable {graph : FlowGraph} {target : String} {inputs : Inputs} {components : List Component}

theorem exists_component_step {edge : Edge} {env : Env} {drawn : Nat}
    {ready after : Machine} {state : ComponentState}
    (enabled : ({ env, drawn } : Machine).enabled inputs edge = .ok (true, ready))
    (performed : ready.perform inputs target edge.action = .ok after)
    (describes : state.Describes { node := edge.source, env }) :
    ∃ next, Steps graph target edge state next ∧ next.Describes
      { node := edge.target, env := after.env, called := edge.action.calls target } := by
  cases state with
  | location node => exact ⟨_, .location describes, graph.node_id edge.target⟩
  | bounds bounds =>
    obtain ⟨next, passes, admits⟩ := Bounds.Admits.after describes enabled performed
    exact ⟨_, .bounds passes, admits⟩
  | call callee =>
    cases callee with
    | none =>
      refine ⟨_, .safe, ?_⟩
      intro calls
      simp [show edge.action.calls target = true from calls]
    | some callee => exact ⟨_, .called, fun _ => rfl⟩

theorem exists_tuple_step {Step : ComponentState → ComponentState → Prop}
    {Holds : ComponentState → Prop} {tuple : List ComponentState}
    (steps : ∀ state ∈ tuple, ∃ next, Step state next ∧ Holds next) :
    ∃ next, List.Forall₂ Step tuple next ∧ ∀ state ∈ next, Holds state := by
  induction tuple with
  | nil => exact ⟨[], .nil, by simp⟩
  | cons state tuple induction =>
    obtain ⟨first, step, holds⟩ := steps state List.mem_cons_self
    obtain ⟨rest, restSteps, restHold⟩ :=
      induction fun other member => steps other (List.mem_cons_of_mem _ member)
    exact ⟨first :: rest, .cons step restSteps, List.forall_mem_cons.mpr ⟨holds, restHold⟩⟩

theorem describes_of_covers {point : Point} {tuple reached : List ComponentState}
    (covers : List.Forall₂ Covers tuple reached)
    (describes : ∀ state ∈ tuple, state.Describes point) :
    ∀ state ∈ reached, state.Describes point := by
  induction covers with
  | nil => simp
  | cons here rest induction =>
    rw [List.forall_mem_cons] at describes ⊢
    refine ⟨?_, induction describes.2⟩
    cases here with
    | location same => exact same.symm.trans describes.1
    | bounds includes => exact Bounds.Admits.of_includes includes describes.1
    | call => exact describes.1

theorem describes_of_merges {point : Point} {new reached merged : List ComponentState}
    (merges : MergesAll new reached merged)
    (describes : ∀ state ∈ reached, state.Describes point) :
    ∀ state ∈ merged, state.Describes point := by
  induction merges with
  | nil => simp
  | cons here rest induction =>
    rw [List.forall_mem_cons] at describes ⊢
    refine ⟨?_, induction describes.2⟩
    cases here with
    | location | call => exact describes.1
    | bounds covers joined =>
      rcases joined with rfl | rfl
      · exact describes.1
      · exact Bounds.Admits.join_right describes.1

/-- A composition that follows locations simulates the executions with given inputs. -/
theorem composite_simulates (graph : FlowGraph) (located : .location ∈ components)
    (target : String) (inputs : Inputs) :
    (Component.joint graph target components).Simulates graph
      (List.Forall₂ Belongs components)
      (fun point => point = { node := graph.entry, env := inputs.initial })
      (Point.Steps graph target inputs)
      (fun point tuple => ∀ state ∈ tuple, state.Describes point) := by
  constructor
  · rintro point rfl state member
    simp only [Analysis.composite, List.map_map, List.mem_map] at member
    obtain ⟨component, _, rfl⟩ := member
    cases component with
    | location => exact graph.node_id graph.entry
    | value policy => exact Bounds.admits_unknown inputs.initial
    | calls =>
      intro called
      cases called
  · rintro point after tuple node belongs _ placed describes ⟨member, enabled, performed⟩
    rename_i edge _ _
    obtain ⟨next, steps, describesNext⟩ := exists_tuple_step fun state stateMember =>
      exists_component_step enabled performed (describes state stateMember)
    exact ⟨edge, leaves_of_steps located belongs placed member steps, next,
      (mem_successorTuples belongs).mpr steps, describesNext⟩
  · intro point tuple reached belongs reachedBelongs covers describes
    exact describes_of_covers ((coversTuple_iff belongs reachedBelongs).mp covers) describes
  · intro point new reached merged newBelongs reachedBelongs merges describes
    exact describes_of_merges (mergesAll_of_merge newBelongs reachedBelongs merges) describes

end Tuples

end Reachability
