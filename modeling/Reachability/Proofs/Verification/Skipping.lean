import Mathlib
import Reachability.Proofs.Execution.Steps
import Reachability.Proofs.FlowGraph.Origins
import Reachability.Proofs.Verification.Witness
import Reachability.Verification.Functions

/-!
# Skipped functions

A function in which no call to the target stands is skipped.  Every edge that
calls the target performs such a call, so for a skipped function no exploration
finds the target and no execution of its graph reaches it.
-/

namespace Reachability

/-- A statement is the whole program or stands somewhere inside it. -/
inductive Stmt.Inside (part : Stmt) : Stmt → Prop where
  | here : Inside part part
  | block {span : Span} {body : List Stmt} {stmt : Stmt} :
      stmt ∈ body → Inside part stmt → Inside part (.block span body)
  | yes {span : Span} {cond : Expr} {yes no : Stmt} :
      Inside part yes → Inside part (.branch span cond yes no)
  | no {span : Span} {cond : Expr} {yes no : Stmt} :
      Inside part no → Inside part (.branch span cond yes no)
  | loop {span : Span} {cond : Expr} {body : Stmt} :
      Inside part body → Inside part (.loop span cond body)

namespace Stmt

variable {part : Stmt}

mutual

theorem inside_of_mem_all (program : Stmt) (member : part ∈ program.all) : part.Inside program := by
  cases program with
  | block span body =>
    simp only [all, nested, if_true] at member
    rcases List.mem_cons.mp member with rfl | inner
    · exact .here
    · obtain ⟨stmt, listed, inside⟩ := inside_of_mem_nestedAll body inner
      exact .block listed inside
  | branch span cond yes no =>
    simp only [all, nested, if_true] at member
    rcases List.mem_cons.mp member with rfl | inner
    · exact .here
    · rcases List.mem_append.mp inner with inYes | inNo
      · exact .yes (inside_of_mem_all yes inYes)
      · exact .no (inside_of_mem_all no inNo)
  | loop span cond body =>
    simp only [all, nested, if_true] at member
    rcases List.mem_cons.mp member with rfl | inner
    · exact .here
    · exact .loop (inside_of_mem_all body inner)
  | missing => cases member
  | _ =>
    cases List.mem_singleton.mp member
    exact .here

theorem inside_of_mem_nestedAll (body : List Stmt)
    (member : part ∈ nestedAll (fun _ => true) body) : ∃ stmt ∈ body, part.Inside stmt := by
  cases body with
  | nil => cases member
  | cons first rest =>
    rw [nestedAll] at member
    rcases List.mem_append.mp member with inFirst | later
    · exact ⟨first, List.mem_cons_self, inside_of_mem_all first inFirst⟩
    · obtain ⟨stmt, listed, inside⟩ := inside_of_mem_nestedAll rest later
      exact ⟨stmt, List.mem_cons_of_mem _ listed, inside⟩

end

theorem nested_subset_nestedAll {stmt : Stmt} {body : List Stmt} (listed : stmt ∈ body) :
    stmt.all ⊆ nestedAll (fun _ => true) body := by
  induction body with
  | nil => cases listed
  | cons first rest induction =>
    rw [nestedAll]
    rcases List.mem_cons.mp listed with rfl | later
    · exact List.subset_append_left _ _
    · exact List.subset_append_of_subset_right _ (induction later)

theorem mem_all_iff {program : Stmt} (present : part ≠ .missing) :
    part ∈ program.all ↔ part.Inside program := by
  constructor
  · exact inside_of_mem_all program
  · intro inside
    induction inside with
    | here =>
      cases part with
      | missing => exact absurd rfl present
      | block | branch | loop =>
        rw [all, nested]
        exact List.mem_cons_self
      | _ => exact List.mem_singleton_self _
    | block listed _ induction =>
      simp only [all, nested, if_true]
      exact List.mem_cons_of_mem _ (nested_subset_nestedAll listed induction)
    | yes _ induction =>
      simp only [all, nested, if_true]
      exact List.mem_cons_of_mem _ (List.mem_append_left _ induction)
    | no _ induction =>
      simp only [all, nested, if_true]
      exact List.mem_cons_of_mem _ (List.mem_append_right _ induction)
    | loop _ induction =>
      simp only [all, nested, if_true]
      exact List.mem_cons_of_mem _ induction

theorem callsFunction_iff {program : Stmt} {name : String} :
    program.callsFunction name = true ↔
      ∃ span result args, (call span result name args).Inside program := by
  unfold callsFunction
  rw [List.any_eq_true]
  constructor
  · rintro ⟨stmt, visited, calls⟩
    cases stmt with
    | call span result callee args =>
      cases of_decide_eq_true calls
      exact ⟨span, result, args, (mem_all_iff (by simp)).mp visited⟩
    | _ => cases calls
  · rintro ⟨span, result, args, inside⟩
    exact ⟨_, (mem_all_iff (by simp)).mpr inside, decide_eq_true rfl⟩

end Stmt

namespace FlowGraph

variable {name target : String} {program : Stmt} {graph : FlowGraph}

theorem build_calls (built : (build name program).1 = .ok graph) {edge : Edge}
    (member : edge ∈ graph.edges) (calls : edge.action.calls target = true) :
    program.callsFunction target = true := by
  cases build_origin built edge member with
  | blank isBlank =>
    rw [isBlank] at calls
    cases calls
  | @action stmt isLive performs =>
    cases stmt with
    | call span result callee args =>
      rw [← Option.some.inj performs] at calls
      rw [Action.calls, beq_iff_eq] at calls
      subst calls
      have visited := Stmt.live_subset_all program isLive
      exact List.any_eq_true.mpr ⟨_, visited, decide_eq_true rfl⟩
    | assign | assume | skip =>
      rw [← Option.some.inj performs] at calls
      cases calls
    | _ => cases performs
  | condition _ _ assumes =>
    rw [assumes] at calls
    cases calls

theorem exists_calls_of_reached {inputs : Inputs} {limit : Nat}
    (reached : (graph.run target inputs limit).ending = .reached) :
    ∃ edge ∈ graph.edges, edge.action.calls target = true := by
  obtain ⟨point, steps, stops⟩ := run_stops graph target inputs limit
  have called := stops.reached reached
  cases steps with
  | refl => cases called
  | tail _ step =>
    cases step with
    | take member _ _ => exact ⟨_, member, called⟩

end FlowGraph

theorem Launch.exists_calls {config : Config} {name : String} {program : Stmt}
    {setting : Setting (List ComponentState)} {prior : Arg (List ComponentState)}
    {start final : Search (List ComponentState)}
    (launch : Launch config name program setting prior start) {key : Nat} {path : List Nat}
    {witness : List Edge}
    (ends : start.Ends setting (.finished final (.targetFound key path witness))) :
    ∃ edge ∈ setting.graph.edges, edge.action.calls config.analysis.targetFunction = true := by
  obtain ⟨head, state, _, _, _, _, _, _, isWitness⟩ := launch.exists_visit ends
  obtain ⟨last, isLast, calls⟩ := isWitness.calls
  exact ⟨last, isWitness.edges last (List.mem_of_getLast? isLast), calls⟩

theorem launch_of_targetFound {config : Config} {traced : Bool} {name : String} {program : Stmt}
    {interruption : Option Interruption} {fuel : Nat} {report : Report}
    (verified : (verify config traced interruption fuel name program).1 = .ok report)
    (found : report.verdict.status = "target found") :
    ∃ setting start final key path witness, Launch config name program setting {} start ∧
      start.Ends setting (.finished final (.targetFound key path witness)) := by
  obtain ⟨preparation, final, verdict, launch, ends, concluded⟩ := launch_of_verify verified
  rcases conclude_ok concluded with ⟨rfl, _⟩ | ⟨state, path, witness, messages, rfl, _⟩
  · obtain ⟨key, path, witness, rfl⟩ := Verdict.status_eq_targetFound.mp found
    exact ⟨_, _, final, key, path, witness, launch, ends⟩
  · exact ⟨_, _, final, state, path, witness, launch, ends⟩

/-- The traversal finds a call exactly if one stands somewhere in the program.  Where it finds none,
the function is skipped without a report and without an error; then no configuration with that
target finds it in the program, and no execution of the graph of the program reaches it. -/
theorem skipped_unreachable (program : Stmt) (target : String) :
    (program.callsFunction target = true ↔
        ∃ span result args, (Stmt.call span result target args).Inside program) ∧
      (program.callsFunction target = false →
        (∀ spec : AnalysisSpec, spec.targetFunction = target →
          ∀ (traced : Bool) (interruption : Option Interruption) (fuel : Nat)
            (function : Source.Function), function.body = program →
            (verifyFunction spec traced interruption fuel function).outcome = none) ∧
        (∀ config : Config, config.analysis.targetFunction = target →
          ∀ (traced : Bool) (interruption : Option Interruption) (fuel : Nat) (name : String)
            (report : Report),
            (verify config traced interruption fuel name program).1 = .ok report →
            report.verdict.status ≠ "target found") ∧
        ∀ (name : String) (graph : FlowGraph), (FlowGraph.build name program).1 = .ok graph →
          ∀ (inputs : Inputs) (limit : Nat),
            (graph.run target inputs limit).ending ≠ .reached) := by
  refine ⟨Stmt.callsFunction_iff, ?_⟩
  intro absent
  refine ⟨?_, ?_, ?_⟩
  · rintro spec rfl traced interruption fuel function rfl
    unfold verifyFunction
    rw [if_neg (Bool.eq_false_iff.mp absent)]
    rfl
  · rintro config rfl traced interruption fuel name report verified found
    obtain ⟨setting, start, final, key, path, witness, launch, ends⟩ :=
      launch_of_targetFound verified found
    obtain ⟨edge, member, calls⟩ := launch.exists_calls ends
    rw [FlowGraph.build_calls launch.built member calls] at absent
    cases absent
  · intro name graph built inputs limit reached
    obtain ⟨edge, member, calls⟩ := FlowGraph.exists_calls_of_reached reached
    rw [FlowGraph.build_calls built member calls] at absent
    cases absent

/-- In the loop that counts up, a call to one function stands in a branch, and none to another
one. -/
theorem skipped_unreachable_countsUp :
    (∃ span result args, (Stmt.call span result "reach_error" args).Inside countsUp) ∧
      countsUp.callsFunction "abort" = false ∧
      ∃ graph, (FlowGraph.build "countsUp" countsUp).1 = .ok graph ∧
        ∀ (inputs : Inputs) (limit : Nat), (graph.run "abort" inputs limit).ending ≠ .reached := by
  obtain ⟨setting, _, _, launch, _⟩ := exists_launch_countsUp
  have present : countsUp.callsFunction "reach_error" = true := by cbv
  have absent : countsUp.callsFunction "abort" = false := by cbv
  obtain ⟨_, _, unreached⟩ := (skipped_unreachable countsUp "abort").2 absent
  exact ⟨(skipped_unreachable countsUp "reach_error").1.mp present, absent, setting.graph,
    launch.built, unreached "countsUp" setting.graph launch.built⟩

end Reachability
