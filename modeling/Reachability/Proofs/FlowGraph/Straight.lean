import Mathlib
import Reachability.Proofs.Bounds.Constants
import Reachability.Proofs.FlowGraph.Meaning
import Reachability.Proofs.FlowGraph.WellFormed

/-!
# Programs without branches

A program that only assigns becomes a line: a node for each assignment with the
one edge that performs it, and the exit at the end.  Its execution performs the
assignments one after the other.  If each of them reads only variables that have
been assigned before, and none overflows or divides by zero, then all values are
known at the end.
-/

namespace Reachability

/-- A program that performs some assignments one after the other and nothing else. -/
inductive Stmt.Assigns : Stmt → List (String × Expr) → Prop where
  | assign {span : Span} {var : String} {value : Expr} :
      Assigns (.assign span var value) [(var, value)]
  | blockEnd {span : Span} : Assigns (.block span []) []
  | blockNext {span : Span} {first : Stmt} {rest : List Stmt}
      {assignments others : List (String × Expr)} :
      Assigns first assignments →
      Assigns (.block span rest) others →
      Assigns (.block span (first :: rest)) (assignments ++ others)

/-- Some assignments lead from values of the variables to others. -/
inductive Env.Becomes : Env → List (String × Expr) → Env → Prop where
  | done {env : Env} : Becomes env [] env
  | next {env final : Env} {var : String} {value : Expr} {word : Int64}
      {rest : List (String × Expr)} :
      value.Gives env word →
      Becomes (env.insert var word) rest final →
      Becomes env ((var, value) :: rest) final

/-- Each assignment reads only variables that are known then, draws nothing, and neither overflows
nor divides by zero.  What has been assigned is known. -/
def Regular (known : List String) (env : Env) : List (String × Expr) → Prop
  | [] => True
  | (var, value) :: rest =>
    value.Plain ∧ value.Within known ∧ value.Exact env ∧
      ∀ word, value.value env = .ok word → Regular (var :: known) (env.insert var word) rest

instance Regular.decidable (known : List String) (env : Env) :
    (assignments : List (String × Expr)) → Decidable (Regular known env assignments)
  | [] => isTrue trivial
  | (var, _) :: rest =>
    have : ∀ word, Decidable (Regular (var :: known) (env.insert var word) rest) :=
      fun word => Regular.decidable (var :: known) (env.insert var word) rest
    inferInstanceAs (Decidable (_ ∧ _ ∧ _ ∧ ∀ _, _ → _))

/-- The bounds after some assignments. -/
def Bounds.assign (bounds : Bounds) (assignments : List (String × Expr)) : Bounds :=
  assignments.foldl (fun bounds assignment => bounds.set assignment.1 (bounds.eval assignment.2))
    bounds

section Values

variable {env final : Env} {known : List String} {bounds : Bounds}
  {assignments : List (String × Expr)} {name : String}

/-- Regular assignments can be performed, the bounds follow the values, and nothing is read that has
not been known or assigned. -/
theorem Regular.becomes (regular : Regular known env assignments) (pins : bounds.Pins env known) :
    ∃ final, env.Becomes assignments final ∧
      (bounds.assign assignments).Pins final (known ++ assignments.map Prod.fst) ∧
      ∀ assignment ∈ assignments, assignment.2.Within (known ++ assignments.map Prod.fst) := by
  induction assignments generalizing known env bounds with
  | nil =>
    rw [List.map_nil, List.append_nil]
    exact ⟨env, .done, pins, by simp⟩
  | cons assignment rest induction =>
    obtain ⟨var, value⟩ := assignment
    obtain ⟨plain, within, exact, later⟩ := regular
    obtain ⟨word, gives, isConst⟩ :=
      Bounds.eval_const plain exact fun name read => pins name (within name read)
    obtain ⟨final, becomes, pinsAfter, withinAfter⟩ :=
      induction (later word gives.value) (pins.set var word)
    have alike : ∀ name, name ∈ known ++ ((var, value) :: rest).map Prod.fst ↔
        name ∈ var :: known ++ rest.map Prod.fst := by
      intro name
      simp only [List.map_cons, List.mem_append, List.mem_cons]
      tauto
    refine ⟨final, .next gives becomes, ?_, ?_⟩
    · rw [Bounds.assign, List.foldl_cons, isConst]
      exact fun name member => pinsAfter name ((alike name).mp member)
    · rw [List.forall_mem_cons]
      constructor
      · exact fun name read => List.mem_append_left _ (within name read)
      · exact fun assignment member name read =>
          (alike name).mpr (withinAfter assignment member name read)

theorem Env.Becomes.get? (becomes : env.Becomes assignments final) :
    (name ∈ assignments.map Prod.fst → ∃ word, final.get? name = some word) ∧
      (name ∉ assignments.map Prod.fst → final.get? name = env.get? name) := by
  induction becomes with
  | done => simp
  | @next env final var value word rest _ _ induction =>
    rw [List.map_cons, List.mem_cons, not_or]
    by_cases later : name ∈ rest.map Prod.fst
    · exact ⟨fun _ => induction.1 later, fun absent => absurd later absent.2⟩
    · have kept := induction.2 later
      rw [NameMap.get?_insert] at kept
      constructor
      · intro member
        rw [if_pos (member.resolve_right later)] at kept
        exact ⟨word, kept⟩
      · intro absent
        rwa [if_neg absent.1] at kept

end Values

theorem Stmt.Assigns.mem_vars {program : Stmt} {assignments : List (String × Expr)}
    (assigns : program.Assigns assignments) {name : String} :
    name ∈ program.vars ↔ ∃ assignment ∈ assignments,
      name = assignment.1 ∨ name ∈ assignment.2.vars := by
  rw [Stmt.mem_vars]
  induction assigns with
  | assign => simp [Stmt.all, Stmt.nested, Stmt.names]
  | blockEnd => simp [Stmt.all, Stmt.nested, Stmt.nestedAll, Stmt.names]
  | @blockNext span _ _ _ _ _ _ first rest =>
    have silent : ∀ body, name ∉ (Stmt.block span body).names := by simp [Stmt.names]
    simp only [Stmt.all, Stmt.nested, Stmt.nestedAll, if_true, List.exists_mem_cons_iff, silent,
      false_or] at first rest ⊢
    simp only [List.mem_append, or_and_right, exists_or, first, rest]

namespace FlowGraph

/-- A way through a graph along edges that perform some assignments, without an alternative. -/
inductive Line (graph : FlowGraph) : Nat → List (String × Expr) → Nat → Prop where
  | done {node : Nat} : Line graph node [] node
  | next {node middle finish : Nat} {var : String} {value : Expr} {rest : List (String × Expr)} :
      graph.Performs node (.assign var value) middle →
      Line graph middle rest finish →
      Line graph node ((var, value) :: rest) finish

variable {graph : FlowGraph} {node middle finish : Nat} {assignments others : List (String × Expr)}

theorem Line.append (line : graph.Line node assignments middle)
    (later : graph.Line middle others finish) : graph.Line node (assignments ++ others) finish := by
  induction line with
  | done => exact later
  | next performs _ induction => exact .next performs (induction later)

theorem Performs.unique {action otherAction : Action} {next other : Nat}
    (performs : graph.Performs node action next)
    (otherPerforms : graph.Performs node otherAction other) :
    action = otherAction ∧ next = other := by
  obtain ⟨edge, outgoing, rfl, rfl⟩ := performs
  obtain ⟨otherEdge, otherOutgoing, rfl, rfl⟩ := otherPerforms
  rw [outgoing, List.cons.injEq] at otherOutgoing
  rw [otherOutgoing.1]
  exact ⟨rfl, rfl⟩

theorem Line.unique (line : graph.Line node assignments finish)
    (other : graph.Line node others finish) (stuck : graph.outgoing finish = []) :
    assignments = others := by
  have leaves : ∀ {node : Nat} {action : Action} {next : Nat},
      graph.Performs node action next → node ≠ finish := by
    rintro node action next ⟨edge, outgoing, _⟩ rfl
    rw [outgoing] at stuck
    cases stuck
  induction line generalizing others with
  | done =>
    cases other with
    | done => rfl
    | next performs _ => exact absurd rfl (leaves performs)
  | next performs _ induction =>
    cases other with
    | done => exact absurd rfl (leaves performs)
    | next otherPerforms otherLine =>
      obtain ⟨same, rfl⟩ := performs.unique otherPerforms
      cases same
      rw [induction otherLine stuck leaves]

/-- Wherever a program that only assigns is found in a graph, there is a line. -/
theorem Encodes.line {targets : Option JumpTargets} {program : Stmt} {last : Option Nat}
    (encodes : graph.Encodes targets program node last) (assigns : program.Assigns assignments) :
    ∃ finish, last = some finish ∧ graph.Line node assignments finish := by
  induction assigns generalizing node last with
  | assign =>
    cases encodes with
    | action isAction performs =>
      cases isAction
      exact ⟨_, rfl, .next performs .done⟩
  | blockEnd =>
    cases encodes with
    | blockEnd => exact ⟨_, rfl, .done⟩
    | action isAction _ => cases isAction
  | blockNext _ _ first rest =>
    cases encodes with
    | blockNext encodesFirst encodesRest =>
      obtain ⟨_, ⟨⟩, line⟩ := first encodesFirst
      obtain ⟨finish, isFinish, later⟩ := rest encodesRest
      exact ⟨finish, isFinish, line.append later⟩
    | blockStop encodesFirst =>
      obtain ⟨_, ⟨⟩, _⟩ := first encodesFirst
    | action isAction _ => cases isAction

end FlowGraph

theorem Draft.Passage.exit_eq {targets : Option JumpTargets} {program : Stmt}
    {draft after : Draft} {current : Nat} {last : Option Nat} {assignments : List (String × Expr)}
    (passage : Passage False targets program draft current last after)
    (assigns : program.Assigns assignments) : after.exit = draft.exit := by
  induction passage generalizing assignments with
  | @label _ _ draft _ current _ text _ induction =>
    exact (induction assigns).trans (draft.size_label current text).2.2
  | blockEnd => rfl
  | blockNext _ _ first rest =>
    cases assigns with
    | blockNext assignsFirst assignsRest =>
      exact (rest assignsRest).trans (first assignsFirst)
  | blockStop _ first =>
    cases assigns with
    | blockNext assignsFirst _ => exact first assignsFirst
  | action => rfl
  | stray _ admitted => exact admitted.elim
  | _ => cases assigns

namespace FlowGraph

variable {graph : FlowGraph} {node finish : Nat} {assignments : List (String × Expr)}

theorem build_line {name : String} {program : Stmt} (built : (build name program).1 = .ok graph)
    (assigns : program.Assigns assignments) :
    graph.Line graph.entry assignments graph.exit ∧ graph.outgoing graph.exit = [] := by
  obtain ⟨accepted, rfl, _⟩ := build_ok_iff.mp built
  have passage := lowering_passage accepted
  have noExit : (lowering program).2.exit = none := passage.exit_eq assigns
  obtain ⟨last, isLast, line⟩ :=
    (passage.encodes (finished_persists name (lowering_lowers program)).1).line assigns
  have isExit : (lowered name program).exit = last := by
    simp [lowered_eq, ofDraft, isLast, noExit]
  constructor
  · rw [isExit]
    exact line
  · have listed : (lowered name program).exit ∈ (lowered name program).exits := by
      rw [(exit_lowered name accepted).1]
      exact List.mem_cons_self
    exact List.isEmpty_iff.mp (List.mem_filter.mp listed).2

section Execution

variable {target : String} {inputs : Inputs} {env final : Env}

theorem walk_line (line : graph.Line node assignments finish) (stuck : graph.outgoing finish = [])
    (becomes : env.Becomes assignments final) (drawn : Nat) {trace : List Edge}
    (here : graph.after trace = node) {steps : Nat} (enough : assignments.length ≤ steps) :
    ∃ whole, graph.walk target inputs steps node { env, drawn } trace =
        Machine.finish { env := final, drawn } whole .terminated ∧
      graph.after whole = finish := by
  induction line generalizing env trace steps with
  | done =>
    cases becomes
    exact ⟨trace, walk_exit stuck steps, here⟩
  | @next node middle finish var value rest performs _ induction =>
    cases becomes with
    | @next _ _ _ _ word _ gives becomes =>
      obtain ⟨edge, outgoing, isAssign, rfl⟩ := performs
      cases steps with
      | zero => simp at enough
      | succ steps =>
        have chosen : Machine.choose inputs { env, drawn } [edge] =
            .ok (some edge, { env, drawn }) := by
          simp [Machine.choose, Machine.enabled, isAssign, bind, Except.bind, pure, Except.pure]
        have performed : Machine.perform inputs target { env, drawn } edge.action =
            .ok { env := env.insert var word, drawn } := by
          simp [Machine.perform, isAssign, gives inputs.draw drawn, bind, Except.bind, pure,
            Except.pure]
        have quiet : edge.action.calls target = false := by
          rw [isAssign]
          rfl
        rw [walk_succ (outgoing_ne_nil outgoing), outgoing, chosen]
        dsimp only
        rw [performed]
        dsimp only
        rw [quiet, if_neg Bool.false_ne_true]
        exact induction stuck becomes rfl (Nat.le_of_succ_le_succ enough)

theorem run_line (line : graph.Line graph.entry assignments finish)
    (stuck : graph.outgoing finish = []) (becomes : inputs.initial.Becomes assignments final)
    {limit : Nat} (enough : assignments.length ≤ limit) :
    (graph.run target inputs limit).ending = .terminated ∧
      (graph.run target inputs limit).env = final ∧
      (graph.run target inputs limit).node graph = finish := by
  have walks : ∃ whole, graph.runFor target inputs limit =
      Machine.finish { env := final } whole .terminated ∧ graph.after whole = finish :=
    walk_line line stuck becomes 0 rfl enough
  obtain ⟨whole, walks, here⟩ := walks
  rw [run, walks]
  exact ⟨rfl, rfl, (node_finish (by simp)).trans here⟩

end Execution

end FlowGraph

end Reachability
