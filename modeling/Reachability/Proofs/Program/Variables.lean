import Mathlib
import Reachability.Proofs.FlowGraph.Edges
import Reachability.Proofs.Sequence

/-!
# The variables of programs

The variables of a program are those that its statements read or write.  An
action of its control-flow graph assigns and restricts no others.
-/

namespace Reachability

namespace Expr

variable {names : List String} {name : String} {expr : Expr}

theorem mem_vars : name ∈ expr.vars ↔ ∃ pos, .var pos name ∈ expr.parts := by
  unfold vars
  generalize expr.parts = parts
  suffices collected : ∀ known : List String, name ∈ parts.foldl _ known ↔
      name ∈ known ∨ ∃ pos, .var pos name ∈ parts by
    simpa using collected []
  induction parts with
  | nil => simp
  | cons part parts induction =>
    intro known
    rw [List.foldl_cons, induction]
    cases part with
    | var pos other => simp [or_assoc, exists_or]
    | _ => simp

def Within (names : List String) (expr : Expr) : Prop := ∀ name ∈ expr.vars, name ∈ names

theorem within_var {pos : Nat} : (var pos name).Within names ↔ name ∈ names := by
  simp [Within, mem_vars, parts]

theorem within_unary {pos : Nat} {op : Operator} :
    (unary pos op expr).Within names ↔ expr.Within names := by
  simp [Within, mem_vars, parts]

theorem within_binary {pos : Nat} {op : Operator} {left right : Expr} :
    (binary pos op left right).Within names ↔ left.Within names ∧ right.Within names := by
  simp only [Within, mem_vars, parts, List.mem_cons, List.mem_append, reduceCtorEq, false_or,
    exists_or, or_imp, forall_and]

end Expr

namespace Stmt

/-- The variables that a statement reads or writes itself. -/
def names : Stmt → List String
  | assign _ var value => var :: value.vars
  | branch _ cond _ _ | loop _ cond _ | assume _ cond => cond.vars
  | call _ result _ args => args.flatMap Expr.vars ++ if result = "" then [] else [result]
  | _ => []

theorem mem_vars {program : Stmt} {name : String} :
    name ∈ program.vars ↔ ∃ stmt ∈ program.all, name ∈ stmt.names := by
  have readAll : ∀ (args : List Expr) (known : List String),
      name ∈ args.foldl (fun known expr => expr.vars.foldl addUnique known) known ↔
        name ∈ known ∨ name ∈ args.flatMap Expr.vars := by
    intro args
    induction args with
    | nil => simp
    | cons arg args induction =>
      intro known
      rw [List.foldl_cons, induction, mem_foldl_addUnique, List.flatMap_cons, List.mem_append,
        or_assoc]
  unfold vars
  dsimp only
  generalize program.all = stmts
  suffices collected : ∀ known : List String, name ∈ stmts.foldl _ known ↔
      name ∈ known ∨ ∃ stmt ∈ stmts, name ∈ stmt.names by
    simpa using collected []
  induction stmts with
  | nil => simp
  | cons stmt stmts induction =>
    intro known
    rw [List.foldl_cons, induction, List.exists_mem_cons_iff, ← or_assoc]
    apply or_congr_left
    cases stmt with
    | assign => simp [names, mem_foldl_addUnique, or_assoc]
    | branch | loop | assume => exact mem_foldl_addUnique
    | call span result callee args =>
      simp only [names, List.mem_append]
      split
      · simp [readAll]
      · simp [readAll, or_assoc]
    | _ => simp [names]

end Stmt

/-- What an action assigns or restricts is among the given variables. -/
def Action.Within (names : List String) : Action → Prop
  | .assign var _ => var ∈ names
  | .assume cond _ => cond.Within names
  | .call result _ _ => result ≠ "" → result ∈ names
  | .blank _ => True

theorem FlowGraph.build_within {name : String} {program : Stmt} {graph : FlowGraph}
    (built : (build name program).1 = .ok graph) :
    ∀ edge ∈ graph.edges, edge.action.Within program.vars := by
  intro edge member
  rcases build_stems built edge member with ⟨description, isBlank⟩ | ⟨stmt, within, isAction⟩
  · rw [isBlank]
    trivial
  · have known : ∀ name ∈ stmt.names, name ∈ program.vars :=
      fun name read => Stmt.mem_vars.mpr ⟨stmt, within, read⟩
    cases stmt with
    | assign =>
      rw [List.mem_singleton.mp isAction]
      exact known _ List.mem_cons_self
    | call span result callee args =>
      rw [List.mem_singleton.mp isAction]
      intro used
      apply known
      simp [Stmt.names, used]
    | assume =>
      rw [List.mem_singleton.mp isAction]
      exact known
    | branch | loop =>
      rcases List.mem_pair.mp isAction with holds | fails
      · rw [holds]
        exact known
      · rw [fails]
        exact known
    | _ => cases isAction

end Reachability
