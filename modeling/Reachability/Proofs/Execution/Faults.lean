import Mathlib
import Reachability.Proofs.Execution.Steps
import Reachability.Proofs.FlowGraph.Origins

/-!
# How executions of accepted programs fail

The survey of a program and the evaluation of its expressions look at the same
constructs in two places.  An expression that has passed the survey fails for a
division by zero only, unless it holds an operator without meaning: the survey
refuses such an operator before one operand but not between two.  Executions
inherit this from the expressions along their edges.
-/

namespace Reachability

namespace Expr

/-- Whether an operator without meaning stands between two operands. -/
def usesUnknown (expr : Expr) : Bool :=
  expr.parts.any fun part =>
    match part with
    | .binary _ .unknown _ _ => true
    | _ => false

variable {draw : Nat → Int64} {env : Env} {next pos : Nat} {op : Operator}
  {operand left right : Expr} {error : EvalError}

theorem usesUnknown_unary : (unary pos op operand).usesUnknown = operand.usesUnknown := by
  simp [usesUnknown, parts]

theorem usesUnknown_binary : (binary pos op left right).usesUnknown =
    (decide (op = .unknown) || left.usesUnknown || right.usesUnknown) := by
  cases op <;> simp [usesUnknown, parts]

theorem defect?_eq_none_iff : operand.defect? = none ↔
    operand.isMissing = false ∧ operand.parts.findSome? partDefect? = none := by
  unfold defect?
  cases operand.isMissing <;> simp

theorem defect?_unary (accepted : (unary pos op operand).defect? = none) :
    op.isUnary = true ∧ operand.defect? = none := by
  rw [defect?_eq_none_iff] at accepted
  simp only [parts, List.findSome?_cons, partDefect?] at accepted
  cases isUnary : op.isUnary with
  | false => simp [isUnary] at accepted
  | true =>
    cases isMissing : operand.isMissing with
    | true => simp [isUnary, isMissing] at accepted
    | false =>
      simp only [isUnary, isMissing, Bool.not_true, Bool.false_eq_true, if_false] at accepted
      exact ⟨rfl, defect?_eq_none_iff.mpr ⟨isMissing, accepted.2⟩⟩

theorem defect?_binary (accepted : (binary pos op left right).defect? = none) :
    op.isUnary = false ∧ left.defect? = none ∧ right.defect? = none := by
  rw [defect?_eq_none_iff] at accepted
  simp only [parts, List.findSome?_cons, List.findSome?_append, partDefect?] at accepted
  cases isUnary : op.isUnary with
  | true => simp [isUnary] at accepted
  | false =>
    cases leftMissing : left.isMissing with
    | true => simp [isUnary, leftMissing] at accepted
    | false =>
      cases rightMissing : right.isMissing with
      | true => simp [isUnary, rightMissing] at accepted
      | false =>
        simp only [isUnary, leftMissing, rightMissing, Bool.or_false, Bool.false_eq_true,
          if_false, Option.or_eq_none_iff] at accepted
        obtain ⟨_, leftAccepted, rightAccepted⟩ := accepted
        exact ⟨rfl, defect?_eq_none_iff.mpr ⟨leftMissing, leftAccepted⟩,
          defect?_eq_none_iff.mpr ⟨rightMissing, rightAccepted⟩⟩

theorem eval_unary_error (fails : (unary pos op operand).eval draw env next = .error error) :
    operand.eval draw env next = .error error ∨ op.isUnary = false := by
  unfold eval at fails
  cases found : operand.eval draw env next with
  | error other =>
    simp only [found, bind, Except.bind] at fails
    exact .inl fails
  | ok result =>
    simp only [found, bind, Except.bind] at fails
    cases op with
    | not | neg => cases fails
    | _ => exact .inr rfl

theorem eval_binary_error (fails : (binary pos op left right).eval draw env next = .error error) :
    left.eval draw env next = .error error ∨
      (∃ drawn, right.eval draw env drawn = .error error) ∨
      op ≠ .and ∧ op ≠ .or ∧ ∃ x y, op.apply x y = .error error := by
  unfold eval at fails
  cases first : left.eval draw env next with
  | error other =>
    simp only [first, bind, Except.bind] at fails
    exact .inl fails
  | ok result =>
    obtain ⟨x, drawn⟩ := result
    simp only [first, bind, Except.bind] at fails
    cases second : right.eval draw env drawn with
    | error other =>
      simp only [second] at fails
      refine .inr (.inl ⟨drawn, ?_⟩)
      split at fails <;> try split at fails
      · cases fails
      · rw [second, ← fails]
      · cases fails
      · rw [second, ← fails]
      · rw [second, ← fails]
    | ok result =>
      obtain ⟨y, after⟩ := result
      simp only [second] at fails
      refine .inr (.inr ?_)
      cases op with
      | and | or =>
        dsimp only at fails
        split at fails
        · cases fails
        · cases fails
      | _ =>
        refine ⟨by simp, by simp, x, y, ?_⟩
        dsimp only at fails
        split at fails
        · rename_i applied
          cases fails
          exact applied
        · cases fails

theorem apply_error {x y : Int64} (binary : op.isUnary = false) (isAnd : op ≠ .and)
    (isOr : op ≠ .or) (fails : op.apply x y = .error error) :
    error = .divisionByZero ∨ error = .unknownOperator .unknown ∧ op = .unknown := by
  cases op with
  | arith op =>
    simp only [Operator.apply] at fails
    cases op with
    | add | sub | mul => cases fails
    | quo | rem =>
      simp only [Arithmetic.apply] at fails
      split at fails
      · cases fails
        exact .inl rfl
      · cases fails
  | compare op => cases fails
  | and => exact absurd rfl isAnd
  | or => exact absurd rfl isOr
  | not | neg => cases binary
  | unknown =>
    cases fails
    exact .inr ⟨rfl, rfl⟩

theorem eval_error {expr : Expr} (accepted : expr.defect? = none)
    (fails : expr.eval draw env next = .error error) :
    error = .divisionByZero ∨ error = .unknownOperator .unknown ∧ expr.usesUnknown = true := by
  induction expr generalizing next with
  | literal | var | nondet => cases fails
  | unary pos op operand induction =>
    obtain ⟨isUnary, operandAccepted⟩ := defect?_unary accepted
    rcases eval_unary_error fails with operandFails | notUnary
    · rw [usesUnknown_unary]
      exact induction operandAccepted operandFails
    · rw [isUnary] at notUnary
      cases notUnary
  | binary pos op left right leftInduction rightInduction =>
    obtain ⟨isBinary, leftAccepted, rightAccepted⟩ := defect?_binary accepted
    simp only [usesUnknown_binary, Bool.or_eq_true, decide_eq_true_eq]
    rcases eval_binary_error fails with leftFails | ⟨drawn, rightFails⟩
      | ⟨notAnd, notOr, x, y, none⟩
    · apply (leftInduction leftAccepted leftFails).imp_right
      exact And.imp_right fun uses => .inl (.inr uses)
    · apply (rightInduction rightAccepted rightFails).imp_right
      exact And.imp_right .inr
    · apply (apply_error isBinary notAnd notOr none).imp_right
      exact And.imp_right fun isUnknown => .inl (.inl isUnknown)
  | foreign | missing => cases accepted

end Expr

/-- The reason why an execution failed, if an expression had no value. -/
def Fault.error? : Fault → Option EvalError
  | .condition error | .action _ error => some error
  | _ => none

/-- An expression along an edge has no value for some values of the variables. -/
def Edge.Fails (inputs : Inputs) (error : EvalError) (edge : Edge) : Prop :=
  ∃ expr ∈ edge.action.exprs, ∃ env drawn, expr.eval inputs.draw env drawn = .error error

namespace Machine

variable {inputs : Inputs} {machine : Machine} {edge : Edge} {error : EvalError}

theorem enabled_error (fails : machine.enabled inputs edge = .error error) :
    edge.Fails inputs error := by
  cases action : edge.action with
  | assume cond truth =>
    simp only [enabled, action] at fails
    cases evaluated : cond.eval inputs.draw machine.env machine.drawn with
    | error other =>
      simp only [evaluated, bind, Except.bind] at fails
      cases fails
      exact ⟨cond, by simp [action, Action.exprs], _, _, evaluated⟩
    | ok result =>
      simp only [evaluated, bind, Except.bind] at fails
      cases fails
  | blank | assign | call =>
    simp only [enabled, action] at fails
    cases fails

theorem choose_error {edges : List Edge} (fails : machine.choose inputs edges = .error error) :
    ∃ edge ∈ edges, edge.Fails inputs error := by
  induction edges generalizing machine with
  | nil => cases fails
  | cons first rest induction =>
    simp only [choose, bind, Except.bind] at fails
    cases enables : machine.enabled inputs first with
    | error other =>
      simp only [enables] at fails
      cases fails
      exact ⟨first, List.mem_cons_self, enabled_error enables⟩
    | ok result =>
      simp only [enables] at fails
      split at fails
      · cases fails
      · obtain ⟨edge, member, fails⟩ := induction fails
        exact ⟨edge, List.mem_cons_of_mem _ member, fails⟩

theorem evalArgs_error {args : List Expr} (fails : machine.evalArgs inputs args = .error error) :
    ∃ arg ∈ args, ∃ drawn, arg.eval inputs.draw machine.env drawn = .error error := by
  induction args generalizing machine with
  | nil => cases fails
  | cons arg rest induction =>
    simp only [evalArgs, bind, Except.bind] at fails
    cases evaluated : arg.eval inputs.draw machine.env machine.drawn with
    | error other =>
      simp only [evaluated] at fails
      cases fails
      exact ⟨arg, List.mem_cons_self, _, evaluated⟩
    | ok result =>
      simp only [evaluated] at fails
      obtain ⟨other, member, fails⟩ := induction fails
      exact ⟨other, List.mem_cons_of_mem _ member, fails⟩

theorem perform_error {target : String}
    (fails : machine.perform inputs target edge.action = .error error) :
    edge.Fails inputs error := by
  cases action : edge.action with
  | assign var value =>
    simp only [perform, action, bind, Except.bind] at fails
    cases evaluated : value.eval inputs.draw machine.env machine.drawn with
    | error other =>
      simp only [evaluated] at fails
      cases fails
      exact ⟨value, by simp [action, Action.exprs], _, _, evaluated⟩
    | ok result =>
      simp only [evaluated] at fails
      cases fails
  | call result callee args =>
    simp only [perform, action, bind, Except.bind] at fails
    cases evaluated : machine.evalArgs inputs args with
    | error other =>
      simp only [evaluated] at fails
      cases fails
      obtain ⟨arg, member, drawn, argFails⟩ := evalArgs_error evaluated
      exact ⟨arg, by simpa [action, Action.exprs] using member, _, drawn, argFails⟩
    | ok ready =>
      simp only [evaluated] at fails
      split at fails
      · cases fails
      · cases fails
  | blank | assume =>
    simp only [perform, action] at fails
    cases fails

end Machine

namespace FlowGraph

variable {graph : FlowGraph} {target : String} {inputs : Inputs} {machine : Machine}
  {trace : List Edge} {fault : Fault} {steps node : Nat}

theorem walk_failed
    (failed : (graph.walk target inputs steps node machine trace).ending = .failed fault) :
    ∃ error, fault.error? = some error ∧ ∃ edge ∈ graph.edges, edge.Fails inputs error := by
  induction steps generalizing node machine trace with
  | zero =>
    by_cases isExit : graph.outgoing node = []
    · rw [walk_exit isExit] at failed
      cases failed
    · rw [walk_zero isExit] at failed
      cases failed
  | succ steps induction =>
    by_cases isExit : graph.outgoing node = []
    · rw [walk_exit isExit] at failed
      cases failed
    · rw [walk_succ isExit] at failed
      cases chooses : machine.choose inputs (graph.outgoing node) with
      | error error =>
        simp only [chooses] at failed
        cases failed
        obtain ⟨edge, leaving, fails⟩ := Machine.choose_error chooses
        exact ⟨error, rfl, edge, (FlowGraph.mem_outgoing.mp leaving).1, fails⟩
      | ok choice =>
        obtain ⟨chosen, ready⟩ := choice
        cases chosen with
        | none =>
          simp only [chooses] at failed
          cases failed
        | some edge =>
          simp only [chooses] at failed
          have leaving := ((Machine.choose_ok chooses).2 edge rfl).1
          cases performed : ready.perform inputs target edge.action with
          | error error =>
            simp only [performed] at failed
            cases failed
            exact ⟨error, rfl, edge, (FlowGraph.mem_outgoing.mp leaving).1,
              Machine.perform_error performed⟩
          | ok after =>
            simp only [performed] at failed
            split at failed
            · cases failed
            · exact induction failed

theorem run_failed {limit : Nat} (failed : (graph.run target inputs limit).ending = .failed fault) :
    fault = .stepLimit limit graph.name ∨
      ∃ error, fault.error? = some error ∧ ∃ edge ∈ graph.edges, edge.Fails inputs error := by
  simp only [run] at failed
  split at failed
  · cases failed
    exact .inl rfl
  · exact .inr (walk_failed failed)

/-- Accepted expressions have a value unless they divide by zero or apply an operator without
meaning. An execution of an accepted program fails for no other reason than these and its limit, and
for the operator only if it stands between two operands in the program. -/
theorem accepted_faults {name : String} {program : Stmt}
    (built : (build name program).1 = .ok graph) (target : String) (inputs : Inputs) (limit : Nat) :
    (∀ expr : Expr, expr.defect? = none → ∀ draw env next error,
      expr.eval draw env next = .error error →
        error = .divisionByZero ∨ error = .unknownOperator .unknown ∧ expr.usesUnknown = true) ∧
    ∀ fault, (graph.run target inputs limit).ending = .failed fault →
      fault = .stepLimit limit graph.name ∨ fault.error? = some .divisionByZero ∨
        fault.error? = some (.unknownOperator .unknown) ∧
          ∃ stmt ∈ program.all, ∃ expr ∈ stmt.exprs, expr.usesUnknown = true := by
  constructor
  · intro expr accepted draw env next error fails
    exact Expr.eval_error accepted fails
  · intro fault failed
    apply (run_failed failed).imp_right
    intro cause
    obtain ⟨error, isError, edge, member, expr, evaluated, env, drawn, fails⟩ := cause
    obtain ⟨accepted, stmt, isLive, isPart⟩ := build_exprs built member evaluated
    rw [isError]
    rcases Expr.eval_error accepted fails with rfl | ⟨rfl, uses⟩
    · exact .inl rfl
    · exact .inr ⟨rfl, stmt, program.live_subset_all isLive, expr, isPart, uses⟩

/-- A quotient by a value that may be zero. -/
def dividesByDrawn : Stmt :=
  .block {} [
    .assign {} "x" (.nondet 0 ""),
    .branch {} (.binary 0 .and (.var 0 "x")
      (.binary 0 (.compare .lt) (.literal 0 0)
        (.binary 0 (.arith .quo) (.literal 0 9) (.nondet 0 ""))))
      (.call {} "" "reach_error" []) .missing]

theorem accepted_faults_dividesByDrawn : ∃ graph fault,
    (build "divides" dividesByDrawn).1 = .ok graph ∧
      (graph.run "reach_error" { nondet := [3] } 10).ending = .failed fault ∧
      fault.error? = some .divisionByZero := by
  have built : (build "divides" dividesByDrawn).1 = .ok (lowered "divides" dividesByDrawn) :=
    build_ok_iff.mpr ⟨by cbv, rfl, by cbv⟩
  have failed : ((lowered "divides" dividesByDrawn).run "reach_error" { nondet := [3] } 10).ending =
      .failed (.condition .divisionByZero) := by cbv
  obtain ⟨_, faults⟩ := accepted_faults built "reach_error" { nondet := [3] } 10
  refine ⟨_, _, built, failed, ?_⟩
  rcases faults _ failed with limit | division | ⟨unknown, _⟩
  · cases limit
  · exact division
  · cases unknown

/-- An operator without meaning between two operands. -/
def appliesUnknown : Stmt :=
  .assign {} "x" (.binary 0 .unknown (.var 0 "x") (.var 0 "y"))

/-- The program is accepted, and its execution fails for another reason than a division by zero or a
limit. -/
theorem appliesUnknown_fails : ∃ (graph : FlowGraph) (edge : Edge),
    (build "applies" appliesUnknown).1 = .ok graph ∧
      (graph.run "reach_error" {} 5).ending =
        .failed (.action edge (.unknownOperator .unknown)) := by
  have built : (build "applies" appliesUnknown).1 = .ok (lowered "applies" appliesUnknown) :=
    build_ok_iff.mpr ⟨by cbv, rfl, by cbv⟩
  have failed : ((lowered "applies" appliesUnknown).run "reach_error" {} 5).ending =
      .failed (.action
        { id := 0, source := 0, target := 1,
          action := .assign "x" (.binary 0 .unknown (.var 0 "x") (.var 0 "y")) }
        (.unknownOperator .unknown)) := by cbv
  exact ⟨_, _, built, failed⟩

end FlowGraph

end Reachability
