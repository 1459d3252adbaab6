import Mathlib
import Reachability.Execution.Eval

/-!
# Inversion of evaluation

An expression that has a value has been evaluated in one of a few ways.  The
statements below list them once, so that proofs about values never unfold the
evaluator.
-/

namespace Reachability

theorem Env.value_insert (env : Env) (name key : String) (value : Int64) :
    Env.value (env.insert name value) key = if key = name then value else env.value key := by
  unfold Env.value
  rw [NameMap.get?_insert]
  split <;> rfl

namespace Expr

variable {draw : Nat → Int64} {env : Env} {next after : Nat} {value : Int64}

theorem eval_unary {pos : Nat} {op : Operator} {operand : Expr}
    (evaluated : (unary pos op operand).eval draw env next = .ok (value, after)) :
    ∃ x, operand.eval draw env next = .ok (x, after) ∧
      ((op = .neg ∧ value = -x) ∨ (op = .not ∧ value = truthWord (x == 0))) := by
  rw [eval] at evaluated
  cases found : operand.eval draw env next with
  | error error => simp [found, bind, Except.bind] at evaluated
  | ok result =>
    obtain ⟨x, drawn⟩ := result
    simp only [found, bind, Except.bind] at evaluated
    split at evaluated
    · cases evaluated
      exact ⟨x, rfl, .inl ⟨rfl, rfl⟩⟩
    · cases evaluated
      exact ⟨x, rfl, .inr ⟨rfl, rfl⟩⟩
    · cases evaluated

/-- The ways to evaluate a binary expression whose left operand has the value `x`: a logical
operator is decided by `x` alone or by the right operand, and any other operator needs both
operands. -/
inductive BinaryResult (draw : Nat → Int64) (env : Env) (right : Expr) (x : Int64) (drawn : Nat) :
    Operator → Int64 → Nat → Prop where
  | andFalse (zero : x = 0) : BinaryResult draw env right x drawn .and 0 drawn
  | andTrue {y : Int64} {after : Nat} (nonzero : x ≠ 0)
      (evaluated : right.eval draw env drawn = .ok (y, after)) :
      BinaryResult draw env right x drawn .and (truthWord (y != 0)) after
  | orTrue (nonzero : x ≠ 0) : BinaryResult draw env right x drawn .or 1 drawn
  | orFalse {y : Int64} {after : Nat} (zero : x = 0)
      (evaluated : right.eval draw env drawn = .ok (y, after)) :
      BinaryResult draw env right x drawn .or (truthWord (y != 0)) after
  | strict {op : Operator} {y value : Int64} {after : Nat}
      (evaluated : right.eval draw env drawn = .ok (y, after))
      (applied : op.apply x y = .ok value) : BinaryResult draw env right x drawn op value after

theorem eval_binary {pos : Nat} {op : Operator} {left right : Expr}
    (evaluated : (binary pos op left right).eval draw env next = .ok (value, after)) :
    ∃ x drawn, left.eval draw env next = .ok (x, drawn) ∧
      BinaryResult draw env right x drawn op value after := by
  rw [eval] at evaluated
  cases found : left.eval draw env next with
  | error error => simp [found, bind, Except.bind] at evaluated
  | ok result =>
    obtain ⟨x, drawn⟩ := result
    refine ⟨x, drawn, rfl, ?_⟩
    simp only [found, bind, Except.bind] at evaluated
    cases second : right.eval draw env drawn with
    | error error =>
      simp only [second] at evaluated
      split at evaluated <;> try split at evaluated
      · cases evaluated
        exact .andFalse ‹_›
      · cases evaluated
      · cases evaluated
        exact .orTrue ‹_›
      · cases evaluated
      · cases evaluated
    | ok result =>
      obtain ⟨y, drawn'⟩ := result
      simp only [second] at evaluated
      split at evaluated <;> try split at evaluated
      · cases evaluated
        exact .andFalse ‹_›
      · cases evaluated
        exact .andTrue ‹_› second
      · cases evaluated
        exact .orTrue ‹_›
      · cases evaluated
        exact .orFalse (not_not.mp ‹_›) second
      · cases evaluated
      · cases evaluated
        exact .strict second ‹_›

end Expr

end Reachability
