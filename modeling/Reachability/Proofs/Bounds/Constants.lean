import Mathlib
import Reachability.Proofs.Bounds.Soundness
import Reachability.Proofs.Execution.Faults
import Reachability.Proofs.Interval.Truth
import Reachability.Proofs.Program.Variables

/-!
# Evaluation of constants

On intervals with a single member the operations lose nothing: the result has a
single member too, which is the word that the operation computes, as long as the
exact result of the operation is a word.  An expression over variables with
known values therefore has a known value, and it is the one found by evaluating
the expression.
-/

namespace Reachability

instance Fits.decidable (value : Int) : Decidable (Fits value) :=
  inferInstanceAs (Decidable (_ ∧ _))

/-- The integer an arithmetic operator stands for, whether or not a word can hold it. -/
def Arithmetic.exact : Arithmetic → Int → Int → Int
  | add => (· + ·)
  | sub => (· - ·)
  | mul => (· * ·)
  | quo => Int.tdiv
  | rem => Int.tmod

/-- An operation on two words has an exact result, and a word can hold it. -/
structure Arithmetic.Fits (op : Arithmetic) (x y : Int64) : Prop where
  result : Reachability.Fits (op.exact x.toInt y.toInt)
  divisor : op = .quo ∨ op = .rem → y ≠ 0

instance Arithmetic.Fits.decidable (op : Arithmetic) (x y : Int64) : Decidable (op.Fits x y) :=
  decidable_of_iff (Reachability.Fits (op.exact x.toInt y.toInt) ∧ (op = .quo ∨ op = .rem → y ≠ 0))
    ⟨fun both => ⟨both.1, both.2⟩, fun fits => ⟨fits.result, fits.divisor⟩⟩

theorem Arithmetic.apply_eq {op : Arithmetic} {x y word : Int64} (fits : op.Fits x y)
    (isResult : word.toInt = op.exact x.toInt y.toInt) : op.apply x y = .ok word := by
  have same : ∀ other : Int64, other.toInt = op.exact x.toInt y.toInt → other = word :=
    fun other isOther => Int64.toInt_inj.mp (isOther.trans isResult.symm)
  have bounded := fits.result
  cases op with
  | add => exact congrArg _ (same _ ((Int64.toInt_add x y).trans bounded.bmod_eq))
  | sub => exact congrArg _ (same _ ((Int64.toInt_sub x y).trans bounded.bmod_eq))
  | mul => exact congrArg _ (same _ ((Int64.toInt_mul x y).trans bounded.bmod_eq))
  | quo =>
    rw [apply, if_neg (fits.divisor (.inl rfl))]
    exact congrArg _ (same _ ((Int64.toInt_div x y).trans bounded.bmod_eq))
  | rem =>
    rw [apply, if_neg (fits.divisor (.inr rfl))]
    exact congrArg _ (same _ (Int64.toInt_mod x y))

namespace Interval

theorem nonempty_const (word : Int64) : (const word).Nonempty :=
  nonempty_of_mem (mem_const.mpr rfl)

theorem isHull_const (word : Int64) : (const word).IsHull {word.toInt} := by
  apply isHull_of_bounds
  · rintro _ rfl
    exact ⟨Int.le_refl _, Int.le_refl _⟩
  · rfl
  · rfl

theorem results_const (exact : Int → Int → Int) (x y : Int64) :
    results exact (const x) (const y) = {exact x.toInt y.toInt} := by
  ext value
  simp [results, eq_comm]

theorem truthValues_outcomes_const (cond : Int64 → Int64 → Bool) (x y : Int64) :
    truthValues (outcomes cond (const x) (const y)) = {(truthWord (cond x y)).toInt} := by
  ext value
  simp [truthValues, outcomes, eq_comm]

theorem compare_const (op : Comparison) (x y : Int64) :
    compare op (const x) (const y) = const (truthWord (op.holds x y)) := by
  have hull := isHull_compare (nonempty_const x) (nonempty_const y) op
  rw [truthValues_outcomes_const] at hull
  exact hull.unique (isHull_const _)

theorem and_const (x y : Int64) :
    and (const x) (const y) = const (truthWord (x != 0 && y != 0)) := by
  have hull := isHull_and (nonempty_const x) (nonempty_const y)
  rw [truthValues_outcomes_const] at hull
  exact hull.unique (isHull_const _)

theorem or_const (x y : Int64) :
    or (const x) (const y) = const (truthWord (x != 0 || y != 0)) := by
  have hull := isHull_or (nonempty_const x) (nonempty_const y)
  rw [truthValues_outcomes_const] at hull
  exact hull.unique (isHull_const _)

theorem not_const (x : Int64) : not (const x) = const (truthWord (x == 0)) := by
  have hull := isHull_not (nonempty_const x)
  have single : truthValues (const x).negations = {(truthWord (x == 0)).toInt} := by
    ext value
    simp [truthValues, negations, eq_comm]
  rw [single] at hull
  exact hull.unique (isHull_const _)

theorem neg_const {x : Int64} (fits : Fits (-x.toInt)) : neg (const x) = const (-x) := by
  have wraps : (-x).toInt = -x.toInt := (Int64.toInt_neg x).trans fits.bmod_eq
  have single : (const x).opposites = {(-x).toInt} := by
    ext value
    simp [opposites, wraps, eq_comm]
  have hull := (encloses_neg (nonempty_const x)).hull (by
    rw [single]
    rintro _ rfl
    exact fits_toInt _)
  rw [single] at hull
  exact hull.unique (isHull_const _)

theorem isHull_arith_const {op : Arithmetic} {x y : Int64} (fits : op.Fits x y) :
    (arith op (const x) (const y)).IsHull {op.exact x.toInt y.toInt} := by
  have bounded : ∀ value ∈ results op.exact (const x) (const y), Fits value := by
    rw [results_const]
    rintro _ rfl
    exact fits.result
  have nonempty := nonempty_const x
  have otherNonempty := nonempty_const y
  rw [← results_const]
  cases op with
  | add => exact (encloses_add nonempty otherNonempty).hull bounded
  | sub => exact (encloses_sub nonempty otherNonempty).hull bounded
  | mul => exact (encloses_mul nonempty otherNonempty).hull bounded
  | quo =>
    have excludes : ¬0 ∈ const y := fun zero => fits.divisor (.inl rfl) (mem_const.mp zero).symm
    exact (encloses_quo nonempty otherNonempty excludes).hull bounded
  | rem =>
    have excludes : ¬0 ∈ const y := fun zero => fits.divisor (.inr rfl) (mem_const.mp zero).symm
    have computed : rem (const x) (const y) = const (x % y) := by
      rw [rem, if_neg excludes]
      simp [isConst, const]
    rw [results_const, arith, computed, Arithmetic.exact, ← Int64.toInt_mod]
    exact isHull_const _

theorem arith_const {op : Arithmetic} {x y : Int64} (fits : op.Fits x y) :
    ∃ word, op.apply x y = .ok word ∧ arith op (const x) (const y) = const word := by
  obtain ⟨word, isResult⟩ := fits_iff_exists_word.mp fits.result
  have hull := isHull_arith_const fits
  rw [← isResult] at hull
  exact ⟨word, Arithmetic.apply_eq fits isResult, hull.unique (isHull_const word)⟩

end Interval

namespace Expr

/-- The exact result of an arithmetic expression is a word, whatever its operands compute. -/
def Computes (env : Env) : Expr → Prop
  | unary _ .neg operand => ∀ x, operand.value env = .ok x → Fits (-x.toInt)
  | binary _ (.arith op) left right =>
    ∀ x, left.value env = .ok x → ∀ y, right.value env = .ok y → op.Fits x y
  | _ => True

/-- No part of an expression overflows or divides by zero. -/
def Exact (env : Env) (expr : Expr) : Prop := ∀ part ∈ expr.parts, part.Computes env

/-- The survey accepts an expression, all of its operators have a meaning and it draws no value. -/
structure Plain (expr : Expr) : Prop where
  accepted : expr.defect? = none
  meaningful : expr.usesUnknown = false
  quiet : expr.draws = false

section Decidable

instance decidableValue {env : Env} {expr : Expr} {P : Int64 → Prop} [DecidablePred P] :
    Decidable (∀ word, expr.value env = .ok word → P word) :=
  match expr.value env with
  | .ok word => decidable_of_iff (P word) (by simp)
  | .error _ => isTrue (by simp)

instance Computes.decidable (env : Env) (expr : Expr) : Decidable (expr.Computes env) :=
  match expr with
  | unary _ .neg _ => decidableValue
  | binary _ (.arith _) _ _ => decidableValue
  | unary _ (.arith _) _ | unary _ (.compare _) _ | unary _ .and _ | unary _ .or _
  | unary _ .not _ | unary _ .unknown _ | binary _ (.compare _) _ _ | binary _ .and _ _
  | binary _ .or _ _ | binary _ .not _ _ | binary _ .neg _ _ | binary _ .unknown _ _
  | literal .. | var .. | nondet .. | foreign .. | missing => isTrue trivial

instance Exact.decidable (env : Env) (expr : Expr) : Decidable (expr.Exact env) :=
  inferInstanceAs (Decidable (∀ part ∈ expr.parts, part.Computes env))

instance Plain.decidable (expr : Expr) : Decidable expr.Plain :=
  decidable_of_iff (expr.defect? = none ∧ expr.usesUnknown = false ∧ expr.draws = false)
    ⟨fun all => ⟨all.1, all.2.1, all.2.2⟩,
      fun plain => ⟨plain.accepted, plain.meaningful, plain.quiet⟩⟩

instance Within.decidable (names : List String) (expr : Expr) : Decidable (expr.Within names) :=
  inferInstanceAs (Decidable (∀ name ∈ expr.vars, name ∈ names))

end Decidable

section Parts

variable {env : Env} {pos : Nat} {op : Operator} {operand left right : Expr}

theorem exact_unary : (unary pos op operand).Exact env ↔
    (unary pos op operand).Computes env ∧ operand.Exact env := by
  simp [Exact, parts]

theorem exact_binary : (binary pos op left right).Exact env ↔
    (binary pos op left right).Computes env ∧ left.Exact env ∧ right.Exact env := by
  simp only [Exact, parts, List.mem_cons, List.mem_append, or_imp, forall_and, forall_eq]

theorem Plain.unary (plain : (unary pos op operand).Plain) : op.isUnary = true ∧ operand.Plain := by
  obtain ⟨isUnary, accepted⟩ := defect?_unary plain.accepted
  refine ⟨isUnary, accepted, ?_, ?_⟩
  · rw [← plain.meaningful, usesUnknown_unary]
  · rw [← plain.quiet, draws_unary]

theorem Plain.binary (plain : (binary pos op left right).Plain) :
    op.isUnary = false ∧ op ≠ .unknown ∧ left.Plain ∧ right.Plain := by
  obtain ⟨isBinary, leftAccepted, rightAccepted⟩ := defect?_binary plain.accepted
  have meaningful := plain.meaningful
  have quiet := plain.quiet
  rw [usesUnknown_binary, Bool.or_eq_false_iff, Bool.or_eq_false_iff, decide_eq_false_iff_not]
    at meaningful
  rw [draws_binary, Bool.or_eq_false_iff] at quiet
  exact ⟨isBinary, meaningful.1.1, ⟨leftAccepted, meaningful.1.2, quiet.1⟩,
    rightAccepted, meaningful.2, quiet.2⟩

end Parts

/-- Evaluation gives a word and draws nothing, whatever has been drawn before. -/
def Gives (env : Env) (expr : Expr) (word : Int64) : Prop :=
  ∀ draw next, expr.eval draw env next = .ok (word, next)

theorem Gives.value {env : Env} {expr : Expr} {word : Int64} (gives : expr.Gives env word) :
    expr.value env = .ok word := by
  rw [Expr.value, gives]
  rfl

end Expr

namespace Bounds

/-- Bounds and values agree about some variables, and the bounds admit no other values of them. -/
def Pins (bounds : Bounds) (env : Env) (names : List String) : Prop :=
  ∀ name ∈ names, bounds.get name = .const (env.value name)

variable {bounds : Bounds} {env : Env} {names : List String} {pos : Nat} {op : Operator}
  {operand left right : Expr} {x y : Int64}

theorem eval_unary_const (isUnary : op.isUnary = true)
    (computes : (Expr.unary pos op operand).Computes env) (gives : operand.Gives env x)
    (isConst : bounds.eval operand = .const x) :
    ∃ word, (Expr.unary pos op operand).Gives env word ∧
      bounds.eval (.unary pos op operand) = .const word := by
  simp only [eval, isConst]
  cases op with
  | not =>
    refine ⟨truthWord (x == 0), ?_, Interval.not_const x⟩
    intro draw next
    simp [Expr.eval, gives draw next, bind, Except.bind]
  | neg =>
    refine ⟨-x, ?_, Interval.neg_const (computes x gives.value)⟩
    intro draw next
    simp [Expr.eval, gives draw next, bind, Except.bind]
  | _ => cases isUnary

theorem eval_binary_const (isBinary : op.isUnary = false) (meaningful : op ≠ .unknown)
    (computes : (Expr.binary pos op left right).Computes env)
    (gives : left.Gives env x) (isConst : bounds.eval left = .const x)
    (rightGives : right.Gives env y) (rightConst : bounds.eval right = .const y) :
    ∃ word, (Expr.binary pos op left right).Gives env word ∧
      bounds.eval (.binary pos op left right) = .const word := by
  simp only [eval, isConst, rightConst]
  cases op with
  | arith op =>
    obtain ⟨word, applied, computed⟩ :=
      Interval.arith_const (computes x gives.value y rightGives.value)
    refine ⟨word, ?_, computed⟩
    intro draw next
    simp [Expr.eval, gives draw next, rightGives draw next, Operator.apply, applied, bind,
      Except.bind]
  | compare op =>
    refine ⟨_, ?_, Interval.compare_const op x y⟩
    intro draw next
    simp [Expr.eval, gives draw next, rightGives draw next, Operator.apply, bind, Except.bind]
  | and =>
    refine ⟨_, ?_, Interval.and_const x y⟩
    intro draw next
    by_cases zero : x = 0
    · simp [Expr.eval, gives draw next, zero, truthWord, bind, Except.bind]
    · have nonzero : (x != 0) = true := bne_iff_ne.mpr zero
      simp [Expr.eval, gives draw next, rightGives draw next, zero, nonzero, bind, Except.bind]
  | or =>
    refine ⟨_, ?_, Interval.or_const x y⟩
    intro draw next
    by_cases zero : x = 0
    · simp [Expr.eval, gives draw next, rightGives draw next, zero, bind, Except.bind]
    · simp [Expr.eval, gives draw next, zero, truthWord, bind, Except.bind]
  | not | neg => cases isBinary
  | unknown => exact absurd rfl meaningful

/-- An expression over known values that neither overflows nor divides by zero has a known value. -/
theorem eval_const {expr : Expr} (plain : expr.Plain) (exact : expr.Exact env)
    (pins : bounds.Pins env expr.vars) :
    ∃ word, expr.Gives env word ∧ bounds.eval expr = .const word := by
  have within : expr.Within expr.vars := fun _ member => member
  revert within
  generalize expr.vars = names at pins
  intro within
  induction expr with
  | literal pos value => exact ⟨value, fun _ _ => rfl, rfl⟩
  | var pos name => exact ⟨env.value name, fun _ _ => rfl, pins name (Expr.within_var.mp within)⟩
  | nondet => cases plain.quiet
  | unary pos op operand induction =>
    obtain ⟨isUnary, operandPlain⟩ := plain.unary
    obtain ⟨computes, operandExact⟩ := Expr.exact_unary.mp exact
    obtain ⟨x, gives, isConst⟩ :=
      induction operandPlain operandExact (Expr.within_unary.mp within)
    exact eval_unary_const isUnary computes gives isConst
  | binary pos op left right leftInduction rightInduction =>
    obtain ⟨isBinary, meaningful, leftPlain, rightPlain⟩ := plain.binary
    obtain ⟨computes, leftExact, rightExact⟩ := Expr.exact_binary.mp exact
    obtain ⟨leftWithin, rightWithin⟩ := Expr.within_binary.mp within
    obtain ⟨x, gives, isConst⟩ := leftInduction leftPlain leftExact leftWithin
    obtain ⟨y, rightGives, rightConst⟩ := rightInduction rightPlain rightExact rightWithin
    exact eval_binary_const isBinary meaningful computes gives isConst rightGives rightConst
  | foreign | missing => cases plain.accepted

theorem pins_nil (bounds : Bounds) (env : Env) : bounds.Pins env [] := by
  simp [Pins]

theorem Pins.set (pins : bounds.Pins env names) (name : String) (word : Int64) :
    (bounds.set name (.const word)).Pins (env.insert name word) (name :: names) := by
  intro other member
  rw [get_set, Env.value_insert]
  by_cases same : other = name
  · rw [if_pos same, if_pos same]
  · rw [if_neg same, if_neg same]
    exact pins other ((List.mem_cons.mp member).resolve_left same)

end Bounds

end Reachability
