import Mathlib
import Reachability.Analysis.Component
import Reachability.Proofs.Execution.Evaluation
import Reachability.Proofs.Interval.Exactness
import Reachability.Proofs.Interval.Logic
import Reachability.Proofs.NameMap

/-!
# Soundness of evaluation over bounds

Bounds admit an environment if every variable has a value in its interval.
Evaluation over bounds contains every value an expression may take, and
restricting bounds by a condition keeps every environment in which the
condition holds.
-/

namespace Reachability.Bounds

/-- Every variable has a value within its bounds; variables without entry are zero. -/
def Admits (bounds : Bounds) (env : Env) : Prop :=
  ∀ name, env.value name ∈ bounds.get name

@[simp] theorem get_unknown (name : String) : unknown.get name = .top := rfl

theorem admits_unknown (env : Env) : unknown.Admits env := by
  intro name
  simp

theorem get_set (bounds : Bounds) (name key : String) (interval : Interval) :
    (bounds.set name interval).get key = if key = name then interval else bounds.get key := by
  unfold set get
  by_cases isTop : interval.isTop = true
  · rw [if_pos isTop, NameMap.get?_erase]
    split
    · exact (Interval.eq_top_of_isTop isTop).symm
    · rfl
  · rw [if_neg isTop, NameMap.get?_insert]
    split <;> rfl

theorem Admits.set {bounds : Bounds} {env : Env} (admits : bounds.Admits env) {name : String}
    {interval : Interval} {value : Int64} (member : value ∈ interval) :
    (bounds.set name interval).Admits (env.insert name value) := by
  intro key
  rw [get_set, Env.value_insert]
  split
  · exact member
  · exact admits key

theorem Admits.of_includes {outer inner : Bounds} {env : Env}
    (included : outer.includes inner = true) (admits : inner.Admits env) : outer.Admits env := by
  intro name
  unfold get
  cases found : outer.ranges.get? name with
  | none => exact Interval.mem_top _
  | some interval =>
    unfold includes at included
    rw [List.all_eq_true] at included
    have inside := included (name, interval) (NameMap.get?_eq_some_iff.mp found)
    exact Interval.mem_of_includes inside (admits name)

theorem get_join (first second : Bounds) (name : String) :
    (first.join second).get name = second.get name ∨ (first.join second).get name = .top := by
  unfold join get
  rw [NameMap.get?_filter]
  cases found : first.ranges.get? name with
  | none => exact .inr rfl
  | some interval =>
    rw [Option.filter_some]
    split
    · rename_i same
      rw [beq_iff_eq.mp same]
      exact .inl rfl
    · exact .inr rfl

theorem Admits.join_right {first second : Bounds} {env : Env} (admits : second.Admits env) :
    (first.join second).Admits env := by
  intro name
  rcases get_join first second name with same | isTop
  · rw [same]
    exact admits name
  · rw [isTop]
    exact Interval.mem_top _

variable {bounds : Bounds} {env : Env} {draw : Nat → Int64} {next after : Nat} {value : Int64}

private theorem mem_evalBinary_of_apply {op : Operator} {x y : Int64} {left right : Interval}
    (inLeft : x ∈ left) (inRight : y ∈ right) (applied : op.apply x y = .ok value) :
    value ∈ evalBinary op left right := by
  cases op with
  | arith op =>
    cases op with
    | add =>
      cases applied
      exact Interval.mem_add inLeft inRight
    | sub =>
      cases applied
      exact Interval.mem_sub inLeft inRight
    | mul =>
      cases applied
      exact Interval.mem_mul inLeft inRight
    | quo =>
      simp only [Operator.apply, Arithmetic.apply] at applied
      split at applied <;> cases applied
      exact Interval.mem_quo inLeft inRight
    | rem =>
      simp only [Operator.apply, Arithmetic.apply] at applied
      split at applied <;> cases applied
      exact Interval.mem_rem inLeft inRight
  | compare op =>
    cases applied
    exact Interval.mem_compare op inLeft inRight
  | and | or | not | neg | unknown => cases applied

theorem mem_eval (admits : bounds.Admits env) {expr : Expr}
    (evaluated : expr.eval draw env next = .ok (value, after)) : value ∈ bounds.eval expr := by
  induction expr generalizing next after value with
  | literal pos word =>
    cases evaluated
    exact Interval.mem_const.mpr rfl
  | var pos name =>
    cases evaluated
    exact admits name
  | nondet pos source => exact Interval.mem_top value
  | unary pos op operand operandSound =>
    obtain ⟨x, operandValue, result⟩ := Expr.eval_unary evaluated
    have member := operandSound operandValue
    rcases result with ⟨rfl, rfl⟩ | ⟨rfl, rfl⟩
    · exact Interval.mem_neg member
    · exact Interval.mem_not member
  | binary pos op left right leftSound rightSound =>
    obtain ⟨x, drawn, leftValue, result⟩ := Expr.eval_binary evaluated
    have inLeft := leftSound leftValue
    cases result with
    | andFalse zero => exact Interval.zero_mem_and (zero ▸ inLeft) _
    | andTrue nonzero rightValue =>
      have both := Interval.mem_and inLeft (rightSound rightValue)
      rwa [bne_iff_ne.mpr nonzero, Bool.true_and] at both
    | orTrue nonzero => exact Interval.one_mem_or inLeft nonzero _
    | orFalse zero rightValue =>
      have both := Interval.mem_or inLeft (rightSound rightValue)
      rwa [bne_eq_false_iff_eq.mpr zero, Bool.false_or] at both
    | strict rightValue applied =>
      exact mem_evalBinary_of_apply inLeft (rightSound rightValue) applied
  | foreign kind text | missing => cases evaluated

/-- Values that compare with a member of another interval survive the restriction by it. -/
theorem exists_restricted? {op : Comparison} {current other : Interval} {x y : Int64}
    (inCurrent : x ∈ current) (inOther : y ∈ other) (holds : op.holds x y = true) :
    ∃ interval, restricted? op current other = some interval ∧ x ∈ interval := by
  have xFits := fits_toInt x
  have yFits := fits_toInt y
  have loFits := fits_toInt other.lo
  have hiFits := fits_toInt other.hi
  have currentMember := Interval.mem_iff.mp inCurrent
  have otherMember := Interval.mem_iff.mp inOther
  simp only [Fits] at xFits yFits loFits hiFits
  cases op with
  | eq =>
    rw [Comparison.holds, beq_iff_eq] at holds
    subst holds
    exact Interval.exists_meet? inCurrent inOther
  | ne =>
    rw [Comparison.holds, bne_iff_ne, Ne, ← Int64.toInt_inj] at holds
    have currentLoFits := fits_toInt current.lo
    have currentHiFits := fits_toInt current.hi
    simp only [Fits] at currentLoFits currentHiFits
    simp only [restricted?]
    split
    · rename_i isConst
      have constant := Interval.eq_lo_of_isConst isConst inOther
      rw [constant] at holds
      split
      · rename_i single
        exfalso
        rw [single.1, single.2] at currentMember
        omega
      · split
        · rename_i atLow
          refine ⟨_, rfl, ?_⟩
          rw [atLow] at currentMember currentLoFits ⊢
          have fits : Fits (other.lo.toInt + 1) := by
            constructor <;> omega
          rw [Interval.mem_iff, Int64.toInt_add, Int64.toInt_one, fits.bmod_eq]
          exact ⟨by omega, currentMember.2⟩
        · split
          · rename_i atHigh
            refine ⟨_, rfl, ?_⟩
            rw [atHigh] at currentMember currentHiFits ⊢
            have fits : Fits (other.lo.toInt - 1) := by
              constructor <;> omega
            rw [Interval.mem_iff, Int64.toInt_sub, Int64.toInt_one, fits.bmod_eq]
            exact ⟨currentMember.1, by omega⟩
          · exact ⟨current, rfl, inCurrent⟩
    · exact ⟨current, rfl, inCurrent⟩
  | lt =>
    simp only [Comparison.holds, decide_eq_true_eq, Int64.lt_iff_toInt_lt] at holds
    simp only [restricted?]
    rw [if_neg]
    · have fits : Fits (other.hi.toInt - 1) := by
        constructor <;> omega
      apply Interval.exists_range? currentMember.1
      rw [Interval.toInt_min, Int64.toInt_sub, Int64.toInt_one, fits.bmod_eq]
      omega
    · rw [← Int64.toInt_inj, Int64.toInt_minValue]
      omega
  | le =>
    simp only [Comparison.holds, decide_eq_true_eq, Int64.le_iff_toInt_le] at holds
    apply Interval.exists_range? currentMember.1
    rw [Interval.toInt_min]
    omega
  | gt =>
    simp only [Comparison.holds, decide_eq_true_eq, gt_iff_lt, Int64.lt_iff_toInt_lt] at holds
    simp only [restricted?]
    rw [if_neg]
    · have fits : Fits (other.lo.toInt + 1) := by
        constructor <;> omega
      apply Interval.exists_range? _ currentMember.2
      rw [Interval.toInt_max, Int64.toInt_add, Int64.toInt_one, fits.bmod_eq]
      omega
    · rw [← Int64.toInt_inj, Int64.toInt_maxValue]
      omega
  | ge =>
    simp only [Comparison.holds, decide_eq_true_eq, ge_iff_le, Int64.le_iff_toInt_le] at holds
    apply Interval.exists_range? _ currentMember.2
    rw [Interval.toInt_max]
    omega

section

variable (admits : bounds.Admits env) {op : Comparison} {cond : Expr}

include admits

theorem Admits.narrow {name : String} {interval : Interval} (member : env.value name ∈ interval) :
    (bounds.set name interval).Admits env := by
  intro key
  rw [get_set]
  split
  · rename_i same
    rw [same]
    exact member
  · exact admits key

theorem Admits.restrict {name : String} {other : Interval} {y : Int64} (inOther : y ∈ other)
    (holds : op.holds (env.value name) y = true) :
    ∃ refined, bounds.restrict name op other = some refined ∧ refined.Admits env := by
  obtain ⟨interval, found, member⟩ := exists_restricted? (admits name) inOther holds
  unfold Bounds.restrict
  rw [found]
  refine ⟨_, rfl, ?_⟩
  dsimp only
  split
  · exact admits
  · exact admits.narrow member

theorem Admits.restrictOperand {operand other : Expr} {x y : Int64} {next' after' : Nat}
    (operandValue : operand.eval draw env next = .ok (x, after))
    (otherValue : other.eval draw env next' = .ok (y, after')) (holds : op.holds x y = true) :
    ∃ refined, bounds.restrictOperand operand op other = some refined ∧ refined.Admits env := by
  unfold Bounds.restrictOperand
  split
  · cases operandValue
    exact admits.restrict (mem_eval admits otherValue) holds
  · exact ⟨bounds, rfl, admits⟩

theorem Admits.refineComparison {left right : Expr} {x y : Int64} {next' after' : Nat}
    (leftValue : left.eval draw env next = .ok (x, after))
    (rightValue : right.eval draw env next' = .ok (y, after')) (holds : op.holds x y = true) :
    ∃ refined, bounds.refineComparison op left right = some refined ∧ refined.Admits env := by
  obtain ⟨first, firstFound, firstAdmits⟩ := admits.restrictOperand leftValue rightValue holds
  obtain ⟨second, secondFound, secondAdmits⟩ :=
    firstAdmits.restrictOperand rightValue leftValue ((op.holds_swap x y).trans holds)
  refine ⟨second, ?_, secondAdmits⟩
  have member := Interval.mem_compare op (mem_eval secondAdmits leftValue)
    (mem_eval secondAdmits rightValue)
  have possible :
      (Interval.compare op (second.eval left) (second.eval right)).isFalse = false := by
    rw [Bool.eq_false_iff]
    intro isFalse
    exact truthWord_ne_zero_iff.mpr holds (Interval.eq_zero_of_isFalse isFalse member)
  simp [Bounds.refineComparison, firstFound, secondFound, possible]

theorem Admits.keepIf {truth : Bool} (evaluated : cond.eval draw env next = .ok (value, after))
    (agrees : (value != 0) = truth) : bounds.keepIf cond truth = some bounds := by
  have member := mem_eval admits evaluated
  unfold Bounds.keepIf
  rw [if_neg]
  simp only [Bool.or_eq_true, Bool.and_eq_true, Bool.not_eq_true']
  rintro (⟨rfl, isFalse⟩ | ⟨rfl, isTrue⟩)
  · exact bne_iff_ne.mp agrees (Interval.eq_zero_of_isFalse isFalse member)
  · exact Interval.ne_zero_of_isTrue isTrue member (bne_eq_false_iff_eq.mp agrees)

/-- Restricting bounds to a truth value of a condition keeps the environments where it has that
value. -/
theorem Admits.refine {truth : Bool} (evaluated : cond.eval draw env next = .ok (value, after))
    (agrees : (value != 0) = truth) :
    ∃ refined, bounds.refine truth cond = some refined ∧ refined.Admits env := by
  induction cond generalizing bounds truth next after value with
  | unary pos op operand operandSound =>
    unfold Bounds.refine
    split
    · rename_i negated
      subst negated
      obtain ⟨x, operandValue, result⟩ := Expr.eval_unary evaluated
      rcases result with ⟨impossible, _⟩ | ⟨_, rfl⟩
      · cases impossible
      · apply operandSound admits operandValue
        rw [← agrees]
        by_cases zero : x = 0 <;> simp [zero, truthWord]
    · exact ⟨bounds, admits.keepIf evaluated agrees, admits⟩
  | binary pos op left right leftSound rightSound =>
    obtain ⟨x, drawn, leftValue, result⟩ := Expr.eval_binary evaluated
    unfold Bounds.refine
    split
    · rename_i both
      have operands : (x != 0) = truth ∧
          ∃ y, right.eval draw env drawn = .ok (y, after) ∧ (y != 0) = truth := by
        rcases both with ⟨rfl, rfl⟩ | ⟨rfl, rfl⟩
        · cases result with
          | andFalse zero => cases agrees
          | andTrue nonzero rightValue =>
            refine ⟨bne_iff_ne.mpr nonzero, _, rightValue, ?_⟩
            exact truthWord_ne_zero_iff.mp (bne_iff_ne.mp agrees)
          | strict rightValue applied => cases applied
        · cases result with
          | orTrue nonzero => cases agrees
          | orFalse zero rightValue =>
            refine ⟨bne_eq_false_iff_eq.mpr zero, _, rightValue, ?_⟩
            exact truthWord_eq_zero_iff.mp (bne_eq_false_iff_eq.mp agrees)
          | strict rightValue applied => cases applied
      obtain ⟨leftAgrees, y, rightValue, rightAgrees⟩ := operands
      obtain ⟨first, firstFound, firstAdmits⟩ := leftSound admits leftValue leftAgrees
      rw [firstFound]
      exact rightSound firstAdmits rightValue rightAgrees
    · split
      · rename_i comparison found
        have compared : op = .compare comparison := by
          cases op <;> cases found
          rfl
        subst compared
        cases result with
        | strict rightValue applied =>
          cases applied
          apply admits.refineComparison leftValue rightValue
          cases truth
          · rw [bne_eq_false_iff_eq, truthWord_eq_zero_iff] at agrees
            simp [Comparison.holds_negate, agrees]
          · rw [bne_iff_ne, truthWord_ne_zero_iff] at agrees
            simpa using agrees
      · exact ⟨bounds, admits.keepIf evaluated agrees, admits⟩
  | var pos name =>
    cases evaluated
    unfold Bounds.refine
    apply admits.restrict (Interval.mem_const.mpr rfl)
    cases truth
    · exact beq_iff_eq.mpr (bne_eq_false_iff_eq.mp agrees)
    · exact agrees
  | literal pos word | nondet pos source => exact ⟨bounds, admits.keepIf evaluated agrees, admits⟩
  | foreign kind text | missing => cases evaluated

theorem Admits.assume (evaluated : cond.eval draw env next = .ok (value, after))
    (holds : value ≠ 0) : ∃ refined, bounds.assume cond = some refined ∧ refined.Admits env := by
  unfold Bounds.assume
  rw [if_neg]
  · exact admits.refine evaluated (bne_iff_ne.mpr holds)
  · intro isFalse
    exact holds (Interval.eq_zero_of_isFalse isFalse (mem_eval admits evaluated))

end

end Reachability.Bounds
