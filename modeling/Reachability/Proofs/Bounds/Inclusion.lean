import Mathlib
import Reachability.Proofs.Bounds.Soundness
import Reachability.Proofs.Interval.Inclusion

/-!
# Monotonicity of evaluation over bounds

Bounds lie inside others if every variable has an interval that is not empty and
lies inside the other one.  Whatever an action leaves of the narrow bounds lies
inside what it leaves of the wide ones, so wide bounds can follow wherever
narrow ones lead.
-/

namespace Reachability.Bounds

def Nonempty (bounds : Bounds) : Prop := ∀ name, (bounds.get name).Nonempty

def Inside (inner outer : Bounds) : Prop := ∀ name, (inner.get name).Inside (outer.get name)

variable {inner outer narrow : Bounds} {interval other : Interval} {op : Comparison}

theorem Inside.nonempty (inside : inner.Inside outer) : inner.Nonempty :=
  fun name => (inside name).1

theorem Inside.refl (nonempty : inner.Nonempty) : inner.Inside inner :=
  fun name => .refl (nonempty name)

theorem nonempty_unknown : unknown.Nonempty := by
  intro name
  exact Interval.nonempty_top

/-- Only stored intervals are compared, because all others contain everything. -/
theorem includes_iff : outer.includes inner = true ↔
    ∀ name, (outer.get name).includes (inner.get name) = true := by
  unfold includes
  rw [List.all_eq_true]
  constructor
  · intro stored name
    unfold get
    cases found : outer.ranges.get? name with
    | none => exact Interval.includes_top _
    | some interval => exact stored (name, interval) (NameMap.get?_eq_some_iff.mp found)
  · rintro included ⟨name, interval⟩ member
    have included := included name
    unfold get at included
    rw [NameMap.get?_eq_some_iff.mpr member] at included
    exact included

theorem Inside.of_includes {middle : Bounds} (inside : inner.Inside middle)
    (included : outer.includes middle = true) : inner.Inside outer := by
  rw [includes_iff] at included
  intro name
  have wide : (middle.get name).Inside (outer.get name) :=
    ⟨Interval.nonempty_of_mem ((inside name).mem (inside name).lo_mem), included name⟩
  exact Interval.Inside.trans (inside name) wide

theorem Inside.join {new : Bounds} (inside : inner.Inside outer) :
    inner.Inside (new.join outer) := by
  intro name
  rcases get_join new outer name with same | isTop
  · rw [same]
    exact inside name
  · rw [isTop]
    exact .top (inside name).1

theorem Inside.set (inside : inner.Inside outer) (name : String) {wider : Interval}
    (within : interval.Inside wider) : (inner.set name interval).Inside (outer.set name wider) := by
  intro key
  rw [get_set, get_set]
  split
  · exact within
  · exact inside key

theorem inside_evalBinary (op : Operator) {first second first' second' : Interval}
    (left : first.Inside first') (right : second.Inside second') :
    (evalBinary op first second).Inside (evalBinary op first' second') := by
  cases op with
  | arith op => exact left.arith right op
  | compare op => exact left.compare right op
  | and => exact left.and right
  | or => exact left.or right
  | not | neg | unknown => exact .refl Interval.nonempty_top

theorem inside_evalUnary (op : Operator) {operand wider : Interval}
    (inside : operand.Inside wider) : (evalUnary op operand).Inside (evalUnary op wider) := by
  cases op with
  | neg => exact inside.neg
  | not => exact inside.not
  | arith | compare | and | or | unknown => exact .refl Interval.nonempty_top

theorem Inside.eval (inside : inner.Inside outer) (expr : Expr) :
    (inner.eval expr).Inside (outer.eval expr) := by
  induction expr with
  | literal pos value => exact .refl (Int64.le_refl _)
  | var pos name => exact inside name
  | unary pos op operand induction => exact inside_evalUnary op induction
  | binary pos op left right leftInside rightInside =>
    exact inside_evalBinary op leftInside rightInside
  | nondet | foreign | missing => exact .refl Interval.nonempty_top

private theorem toInt_pred {word : Int64} (above : word ≠ Int64.minValue) :
    (word - 1).toInt = word.toInt - 1 := by
  have fits := fits_toInt word
  rw [Ne, ← Int64.toInt_inj, Int64.toInt_minValue] at above
  simp only [Fits] at fits
  have fits : Fits (word.toInt - 1) := by
    constructor <;> omega
  rw [Int64.toInt_sub, Int64.toInt_one, fits.bmod_eq]

private theorem toInt_succ {word : Int64} (below : word ≠ Int64.maxValue) :
    (word + 1).toInt = word.toInt + 1 := by
  have fits := fits_toInt word
  rw [Ne, ← Int64.toInt_inj, Int64.toInt_maxValue] at below
  simp only [Fits] at fits
  have fits : Fits (word.toInt + 1) := by
    constructor <;> omega
  rw [Int64.toInt_add, Int64.toInt_one, fits.bmod_eq]

/-- What holds of all words between two bounds holds of both ends of their interval. -/
private theorem ends_of_range? {lo hi : Int64} {Holds : Int64 → Prop}
    (found : Interval.range? lo hi = some interval)
    (between : ∀ x : Int64, lo.toInt ≤ x.toInt → x.toInt ≤ hi.toInt → Holds x) :
    interval.Nonempty ∧ ∀ x, x = interval.lo ∨ x = interval.hi → Holds x := by
  obtain ⟨fits, rfl⟩ := Interval.range?_eq_some_iff.mp found
  refine ⟨Int64.le_iff_toInt_le.mpr fits, ?_⟩
  rintro x (rfl | rfl)
  · exact between _ (Int.le_refl _) fits
  · exact between _ fits (Int.le_refl _)

private theorem ends_of_restricted?_ne {current : Interval} (nonempty : current.Nonempty)
    (isConst : other.isConst = true) (found : restricted? .ne current other = some interval) :
    interval.Nonempty ∧ ∀ x, x = interval.lo ∨ x = interval.hi → x ∈ current ∧ x ≠ other.lo := by
  have ordered := Int64.le_iff_toInt_le.mp nonempty
  simp only [restricted?, isConst, if_true] at found
  simp only [Interval.Nonempty, Interval.mem_iff, Int64.le_iff_toInt_le, Ne, ← Int64.toInt_inj]
  split at found
  · cases found
  · rename_i several
    simp only [← Int64.toInt_inj] at several
    split at found
    · rename_i atLow
      have before : current.lo ≠ Int64.maxValue := by
        intro isLast
        have last := Int64.le_iff_toInt_le.mp current.hi.le_maxValue
        rw [← atLow, isLast] at several
        rw [isLast] at ordered
        omega
      cases found
      simp only [toInt_succ before]
      rw [← Int64.toInt_inj] at atLow
      constructor
      · omega
      · intro x isEnd
        omega
    · rename_i notLow
      rw [← Int64.toInt_inj] at notLow
      split at found
      · rename_i atHigh
        have after : current.hi ≠ Int64.minValue := by
          intro isFirst
          have first := Int64.le_iff_toInt_le.mp current.lo.minValue_le
          rw [← atHigh, isFirst] at notLow
          rw [isFirst] at ordered
          omega
        cases found
        simp only [toInt_pred after]
        rw [← Int64.toInt_inj] at atHigh
        constructor
        · omega
        · intro x isEnd
          omega
      · rename_i notHigh
        rw [← Int64.toInt_inj] at notHigh
        cases found
        constructor
        · omega
        · intro x isEnd
          omega

/-- Both ends of what is left of an interval are members that compare with some member of the other
one. -/
theorem ends_of_restricted? {current : Interval} (nonempty : current.Nonempty)
    (otherNonempty : other.Nonempty) (found : restricted? op current other = some interval) :
    interval.Nonempty ∧ ∀ x, x = interval.lo ∨ x = interval.hi →
      x ∈ current ∧ ∃ y ∈ other, op.holds x y = true := by
  have low : other.lo ∈ other := ⟨Int64.le_refl _, otherNonempty⟩
  have high : other.hi ∈ other := ⟨otherNonempty, Int64.le_refl _⟩
  cases op with
  | eq =>
    apply ends_of_range? found
    intro x above below
    rw [Interval.toInt_max] at above
    rw [Interval.toInt_min] at below
    refine ⟨Interval.mem_iff.mpr (by omega), x, Interval.mem_iff.mpr (by omega), ?_⟩
    exact beq_iff_eq.mpr rfl
  | ne =>
    cases isConst : other.isConst with
    | true =>
      obtain ⟨inhabited, ends⟩ := ends_of_restricted?_ne nonempty isConst found
      refine ⟨inhabited, ?_⟩
      intro x isEnd
      exact ⟨(ends x isEnd).1, _, low, bne_iff_ne.mpr (ends x isEnd).2⟩
    | false =>
      simp only [restricted?, isConst, Bool.false_eq_true, if_false] at found
      cases found
      refine ⟨nonempty, ?_⟩
      intro x isEnd
      constructor
      · rcases isEnd with rfl | rfl
        · exact ⟨Int64.le_refl _, nonempty⟩
        · exact ⟨nonempty, Int64.le_refl _⟩
      · by_cases same : x = other.lo
        · refine ⟨other.hi, high, bne_iff_ne.mpr ?_⟩
          rw [same]
          exact beq_eq_false_iff_ne.mp isConst
        · exact ⟨other.lo, low, bne_iff_ne.mpr same⟩
  | lt =>
    simp only [restricted?] at found
    split at found
    · cases found
    · rename_i notLeast
      apply ends_of_range? found
      intro x above below
      rw [Interval.toInt_min, toInt_pred notLeast] at below
      refine ⟨Interval.mem_iff.mpr (by omega), _, high, ?_⟩
      simp only [Comparison.holds, decide_eq_true_eq, Int64.lt_iff_toInt_lt]
      omega
  | le =>
    apply ends_of_range? found
    intro x above below
    rw [Interval.toInt_min] at below
    refine ⟨Interval.mem_iff.mpr (by omega), _, high, ?_⟩
    simp only [Comparison.holds, decide_eq_true_eq, Int64.le_iff_toInt_le]
    omega
  | gt =>
    simp only [restricted?] at found
    split at found
    · cases found
    · rename_i notGreatest
      apply ends_of_range? found
      intro x above below
      rw [Interval.toInt_max, toInt_succ notGreatest] at above
      refine ⟨Interval.mem_iff.mpr (by omega), _, low, ?_⟩
      simp only [Comparison.holds, decide_eq_true_eq, gt_iff_lt, Int64.lt_iff_toInt_lt]
      omega
  | ge =>
    apply ends_of_range? found
    intro x above below
    rw [Interval.toInt_max] at above
    refine ⟨Interval.mem_iff.mpr (by omega), _, low, ?_⟩
    simp only [Comparison.holds, decide_eq_true_eq, ge_iff_le, Int64.le_iff_toInt_le]
    omega

/-- The ends of the narrow interval survive in the wide one, and with them all that lies between. -/
theorem inside_restricted? {current current' other' : Interval} (inside : current.Inside current')
    (otherInside : other.Inside other') (found : restricted? op current other = some interval) :
    ∃ wider, restricted? op current' other' = some wider ∧ interval.Inside wider := by
  obtain ⟨nonempty, ends⟩ := ends_of_restricted? inside.1 otherInside.1 found
  have survives : ∀ x, x = interval.lo ∨ x = interval.hi →
      ∃ wider, restricted? op current' other' = some wider ∧ x ∈ wider := by
    intro x isEnd
    obtain ⟨member, y, otherMember, holds⟩ := ends x isEnd
    exact exists_restricted? (inside.mem member) (otherInside.mem otherMember) holds
  obtain ⟨wider, widerFound, low⟩ := survives _ (.inl rfl)
  obtain ⟨same, sameFound, high⟩ := survives _ (.inr rfl)
  rw [widerFound, Option.some.injEq] at sameFound
  subst sameFound
  exact ⟨wider, widerFound, Interval.inside_of_bounds nonempty low high⟩

theorem get_restrict {name : String} {bounds refined : Bounds}
    (found : bounds.restrict name op other = some refined) :
    ∃ interval, restricted? op (bounds.get name) other = some interval ∧
      ∀ key, refined.get key = if key = name then interval else bounds.get key := by
  obtain ⟨interval, restricted, rfl⟩ := Option.map_eq_some_iff.mp found
  refine ⟨interval, restricted, ?_⟩
  intro key
  split
  · rename_i unchanged
    split
    · rename_i same
      rw [same, unchanged]
    · rfl
  · exact get_set bounds name key interval

section

variable (inside : inner.Inside outer) {cond : Expr}

include inside

theorem Inside.restrict {name : String} {other other' : Interval}
    (otherInside : other.Inside other') (found : inner.restrict name op other = some narrow) :
    ∃ wide, outer.restrict name op other' = some wide ∧ narrow.Inside wide := by
  obtain ⟨interval, restricted, narrowGet⟩ := get_restrict found
  obtain ⟨wider, widerRestricted, within⟩ :=
    inside_restricted? (inside name) otherInside restricted
  obtain ⟨wide, wideFound⟩ : ∃ wide, outer.restrict name op other' = some wide := by
    simp [Bounds.restrict, widerRestricted]
  obtain ⟨interval', restricted', wideGet⟩ := get_restrict wideFound
  rw [widerRestricted, Option.some.injEq] at restricted'
  subst restricted'
  refine ⟨wide, wideFound, ?_⟩
  intro key
  rw [narrowGet, wideGet]
  split
  · exact within
  · exact inside key

theorem Inside.restrictOperand {operand other : Expr}
    (found : inner.restrictOperand operand op other = some narrow) :
    ∃ wide, outer.restrictOperand operand op other = some wide ∧ narrow.Inside wide := by
  unfold Bounds.restrictOperand at found ⊢
  split at found
  · exact inside.restrict (inside.eval other) found
  · cases found
    exact ⟨outer, rfl, inside⟩

theorem Inside.refineComparison {left right : Expr}
    (found : inner.refineComparison op left right = some narrow) :
    ∃ wide, outer.refineComparison op left right = some wide ∧ narrow.Inside wide := by
  unfold Bounds.refineComparison at found
  obtain ⟨first, firstFound, found⟩ := Option.bind_eq_some_iff.mp found
  obtain ⟨second, secondFound, found⟩ := Option.bind_eq_some_iff.mp found
  split at found
  · cases found
  · rename_i possible
    cases found
    obtain ⟨wideFirst, wideFirstFound, firstInside⟩ := inside.restrictOperand firstFound
    obtain ⟨wide, wideFound, narrowInside⟩ := firstInside.restrictOperand secondFound
    refine ⟨wide, ?_, narrowInside⟩
    have widePossible :
        (Interval.compare op (wide.eval left) (wide.eval right)).isFalse ≠ true := by
      intro isFalse
      apply possible
      exact Interval.Inside.isFalse
        ((narrowInside.eval left).compare (narrowInside.eval right) op) isFalse
    simp [Bounds.refineComparison, wideFirstFound, wideFound, widePossible]

theorem Inside.keepIf {truth : Bool} (found : inner.keepIf cond truth = some narrow) :
    ∃ wide, outer.keepIf cond truth = some wide ∧ narrow.Inside wide := by
  unfold Bounds.keepIf at found ⊢
  dsimp only at found ⊢
  split at found
  · cases found
  · rename_i possible
    cases found
    refine ⟨outer, if_neg ?_, inside⟩
    intro impossible
    apply possible
    rw [Bool.or_eq_true, Bool.and_eq_true, Bool.and_eq_true] at impossible ⊢
    exact impossible.imp (And.imp_right (inside.eval cond).isFalse)
      (And.imp_right (inside.eval cond).isTrue)

theorem Inside.refine {truth : Bool} (found : inner.refine truth cond = some narrow) :
    ∃ wide, outer.refine truth cond = some wide ∧ narrow.Inside wide := by
  induction cond generalizing inner outer narrow truth with
  | unary pos op operand induction =>
    unfold Bounds.refine at found ⊢
    split at found
    · rename_i negated
      rw [if_pos negated]
      exact induction inside found
    · rename_i other
      rw [if_neg other]
      exact inside.keepIf found
  | binary pos op left right leftInduction rightInduction =>
    unfold Bounds.refine at found ⊢
    split at found
    · rename_i both
      obtain ⟨first, firstFound, found⟩ := Option.bind_eq_some_iff.mp found
      obtain ⟨wideFirst, wideFirstFound, firstInside⟩ := leftInduction inside firstFound
      rw [if_pos both, wideFirstFound]
      exact rightInduction firstInside found
    · rename_i other
      rw [if_neg other]
      split at found
      · exact inside.refineComparison found
      · exact inside.keepIf found
  | var pos name =>
    unfold Bounds.refine at found ⊢
    exact inside.restrict (.refl (Int64.le_refl _)) found
  | literal pos word | nondet pos source | foreign kind text | missing => exact inside.keepIf found

theorem Inside.assume (found : inner.assume cond = some narrow) :
    ∃ wide, outer.assume cond = some wide ∧ narrow.Inside wide := by
  unfold Bounds.assume at found ⊢
  split at found
  · cases found
  · rename_i possible
    rw [if_neg fun isFalse => possible ((inside.eval cond).isFalse isFalse)]
    exact inside.refine found

theorem Inside.after {action : Action} (found : inner.after action = some narrow) :
    ∃ wide, outer.after action = some wide ∧ narrow.Inside wide := by
  cases action with
  | assign var value =>
    cases found
    exact ⟨_, rfl, inside.set var (inside.eval value)⟩
  | assume cond truth => exact inside.assume found
  | call result callee args =>
    cases found
    refine ⟨_, rfl, ?_⟩
    split
    · exact inside
    · exact inside.set result (.refl Interval.nonempty_top)
  | blank description =>
    cases found
    exact ⟨outer, rfl, inside⟩

theorem Inside.includes : outer.includes inner = true :=
  includes_iff.mpr fun name => (inside name).2

end

/-- A state that covers another one follows it along every edge and covers it there again.  The same
holds of the values of an expression and of what an assumption leaves. -/
theorem transfer_monotone (policy : MergePolicy) (wide narrow : Bounds) (nonempty : narrow.Nonempty)
    (included : wide.includes narrow = true) :
    (∀ edge, (Analysis.values policy).transfer (.bounds narrow) edge ≠ [] →
      ∃ inner outer, (Analysis.values policy).transfer (.bounds narrow) edge = [.bounds inner] ∧
        (Analysis.values policy).transfer (.bounds wide) edge = [.bounds outer] ∧
        outer.includes inner = true ∧ inner.Nonempty) ∧
    (∀ expr, (wide.eval expr).includes (narrow.eval expr) = true) ∧
    ∀ cond inner, narrow.assume cond = some inner →
      ∃ outer, wide.assume cond = some outer ∧ outer.includes inner = true := by
  have inside : narrow.Inside wide := (Inside.refl nonempty).of_includes included
  refine ⟨?_, ?_, ?_⟩
  · intro edge follows
    cases found : narrow.after edge.action with
    | none => simp [Analysis.values, found] at follows
    | some inner =>
      obtain ⟨outer, wideFound, within⟩ := inside.after found
      refine ⟨inner, outer, ?_, ?_, within.includes, within.nonempty⟩
      · simp [Analysis.values, found]
      · simp [Analysis.values, wideFound]
  · intro expr
    exact (inside.eval expr).2
  · intro cond inner found
    obtain ⟨outer, wideFound, within⟩ := inside.assume found
    exact ⟨outer, wideFound, within.includes⟩

/-- A variable that is not zero and leaves a remainder below another one. -/
def remainderBelow : Edge :=
  { id := 0, source := 0, target := 1
    action := .assume (.binary 0 .and
      (.binary 0 (.compare .ne) (.var 0 "x") (.literal 0 0))
      (.binary 0 (.compare .lt) (.binary 0 (.arith .rem) (.var 0 "x") (.literal 0 3)) (.var 0 "y")))
      true }

theorem transfer_monotone_remainderBelow :
    ((unknown.set "x" (.const 5)).set "y" ⟨0, 7⟩).Nonempty ∧
      (unknown.set "x" ⟨0, 9⟩).includes ((unknown.set "x" (.const 5)).set "y" ⟨0, 7⟩) = true ∧
      ∃ inner outer,
        (Analysis.values .join).transfer (.bounds ((unknown.set "x" (.const 5)).set "y" ⟨0, 7⟩))
          remainderBelow = [.bounds inner] ∧
        (Analysis.values .join).transfer (.bounds (unknown.set "x" ⟨0, 9⟩)) remainderBelow =
          [.bounds outer] ∧
        inner.text = "\x7bx: 5, y: [3, 7]\x7d" ∧ outer.includes inner = true := by
  have nonempty : ((unknown.set "x" (.const 5)).set "y" ⟨0, 7⟩).Nonempty :=
    (((Inside.refl nonempty_unknown).set "x"
      (.refl (by decide))).set "y" (.refl (by decide))).nonempty
  have included : (unknown.set "x" ⟨0, 9⟩).includes
      ((unknown.set "x" (.const 5)).set "y" ⟨0, 7⟩) = true := by cbv
  have left : (((unknown.set "x" (.const 5)).set "y" ⟨0, 7⟩).after remainderBelow.action).map text =
      some "\x7bx: 5, y: [3, 7]\x7d" := by cbv
  obtain ⟨known, isKnown, shown⟩ := Option.map_eq_some_iff.mp left
  have follows : (Analysis.values .join).transfer
      (.bounds ((unknown.set "x" (.const 5)).set "y" ⟨0, 7⟩)) remainderBelow = [.bounds known] := by
    simp [Analysis.values, isKnown]
  obtain ⟨transfers, _, _⟩ := transfer_monotone .join _ _ nonempty included
  obtain ⟨inner, outer, isInner, isOuter, covers, _⟩ :=
    transfers remainderBelow (follows ▸ List.cons_ne_nil _ _)
  rw [follows, List.cons.injEq, ComponentState.bounds.injEq] at isInner
  obtain ⟨rfl, _⟩ := isInner
  exact ⟨nonempty, included, known, outer, follows, isOuter, shown, covers⟩

end Reachability.Bounds
