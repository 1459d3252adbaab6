import Mathlib
import Reachability.Bounds.Stored
import Reachability.Proofs.Bounds.Inclusion
import Reachability.Proofs.Program.Variables

/-!
# Evaluation and refinement

The interval of an expression contains every value it may take, and refining
bounds by a condition loses no environment in which the condition holds.  What a
refinement gives up is described by one relation: there is no result, or the
bounds are returned as they are, or a narrower copy is returned, which differs in
variables of the condition only.  So the same bounds are returned exactly if
nothing has changed.
-/

namespace Reachability

theorem Interval.Inside.antisymm {inner outer : Interval} (inside : inner.Inside outer)
    (back : outer.Inside inner) : inner = outer := by
  rw [inside_iff] at inside back
  have low : inner.lo = outer.lo := Int64.toInt_inj.mp (by omega)
  have high : inner.hi = outer.hi := Int64.toInt_inj.mp (by omega)
  cases inner
  cases outer
  cases low
  cases high
  rfl

namespace Bounds

theorem Inside.trans {inner middle outer : Bounds} (narrow : inner.Inside middle)
    (wide : middle.Inside outer) : inner.Inside outer :=
  fun name => (narrow name).trans (wide name)

theorem Nonempty.eval {bounds : Bounds} (nonempty : bounds.Nonempty) (expr : Expr) :
    (bounds.eval expr).Nonempty :=
  ((Inside.refl nonempty).eval expr).1

theorem Nonempty.set {bounds : Bounds} (nonempty : bounds.Nonempty) (name : String)
    {interval : Interval} (inhabited : interval.Nonempty) :
    (bounds.set name interval).Nonempty := by
  intro key
  rw [get_set]
  split
  · exact inhabited
  · exact nonempty key

/-- Evaluation over bounds without empty intervals gives an interval that is not empty and contains
the value that the expression has in any environment within the bounds, whatever is drawn. -/
theorem eval_contains_values (bounds : Bounds) (expr : Expr) (nonempty : bounds.Nonempty) :
    (bounds.eval expr).Nonempty ∧
      ∀ (env : Env) (draw : Nat → Int64) (next after : Nat) (value : Int64), bounds.Admits env →
        expr.eval draw env next = .ok (value, after) → value ∈ bounds.eval expr := by
  refine ⟨nonempty.eval expr, ?_⟩
  intro env draw next after value admits evaluated
  exact mem_eval admits evaluated

/-- The least word divided by minus one is the least word again, and the interval of the quotient
contains it. -/
theorem eval_contains_values_wrapped :
    (unknown.set "x" ⟨Int64.minValue, -1⟩).Admits (NameMap.empty.insert "x" Int64.minValue) ∧
      Int64.minValue ∈ (unknown.set "x" ⟨Int64.minValue, -1⟩).eval
        (.binary 0 (.arith .quo) (.var 0 "x") (.literal 0 (-1))) := by
  have admits : (unknown.set "x" ⟨Int64.minValue, -1⟩).Admits
      (NameMap.empty.insert "x" Int64.minValue) := (admits_unknown _).set (by decide)
  refine ⟨admits, ?_⟩
  exact (eval_contains_values _ _ (nonempty_unknown.set "x" (by decide))).2 _ (fun _ => 0) 0 0 _
    admits rfl

end Bounds

namespace Stored

variable {names : List String} {stored : Stored} {free : Nat} {computed : Option (Stored × Nat)}
  {plain : Option Bounds}

/-- What a restriction makes of stored bounds, beside what it makes of bounds without address: it
has no result, it returns the bounds at their own address, or it returns narrower ones at an address
that was free.  The narrower ones differ in the given variables only, and in one of them at
least. -/
inductive Narrows (names : List String) (stored : Stored) (free : Nat) :
    Option (Stored × Nat) → Option Bounds → Prop where
  | infeasible : Narrows names stored free none none
  | kept : Narrows names stored free (some (stored, free)) (some stored.known)
  | copied {result : Stored} {next : Nat} (fresh : free ≤ result.address)
      (allocated : result.address < next) (inside : result.known.Inside stored.known)
      (changed : ∃ name, result.known.get name ≠ stored.known.get name)
      (elsewhere : ∀ name, name ∉ names → result.known.get name = stored.known.get name) :
      Narrows names stored free (some (result, next)) (some result.known)

/-- Narrower bounds stay different from the first ones when they are narrowed again. -/
theorem Narrows.bind {once : Storing Stored}
    (first : Narrows names stored free (once.run free) plain)
    (nonempty : stored.known.Nonempty) {again : Stored → Storing Stored}
    {againPlain : Bounds → Option Bounds}
    (second : ∀ (middle : Stored) (next : Nat), middle.known.Nonempty →
      Narrows names middle next ((again middle).run next) (againPlain middle.known)) :
    Narrows names stored free ((once >>= again).run free) (plain.bind againPlain) := by
  rw [StateT.run_bind]
  generalize once.run free = computed at first ⊢
  cases first with
  | infeasible => exact .infeasible
  | kept => exact second stored free nonempty
  | @copied result next fresh allocated inside changed elsewhere =>
    have later := second result next inside.nonempty
    rw [Option.bind_eq_bind, Option.bind_some, Option.bind_some]
    dsimp only
    generalize (again result).run next = computed at later ⊢
    generalize againPlain result.known = plain at later ⊢
    cases later with
    | infeasible => exact .infeasible
    | kept => exact .copied fresh allocated inside changed elsewhere
    | copied laterFresh laterAllocated laterInside _ laterElsewhere =>
      apply Narrows.copied
      · omega
      · exact laterAllocated
      · exact laterInside.trans inside
      · obtain ⟨name, different⟩ := changed
        refine ⟨name, ?_⟩
        intro same
        apply different
        apply (inside name).antisymm
        rw [← same]
        exact laterInside name
      · intro name other
        rw [laterElsewhere name other, elsewhere name other]

theorem narrows_restrict (nonempty : stored.known.Nonempty) {name : String} (known : name ∈ names)
    {other : Interval} (otherNonempty : other.Nonempty) (op : Comparison) :
    Narrows names stored free ((stored.restrict name op other).run free)
      (stored.known.restrict name op other) := by
  unfold restrict Bounds.restrict
  cases found : Bounds.restricted? op (stored.known.get name) other with
  | none => exact .infeasible
  | some interval =>
    rw [Option.map_some]
    change Narrows names stored free (StateT.run (ite _ _ _) free) _
    split
    · exact .kept
    · rename_i same
      obtain ⟨inhabited, ends⟩ := Bounds.ends_of_restricted? (nonempty name) otherNonempty found
      have within : interval.Inside (stored.known.get name) :=
        Interval.inside_of_bounds inhabited (ends _ (.inl rfl)).1 (ends _ (.inr rfl)).1
      apply Narrows.copied
      · exact Nat.le_refl free
      · exact Nat.lt_succ_self free
      · intro key
        rw [Bounds.get_set]
        split
        · rename_i here
          rw [here]
          exact within
        · exact .refl (nonempty key)
      · refine ⟨name, ?_⟩
        rw [Bounds.get_set, if_pos rfl]
        exact same
      · intro key elsewhere
        rw [Bounds.get_set, if_neg]
        intro here
        exact elsewhere (here ▸ known)

theorem narrows_restrictOperand (nonempty : stored.known.Nonempty) {operand : Expr}
    (within : operand.Within names) (op : Comparison) (other : Expr) :
    Narrows names stored free ((stored.restrictOperand operand op other).run free)
      (stored.known.restrictOperand operand op other) := by
  cases operand with
  | var pos name =>
    exact narrows_restrict nonempty (Expr.within_var.mp within) (nonempty.eval other) op
  | _ => exact .kept

theorem narrows_refineComparison (nonempty : stored.known.Nonempty) {left right : Expr}
    (leftWithin : left.Within names) (rightWithin : right.Within names) (op : Comparison) :
    Narrows names stored free ((stored.refineComparison op left right).run free)
      (stored.known.refineComparison op left right) := by
  unfold refineComparison Bounds.refineComparison
  apply (narrows_restrictOperand nonempty leftWithin op right).bind nonempty
  intro middle next middleNonempty
  apply (narrows_restrictOperand middleNonempty rightWithin op.swap left).bind middleNonempty
  intro last free lastNonempty
  split
  · exact .infeasible
  · exact .kept

theorem narrows_keepIf (cond : Expr) (truth : Bool) :
    Narrows names stored free ((stored.keepIf cond truth).run free)
      (stored.known.keepIf cond truth) := by
  unfold keepIf Bounds.keepIf
  dsimp only
  split
  · exact .infeasible
  · exact .kept

theorem narrows_refine (nonempty : stored.known.Nonempty) {cond : Expr} (within : cond.Within names)
    (truth : Bool) :
    Narrows names stored free ((stored.refine truth cond).run free)
      (stored.known.refine truth cond) := by
  induction cond generalizing stored free truth with
  | unary pos op operand induction =>
    unfold refine Bounds.refine
    split
    · exact induction nonempty (Expr.within_unary.mp within) (!truth)
    · exact narrows_keepIf _ truth
  | binary pos op left right leftInduction rightInduction =>
    obtain ⟨leftWithin, rightWithin⟩ := Expr.within_binary.mp within
    unfold refine Bounds.refine
    split
    · apply (leftInduction nonempty leftWithin truth).bind nonempty
      intro middle next middleNonempty
      exact rightInduction middleNonempty rightWithin truth
    · cases op.comparison? with
      | some op => exact narrows_refineComparison nonempty leftWithin rightWithin _
      | none => exact narrows_keepIf _ truth
  | var pos name =>
    exact narrows_restrict nonempty (Expr.within_var.mp within) (Int64.le_refl _) _
  | literal pos word | nondet pos source | foreign kind text
  | missing => exact narrows_keepIf _ truth

theorem narrows_assume (stored : Stored) (free : Nat) (nonempty : stored.known.Nonempty)
    (cond : Expr) :
    Narrows cond.vars stored free ((stored.assume cond).run free) (stored.known.assume cond) := by
  unfold assume Bounds.assume
  split
  · exact .infeasible
  · exact narrows_refine nonempty (fun _ member => member) true

theorem Narrows.known_eq (narrows : Narrows names stored free computed plain) :
    computed.map (fun found => found.1.known) = plain := by
  cases narrows <;> rfl

section Result

variable {result : Stored} {next : Nat}

section

variable (narrows : Narrows names stored free (some (result, next)) plain)

include narrows

theorem Narrows.inside (nonempty : stored.known.Nonempty) : result.known.Inside stored.known := by
  cases narrows with
  | kept => exact .refl nonempty
  | copied _ _ inside _ _ => exact inside

theorem Narrows.get_eq {name : String} (other : name ∉ names) :
    result.known.get name = stored.known.get name := by
  cases narrows with
  | kept => rfl
  | copied _ _ _ _ elsewhere => exact elsewhere name other

theorem Narrows.address_eq_iff (allocated : stored.address < free) :
    result.address = stored.address ↔ result.known = stored.known := by
  cases narrows with
  | kept => exact ⟨fun _ => rfl, fun _ => rfl⟩
  | copied fresh _ _ changed _ =>
    constructor
    · intro sameAddress
      omega
    · intro same
      obtain ⟨name, different⟩ := changed
      exact absurd (same ▸ rfl) different

end

end Result

end Stored

namespace Bounds

/-- Refinement by a condition is sound: an environment within the bounds in which the condition
holds is within the refined bounds.  It only narrows: the refined bounds have no empty interval, lie
inside the given ones and differ from them in variables of the condition only; they are the given
bounds themselves, at the same address, exactly if they are equal to them. -/
theorem assume_refines (bounds : Bounds) (cond : Expr) (address free : Nat)
    (nonempty : bounds.Nonempty) (allocated : address < free) :
    (∀ (env : Env) (draw : Nat → Int64) (next after : Nat) (value : Int64), bounds.Admits env →
      cond.eval draw env next = .ok (value, after) → value ≠ 0 →
        ∃ refined, bounds.assume cond = some refined ∧ refined.Admits env) ∧
    (((Stored.mk address bounds).assume cond).run free).map (fun found => found.1.known) =
      bounds.assume cond ∧
    ∀ (refined : Stored) (next : Nat),
      ((Stored.mk address bounds).assume cond).run free = some (refined, next) →
        refined.known.Nonempty ∧ bounds.includes refined.known = true ∧
        (∀ name, name ∉ cond.vars → refined.known.get name = bounds.get name) ∧
        (refined.address = address ↔ refined.known = bounds) := by
  have narrows : Stored.Narrows cond.vars ⟨address, bounds⟩ free
      (((Stored.mk address bounds).assume cond).run free) (bounds.assume cond) :=
    Stored.narrows_assume ⟨address, bounds⟩ free nonempty cond
  refine ⟨?_, narrows.known_eq, ?_⟩
  · intro env draw next after value admits evaluated holds
    exact admits.assume evaluated holds
  · intro refined next found
    rw [found] at narrows
    have inside := narrows.inside nonempty
    refine ⟨inside.nonempty, includes_iff.mpr fun name => (inside name).2, ?_,
      narrows.address_eq_iff allocated⟩
    intro name other
    exact narrows.get_eq other

/-- A condition that narrows a variable from above and then takes its least value away. -/
def narrowsTwice : Expr :=
  .binary 0 .and (.binary 0 (.compare .lt) (.var 0 "x") (.literal 0 5))
    (.unary 0 .not (.binary 0 (.compare .eq) (.literal 0 0) (.var 0 "x")))

/-- The value three is kept, and two copies are made on the way. -/
theorem assume_refines_narrowsTwice : ∃ refined : Stored,
    ((Stored.mk 0 (unknown.set "x" ⟨0, 10⟩)).assume narrowsTwice).run 1 = some (refined, 3) ∧
      refined.known.get "x" = ⟨1, 4⟩ ∧ refined.known.Nonempty ∧ refined.address ≠ 0 ∧
      refined.known.Admits (NameMap.empty.insert "x" 3) := by
  obtain ⟨sound, known, reduces⟩ := assume_refines (unknown.set "x" ⟨0, 10⟩) narrowsTwice 0 1
    (nonempty_unknown.set "x" (by decide)) (by decide)
  obtain ⟨refined, found, narrowed⟩ : ∃ refined : Stored,
      ((Stored.mk 0 (unknown.set "x" ⟨0, 10⟩)).assume narrowsTwice).run 1 = some (refined, 3) ∧
        refined.known.get "x" = ⟨1, 4⟩ := ⟨_, rfl, by decide⟩
  obtain ⟨nonempty, _, _, addresses⟩ := reduces refined 3 found
  refine ⟨refined, found, narrowed, nonempty, ?_, ?_⟩
  · intro same
    rw [addresses.mp same] at narrowed
    exact absurd narrowed (by decide)
  · obtain ⟨result, assumed, admits⟩ := sound (NameMap.empty.insert "x" 3) (fun _ => 0) 0 0 1
      ((admits_unknown _).set (by decide)) rfl (by decide)
    rw [found, assumed] at known
    cases known
    exact admits

end Bounds

end Reachability
