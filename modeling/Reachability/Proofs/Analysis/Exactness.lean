import Mathlib
import Reachability.Proofs.Analysis.Paths
import Reachability.Proofs.Bounds.Variables

/-!
# Exact bounds

Bounds are exact if every interval that they store is a single value.  What lies
inside exact bounds agrees on these values, so a join keeps them: merging tuples
inside an exact one leaves a tuple inside it.  For intervals that are not exact
this fails, because a join drops two different parts of them altogether.
-/

namespace Reachability

def Bounds.isExact (bounds : Bounds) : Bool :=
  bounds.ranges.entries.all fun (_, interval) => interval.isConst

def ComponentState.isExact : ComponentState → Bool
  | bounds known => known.isExact
  | _ => true

namespace Bounds

variable {wide new reached : Bounds} {name : String} {interval : Interval}

theorem get?_of_get (found : wide.get name = interval) (bounded : interval.isConst = true) :
    wide.ranges.get? name = some interval := by
  unfold get at found
  cases stored : wide.ranges.get? name with
  | none =>
    rw [stored, Option.getD_none] at found
    subst found
    exact absurd bounded (by decide)
  | some other =>
    rw [stored, Option.getD_some] at found
    rw [found]

theorem Inside.get?_eq (inside : new.Inside wide) (exact : wide.isExact = true)
    (stored : wide.ranges.get? name = some interval) : new.ranges.get? name = some interval := by
  have constant : interval.isConst = true :=
    List.all_eq_true.mp exact (name, interval) (NameMap.get?_eq_some_iff.mp stored)
  have within := inside name
  have isWide : wide.get name = interval := by
    unfold get
    rw [stored, Option.getD_some]
  rw [isWide] at within
  exact get?_of_get (within.eq_of_isConst constant) constant

theorem Inside.join_of_isExact (newInside : new.Inside wide) (reachedInside : reached.Inside wide)
    (exact : wide.isExact = true) : (new.join reached).Inside wide := by
  intro name
  cases stored : wide.ranges.get? name with
  | none =>
    have isTop : wide.get name = .top := by
      unfold get
      rw [stored, Option.getD_none]
    rw [isTop]
    apply Interval.Inside.top
    rcases get_join new reached name with same | isTop
    · rw [same]
      exact reachedInside.nonempty name
    · rw [isTop]
      exact Interval.nonempty_top
  | some interval =>
    have found := get?_join.mpr ⟨newInside.get?_eq exact stored, reachedInside.get?_eq exact stored⟩
    have kept := reachedInside name
    unfold get at kept ⊢
    rwa [found, ← reachedInside.get?_eq exact stored]

end Bounds

open ComponentState

section Tuples

variable {tuple wide new reached merged : List ComponentState}

theorem node_of_inside (inside : List.Forall₂ Inside tuple wide) :
    (tuple.findSome? node?).map Node.id = (wide.findSome? node?).map Node.id := by
  induction inside with
  | nil => rfl
  | cons here rest induction =>
    cases here with
    | location same => simp only [List.findSome?_cons, node?, Option.map_some, same]
    | bounds | call => simpa only [List.findSome?_cons, node?] using induction

theorem MergesAll.inside_of_isExact (merges : MergesAll new reached merged)
    (newInside : List.Forall₂ Inside new wide) (reachedInside : List.Forall₂ Inside reached wide)
    (exact : wide.all isExact = true) : List.Forall₂ Inside merged wide := by
  induction merges generalizing wide with
  | nil => exact reachedInside
  | cons here rest induction =>
    cases newInside with
    | cons newHere newRest =>
      cases reachedInside with
      | cons reachedHere reachedRest =>
        rw [List.all_cons, Bool.and_eq_true] at exact
        refine .cons ?_ (induction newRest reachedRest exact.2)
        cases here with
        | location | call => exact reachedHere
        | bounds _ joined =>
          cases newHere with
          | bounds newInside =>
            cases reachedHere with
            | bounds reachedInside =>
              rcases joined with rfl | rfl
              · exact .bounds reachedInside
              · exact .bounds (newInside.join_of_isExact reachedInside exact.1)

end Tuples

end Reachability
