import Mathlib
import Reachability.NameMap

/-!
# Look-ups in maps keyed by names

The entries of a map are exactly the pairs found by look-ups, so an operation
that keeps some of the entries is described by the look-ups that survive it.
-/

namespace Reachability.NameMap

variable {α : Type u} {name : String} {value : α}

private theorem lookup_eq_some_iff {entries : List (String × α)}
    (distinct : (entries.map Prod.fst).Nodup) :
    entries.lookup name = some value ↔ (name, value) ∈ entries := by
  induction entries with
  | nil => simp
  | cons head tail induction =>
    obtain ⟨first, old⟩ := head
    rw [List.map_cons, List.nodup_cons] at distinct
    by_cases same : name = first
    · subst same
      rw [List.lookup_cons_self]
      simp only [Option.some.injEq, List.mem_cons, Prod.mk.injEq, true_and]
      constructor
      · intro equal
        exact .inl equal.symm
      · rintro (equal | later)
        · exact equal.symm
        · exact absurd (List.mem_map_of_mem later) distinct.1
    · rw [List.lookup_cons, beq_eq_false_iff_ne.mpr same]
      simp only [induction distinct.2, List.mem_cons, Prod.mk.injEq, same, false_and, false_or]

theorem get?_eq_some_iff {map : NameMap α} :
    map.get? name = some value ↔ (name, value) ∈ map.entries :=
  lookup_eq_some_iff (map.sorted.imp fun before => String.ne_of_lt before)

theorem ext_get? {first second : NameMap α} (same : ∀ name, first.get? name = second.get? name) :
    first = second := by
  have ordered : ∀ map : NameMap α, map.entries.Pairwise fun before after => before.1 < after.1 :=
    fun map => List.pairwise_map.mp map.sorted
  have distinct : ∀ map : NameMap α, map.entries.Nodup := by
    intro map
    apply (ordered map).imp
    rintro before _ less rfl
    exact String.lt_irrefl _ less
  have listed : first.entries.Perm second.entries := by
    rw [List.perm_ext_iff_of_nodup (distinct first) (distinct second)]
    intro entry
    rw [← get?_eq_some_iff, ← get?_eq_some_iff, same]
  have entries : first.entries = second.entries := by
    apply listed.eq_of_pairwise _ (ordered first) (ordered second)
    intro before after _ _ less greater
    exact absurd (String.lt_trans less greater) (String.lt_irrefl _)
  cases first
  cases second
  cases entries
  rfl

@[simp] theorem get?_filter (map : NameMap α) (keep : String → α → Bool) (name : String) :
    (map.filter keep).get? name = (map.get? name).filter (keep name) := by
  apply Option.ext
  intro value
  rw [get?_eq_some_iff, Option.filter_eq_some_iff, get?_eq_some_iff]
  exact List.mem_filter

@[simp] theorem get?_erase (map : NameMap α) (name key : String) :
    (map.erase name).get? key = if key = name then none else map.get? key := by
  rw [erase, get?_filter]
  by_cases same : key = name
  · simp [same]
  · have different : (key != name) = true := by simpa using same
    rw [if_neg same, different]
    cases map.get? key <;> rfl

theorem mem_of_get?_ofList {entries : List (String × α)}
    (found : (ofList entries).get? name = some value) : (name, value) ∈ entries := by
  induction entries using List.reverseRecOn with
  | nil => cases found
  | append_singleton entries entry induction =>
    simp only [ofList, List.foldl_append, List.foldl_cons, List.foldl_nil, get?_insert] at found
    rw [List.mem_append, List.mem_singleton]
    split at found
    · rename_i same
      cases found
      exact .inr (Prod.ext same rfl)
    · exact .inl (induction found)

end Reachability.NameMap
