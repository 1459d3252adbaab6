import Mathlib
import Reachability.Sequence

/-!
# Members of sequences used as sets

Adding an item once and removing all its occurrences, seen through membership
and through the absence of repetitions.
-/

namespace Reachability

variable {α : Type u} [BEq α] [LawfulBEq α] {items : List α} {item other : α}

@[simp] theorem mem_addUnique : other ∈ addUnique items item ↔ other ∈ items ∨ other = item := by
  unfold addUnique
  split
  · rename_i listed
    rw [List.contains_iff_mem] at listed
    constructor
    · exact .inl
    · rintro (member | rfl)
      · exact member
      · exact listed
  · simp

theorem nodup_addUnique (distinct : items.Nodup) (item : α) : (addUnique items item).Nodup := by
  unfold addUnique
  split
  · exact distinct
  · rename_i absent
    rw [List.contains_iff_mem] at absent
    rw [List.nodup_append]
    refine ⟨distinct, List.nodup_singleton item, ?_⟩
    intro other member single same
    rw [List.mem_singleton] at same
    exact fun equal => absent (same ▸ equal ▸ member)

theorem addUnique_of_mem (member : item ∈ items) : addUnique items item = items := by
  unfold addUnique
  rw [if_pos (List.contains_iff_mem.mpr member)]

theorem addUnique_of_not_mem (absent : item ∉ items) : addUnique items item = items ++ [item] := by
  unfold addUnique
  rw [if_neg fun listed => absent (List.contains_iff_mem.mp listed)]

theorem mem_foldl_addUnique {added : List α} :
    other ∈ added.foldl addUnique items ↔ other ∈ items ∨ other ∈ added := by
  induction added generalizing items with
  | nil => simp
  | cons item added induction =>
    rw [List.foldl_cons, induction, mem_addUnique, List.mem_cons, or_assoc]

theorem nodup_foldl_addUnique (distinct : items.Nodup) (added : List α) :
    (added.foldl addUnique items).Nodup := by
  induction added generalizing items with
  | nil => exact distinct
  | cons item added induction => exact induction (nodup_addUnique distinct item)

@[simp] theorem mem_removeAll : other ∈ removeAll items item ↔ other ∈ items ∧ other ≠ item := by
  simp [removeAll]

omit [LawfulBEq α] in
theorem nodup_removeAll (distinct : items.Nodup) (item : α) : (removeAll items item).Nodup :=
  distinct.filter _

omit [LawfulBEq α] in
theorem length_addUnique (items : List α) (item : α) :
    (addUnique items item).length ≤ items.length + 1 := by
  unfold addUnique
  split
  · exact Nat.le_succ _
  · simp

omit [LawfulBEq α] in
theorem length_removeAll (items : List α) (item : α) :
    (removeAll items item).length ≤ items.length :=
  List.length_filter_le _ _

theorem length_removeAll_lt (member : item ∈ items) :
    (removeAll items item).length < items.length :=
  List.length_filter_lt_length_iff_exists.mpr ⟨item, member, by simp⟩

end Reachability
