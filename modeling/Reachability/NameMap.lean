/-!
# Maps keyed by names

A `NameMap α` keeps its entries in strictly increasing order of their names, so
two maps with the same look-ups are equal.
-/

namespace Reachability

structure NameMap (α : Type u) where
  entries : List (String × α)
  sorted : (entries.map Prod.fst).Pairwise (· < ·)
deriving DecidableEq

namespace NameMap

variable {α : Type u}

def put (name : String) (value : α) : List (String × α) → List (String × α)
  | [] => [(name, value)]
  | (head, old) :: tail =>
    if name < head then (name, value) :: (head, old) :: tail
    else if name = head then (name, value) :: tail
    else (head, old) :: put name value tail

theorem mem_put_keys {name key : String} {value : α} {entries : List (String × α)}
    (member : key ∈ (put name value entries).map Prod.fst) :
    key = name ∨ key ∈ entries.map Prod.fst := by
  induction entries with
  | nil => simpa [put] using member
  | cons head tail ih =>
    obtain ⟨first, old⟩ := head
    unfold put at member
    split at member
    · simpa using member
    · split at member
      · rename_i same
        simp only [List.map_cons, List.mem_cons] at member ⊢
        rcases member with found | found
        · exact .inl found
        · exact .inr (.inr found)
      · simp only [List.map_cons, List.mem_cons] at member ⊢
        rcases member with found | found
        · exact .inr (.inl found)
        · rcases ih found with found | found
          · exact .inl found
          · exact .inr (.inr found)

theorem put_sorted (name : String) (value : α) {entries : List (String × α)}
    (sorted : (entries.map Prod.fst).Pairwise (· < ·)) :
    ((put name value entries).map Prod.fst).Pairwise (· < ·) := by
  induction entries with
  | nil => simp [put]
  | cons head tail ih =>
    obtain ⟨first, old⟩ := head
    simp only [List.map_cons, List.pairwise_cons] at sorted
    unfold put
    split
    · rename_i before
      simp only [List.map_cons, List.pairwise_cons]
      refine ⟨?_, sorted⟩
      intro key member
      rcases List.mem_cons.mp member with found | found
      · exact found ▸ before
      · exact String.lt_trans before (sorted.1 key found)
    · split
      · rename_i same
        subst same
        simpa using sorted
      · rename_i notBefore notSame
        simp only [List.map_cons, List.pairwise_cons]
        refine ⟨?_, ih sorted.2⟩
        intro key member
        rcases mem_put_keys member with found | found
        · subst found
          exact Std.lt_of_le_of_ne (String.not_lt.mp notBefore) (Ne.symm notSame)
        · exact sorted.1 key found

def empty : NameMap α := ⟨[], List.Pairwise.nil⟩

instance : EmptyCollection (NameMap α) := ⟨empty⟩

instance : Inhabited (NameMap α) := ⟨empty⟩

def get? (map : NameMap α) (name : String) : Option α :=
  map.entries.lookup name

def insert (map : NameMap α) (name : String) (value : α) : NameMap α :=
  ⟨put name value map.entries, put_sorted name value map.sorted⟩

def filter (map : NameMap α) (keep : String → α → Bool) : NameMap α :=
  ⟨map.entries.filter fun entry => keep entry.1 entry.2,
    map.sorted.sublist (List.Sublist.map _ List.filter_sublist)⟩

def erase (map : NameMap α) (name : String) : NameMap α :=
  map.filter fun key _ => key != name

def keys (map : NameMap α) : List String := map.entries.map Prod.fst

/-- The map with the given entries; a later entry replaces an earlier one of the same name. -/
def ofList (entries : List (String × α)) : NameMap α :=
  entries.foldl (fun map entry => map.insert entry.1 entry.2) empty

def toList (map : NameMap α) : List (String × α) := map.entries

@[simp] theorem get?_empty (name : String) : (empty : NameMap α).get? name = none := rfl

theorem lookup_put (name key : String) (value : α) (entries : List (String × α)) :
    (put name value entries).lookup key =
      if key = name then some value else entries.lookup key := by
  induction entries with
  | nil =>
    by_cases same : key = name
    · simp [put, same]
    · simp [put, List.lookup_cons, beq_eq_false_iff_ne.mpr same, same]
  | cons head tail ih =>
    obtain ⟨first, old⟩ := head
    unfold put
    split
    · by_cases same : key = name
      · simp [same]
      · rw [List.lookup_cons, beq_eq_false_iff_ne.mpr same]
        simp [same]
    · split
      · rename_i same
        subst same
        by_cases found : key = name
        · simp [found]
        · simp [List.lookup_cons, beq_eq_false_iff_ne.mpr found, found]
      · rename_i notSame
        by_cases found : key = first
        · subst found
          simp [Ne.symm notSame]
        · simp only [List.lookup_cons, beq_eq_false_iff_ne.mpr found]
          exact ih

@[simp] theorem get?_insert (map : NameMap α) (name key : String) (value : α) :
    (map.insert name value).get? key =
      if key = name then some value else map.get? key :=
  lookup_put name key value map.entries

end NameMap

end Reachability
