import Mathlib
import Reachability.Graph.Heap

/-!
# Order of heaps

No item of a heap has a smaller priority than the item at the parent of its
position.  While an item is sifted, this fails at its position only, and the
items around that position are in order with each other.  So inserting keeps a
heap in order, and the item that is extracted has the smallest priority.
-/

namespace Reachability.Graph.Heap

def priority (heap : Heap) (position : Nat) : Nat := (heap[position]?.map Prod.fst).getD 0

def parent (position : Nat) : Nat := (position - 1) / 2

/-- The order of the first `size` positions. -/
def OrderedBelow (size : Nat) (heap : Heap) : Prop :=
  ∀ i, 0 < i → i < size → heap.priority (parent i) ≤ heap.priority i

def Ordered (heap : Heap) : Prop := OrderedBelow heap.size heap

/-- Only the item at `hole` may be too small for its position. -/
structure RisingAt (hole size : Nat) (heap : Heap) : Prop where
  apart : ∀ i, 0 < i → i < size → i ≠ hole → heap.priority (parent i) ≤ heap.priority i
  around : ∀ i, 0 < i → i < size → parent i = hole → 0 < hole →
    heap.priority (parent hole) ≤ heap.priority i

/-- Only the item at `hole` may be too large for its position. -/
structure SinkingAt (hole size : Nat) (heap : Heap) : Prop where
  apart : ∀ i, 0 < i → i < size → parent i ≠ hole → heap.priority (parent i) ≤ heap.priority i
  around : ∀ i, 0 < i → i < size → parent i = hole → 0 < hole →
    heap.priority (parent hole) ≤ heap.priority i

section Exchange

variable {heap : Heap} {first second position : Nat}

section

variable (firstBound : first < heap.size) (secondBound : second < heap.size)

include firstBound secondBound

theorem before_iff :
    heap.before first second = true ↔ heap.priority first < heap.priority second := by
  simp [before, priority, firstBound, secondBound]

theorem getElem?_exchange :
    (heap.swapIfInBounds first second)[position]? =
      if position = first then heap[second]?
      else if position = second then heap[first]?
      else heap[position]? := by
  rw [Array.swapIfInBounds_def, dif_pos firstBound, dif_pos secondBound, Array.getElem?_swap]
  grind

theorem priority_exchange (position : Nat) :
    priority (heap.swapIfInBounds first second) position =
      if position = first then heap.priority second
      else if position = second then heap.priority first
      else heap.priority position := by
  unfold priority
  rw [getElem?_exchange firstBound secondBound]
  split
  · rfl
  · split <;> rfl

end

theorem perm_exchange (heap : Heap) (first second : Nat) :
    (heap.swapIfInBounds first second).toList.Perm heap.toList := by
  rw [Array.swapIfInBounds_def]
  split
  · split
    · exact (Array.swap_perm _ _).toList
    · exact .refl _
  · exact .refl _

theorem parent_lt (positive : 0 < position) : parent position < position := by
  unfold parent
  omega

/-- An item that is smaller than its parent changes places with it. -/
theorem RisingAt.exchange {hole size : Nat} (rising : RisingAt hole size heap)
    (positive : 0 < hole) (bound : hole < heap.size)
    (smaller : heap.priority hole < heap.priority (parent hole)) :
    RisingAt (parent hole) size (heap.swapIfInBounds hole (parent hole)) := by
  have parentLt := parent_lt positive
  have values := priority_exchange bound (Nat.lt_trans parentLt bound)
  constructor
  · intro i iPositive iBound elsewhere
    have iParent := parent_lt iPositive
    rw [values, values]
    by_cases atHole : i = hole
    · subst atHole
      simp only [if_true]
      rw [if_neg (Nat.ne_of_lt parentLt)]
      exact Nat.le_of_lt smaller
    · rw [if_neg atHole, if_neg elsewhere]
      by_cases under : parent i = hole
      · rw [if_pos under]
        exact rising.around i iPositive iBound under positive
      · rw [if_neg under]
        by_cases beside : parent i = parent hole
        · rw [if_pos beside]
          have inOrder := rising.apart i iPositive iBound atHole
          rw [beside] at inOrder
          exact Nat.le_trans (Nat.le_of_lt smaller) inOrder
        · rw [if_neg beside]
          exact rising.apart i iPositive iBound atHole
  · intro i iPositive iBound beside grandPositive
    have grandLt := parent_lt grandPositive
    have inOrder : heap.priority (parent (parent hole)) ≤ heap.priority (parent hole) := by
      by_cases inside : parent hole < size
      · exact rising.apart (parent hole) grandPositive inside (Nat.ne_of_lt parentLt)
      · have := parent_lt iPositive
        omega
    rw [values, values, if_neg (by omega), if_neg (by omega)]
    by_cases atHole : i = hole
    · rw [if_pos atHole]
      exact inOrder
    · have iParent := parent_lt iPositive
      rw [if_neg atHole, if_neg (by omega)]
      have below := rising.apart i iPositive iBound atHole
      rw [beside] at below
      exact Nat.le_trans inOrder below

/-- An item that is larger than its smallest child changes places with it. -/
theorem SinkingAt.exchange {hole child size : Nat} (sinking : SinkingAt hole size heap)
    (positive : 0 < child) (isParent : parent child = hole) (bound : child < size)
    (inside : size ≤ heap.size)
    (smallest : ∀ i, 0 < i → i < size → parent i = hole → heap.priority child ≤ heap.priority i)
    (smaller : heap.priority child < heap.priority hole) :
    SinkingAt child size (heap.swapIfInBounds hole child) := by
  have holeLt : hole < child := isParent ▸ parent_lt positive
  have values := priority_exchange (Nat.lt_of_lt_of_le (Nat.lt_trans holeLt bound) inside)
    (Nat.lt_of_lt_of_le bound inside)
  constructor
  · intro i iPositive iBound elsewhere
    rw [values, values]
    by_cases under : parent i = hole
    · rw [if_pos under]
      have iParent := parent_lt iPositive
      rw [if_neg (by omega)]
      by_cases atChild : i = child
      · rw [if_pos atChild]
        exact Nat.le_of_lt smaller
      · rw [if_neg atChild]
        exact smallest i iPositive iBound under
    · rw [if_neg under, if_neg elsewhere]
      by_cases atHole : i = hole
      · subst atHole
        rw [if_pos rfl]
        exact sinking.around child positive bound isParent iPositive
      · rw [if_neg atHole, if_neg (by rintro rfl; exact under isParent)]
        exact sinking.apart i iPositive iBound under
  · intro i iPositive iBound under _
    have iParent := parent_lt iPositive
    rw [values, values, isParent, if_pos rfl, if_neg (by omega), if_neg (by omega)]
    have inOrder := sinking.apart i iPositive iBound (by omega)
    rw [under] at inOrder
    exact inOrder

end Exchange

section Sifting

variable {heap : Heap} {position : Nat}

theorem siftUp_ordered (bound : position < heap.size) (rising : RisingAt position heap.size heap) :
    (heap.siftUp position).Ordered ∧ (heap.siftUp position).toList.Perm heap.toList := by
  fun_induction siftUp heap position with
  | case1 heap position smaller induction =>
    obtain ⟨positive, before⟩ := smaller
    have parentBound := Nat.lt_trans (parent_lt positive) bound
    have exchanged := rising.exchange positive bound ((before_iff bound parentBound).mp before)
    have size : (heap.swapIfInBounds position (parent position)).size = heap.size :=
      Array.size_swapIfInBounds
    rw [← size] at exchanged parentBound
    obtain ⟨ordered, perm⟩ := induction parentBound exchanged
    exact ⟨ordered, perm.trans (perm_exchange ..)⟩
  | case2 heap position inPlace =>
    refine ⟨?_, .refl _⟩
    intro i positive inside
    by_cases here : i = position
    · subst here
      have parentBound := Nat.lt_trans (parent_lt positive) bound
      exact Nat.le_of_not_lt fun smaller =>
        inPlace ⟨positive, (before_iff bound parentBound).mpr smaller⟩
    · exact rising.apart i positive inside here

theorem parent_smallerChild (heap : Heap) (size position : Nat) :
    parent (heap.smallerChild size position) = position := by
  unfold smallerChild parent
  split <;> omega

theorem smallerChild_lt (heap : Heap) {size : Nat} (bound : 2 * position + 1 < size) :
    heap.smallerChild size position < size := by
  unfold smallerChild
  split
  · rename_i right
    simp only [Bool.and_eq_true, decide_eq_true_eq] at right
    exact right.1
  · exact bound

theorem smallerChild_le {size i : Nat} (inside : size ≤ heap.size) (positive : 0 < i)
    (bound : i < size) (isParent : parent i = position) :
    heap.priority (heap.smallerChild size position) ≤ heap.priority i := by
  have either : i = 2 * position + 1 ∨ i = 2 * position + 2 := by
    unfold parent at isParent
    omega
  unfold smallerChild
  split
  · rename_i right
    simp only [Bool.and_eq_true, decide_eq_true_eq] at right
    rw [before_iff (by omega) (by omega)] at right
    rcases either with rfl | rfl
    · exact Nat.le_of_lt right.2
    · exact Nat.le_refl _
  · rename_i left
    simp only [Bool.and_eq_true, decide_eq_true_eq, not_and] at left
    rcases either with rfl | rfl
    · exact Nat.le_refl _
    · have notBefore := left bound
      rw [before_iff (by omega) (by omega)] at notBefore
      exact Nat.le_of_not_lt notBefore

theorem siftDown_ordered {size : Nat} (inside : size ≤ heap.size)
    (sinking : SinkingAt position size heap) :
    OrderedBelow size (heap.siftDown size position) ∧
      (heap.siftDown size position).toList.Perm heap.toList ∧
      ∀ i, size ≤ i → (heap.siftDown size position)[i]? = heap[i]? := by
  fun_induction siftDown heap size position with
  | case1 heap position smaller induction =>
    obtain ⟨bound, before⟩ := smaller
    have positive := Nat.zero_lt_of_lt (lt_smallerChild heap size position)
    have childBound := heap.smallerChild_lt bound
    have childInside := Nat.lt_of_lt_of_le childBound inside
    have here : position < heap.size := by omega
    rw [before_iff childInside here] at before
    have exchanged := sinking.exchange positive (parent_smallerChild ..) childBound inside
      (fun i iPositive iBound under => smallerChild_le inside iPositive iBound under) before
    have stillInside : size ≤ (heap.swapIfInBounds position
        (heap.smallerChild size position)).size := by
      rw [Array.size_swapIfInBounds]
      exact inside
    obtain ⟨ordered, perm, kept⟩ := induction stillInside exchanged
    refine ⟨ordered, perm.trans (perm_exchange ..), ?_⟩
    intro i outside
    rw [kept i outside, getElem?_exchange here childInside, if_neg (by omega), if_neg (by omega)]
  | case2 heap position inPlace =>
    refine ⟨?_, .refl _, fun _ _ => rfl⟩
    intro i positive bound
    by_cases under : parent i = position
    · have left : 2 * position + 1 < size := by
        unfold parent at under
        omega
      rw [not_and, before_iff (Nat.lt_of_lt_of_le (heap.smallerChild_lt left) inside) (by omega)]
        at inPlace
      rw [under]
      exact Nat.le_trans (Nat.le_of_not_lt (inPlace left))
        (smallerChild_le inside positive bound under)
    · exact sinking.apart i positive bound under

end Sifting

section Operations

variable {heap : Heap}

theorem ordered_empty : Ordered #[] := by
  intro i _ bound
  exact absurd bound (Nat.not_lt_zero i)

theorem priority_push {entry : Nat × Nat} {position : Nat} (bound : position < heap.size) :
    priority (heap.push entry) position = heap.priority position := by
  unfold priority
  rw [Array.getElem?_push, if_neg (Nat.ne_of_lt bound)]

theorem insert_ordered (ordered : heap.Ordered) (priority item : Nat) :
    (heap.insert priority item).Ordered ∧
      (heap.insert priority item).toList.Perm ((priority, item) :: heap.toList) := by
  have size : (heap.push (priority, item)).size = heap.size + 1 := Array.size_push _
  have rising : RisingAt heap.size (heap.push (priority, item)).size
      (heap.push (priority, item)) := by
    rw [size]
    constructor
    · intro i positive bound elsewhere
      have inside : i < heap.size := by omega
      rw [priority_push inside, priority_push (Nat.lt_trans (parent_lt positive) inside)]
      exact ordered i positive inside
    · intro i positive bound under _
      have := parent_lt positive
      omega
  obtain ⟨sifted, perm⟩ := siftUp_ordered (by rw [size]; exact Nat.lt_succ_self _) rising
  refine ⟨sifted, perm.trans ?_⟩
  rw [Array.toList_push]
  exact List.perm_append_singleton _ _

theorem Ordered.first_le (ordered : heap.Ordered) {position : Nat} (bound : position < heap.size) :
    heap.priority 0 ≤ heap.priority position := by
  induction position using Nat.strong_induction_on with
  | _ position induction =>
    by_cases first : position = 0
    · subst first
      exact Nat.le_refl _
    · have positive := Nat.pos_of_ne_zero first
      have above := parent_lt positive
      exact Nat.le_trans (induction (parent position) above (Nat.lt_trans above bound))
        (ordered position positive bound)

theorem extract?_eq_none : heap.extract? = none ↔ heap.toList = [] := by
  unfold extract?
  rw [Array.toList_eq_nil_iff]
  split
  · rename_i empty
    simpa using empty
  · rename_i first found
    simp only [reduceCtorEq, false_iff]
    rintro rfl
    cases found

/-- The last item takes the place of the first one, from where it can be sifted down. -/
theorem Ordered.sinking (ordered : heap.Ordered) (nonempty : 0 < heap.size) :
    SinkingAt 0 (heap.size - 1) (heap.swapIfInBounds 0 (heap.size - 1)) := by
  have values := priority_exchange nonempty (Nat.sub_one_lt (Nat.ne_of_gt nonempty))
  constructor
  · intro i positive bound under
    have above := parent_lt positive
    rw [values, values, if_neg under, if_neg (by omega), if_neg (by omega), if_neg (by omega)]
    exact ordered i positive (by omega)
  · intro i _ _ _ impossible
    exact absurd impossible (Nat.lt_irrefl 0)

theorem extract?_some (ordered : heap.Ordered) {first : Nat × Nat} {rest : Heap}
    (extracted : heap.extract? = some (first, rest)) :
    rest.Ordered ∧ heap.toList.Perm (first :: rest.toList) ∧
      ∀ entry ∈ heap.toList, first.1 ≤ entry.1 := by
  unfold extract? at extracted
  split at extracted
  · cases extracted
  · rename_i head found
    cases extracted
    have nonempty : 0 < heap.size := (Array.getElem?_eq_some_iff.mp found).1
    have lastBound := Nat.sub_one_lt (Nat.ne_of_gt nonempty)
    have inside : heap.size - 1 ≤ (heap.swapIfInBounds 0 (heap.size - 1)).size := by
      rw [Array.size_swapIfInBounds]
      exact Nat.le_of_lt lastBound
    obtain ⟨sifted, perm, kept⟩ := siftDown_ordered inside (ordered.sinking nonempty)
    replace perm := perm.trans (perm_exchange heap 0 (heap.size - 1))
    have last := kept (heap.size - 1) (Nat.le_refl _)
    rw [getElem?_exchange nonempty lastBound, if_pos rfl] at last
    generalize siftDown _ _ _ = after at *
    have size : after.size = heap.size := perm.length_eq
    have isLast : after.toList.getLast? = some first := by
      rw [List.getLast?_eq_getElem?, Array.getElem?_toList, Array.length_toList, size, last]
      split
      · rename_i single
        rw [single]
        exact found
      · exact found
    have whole : after.pop.toList ++ [first] = after.toList := by
      rw [Array.toList_pop]
      exact List.dropLast_append_getLast? first isLast
    refine ⟨?_, ?_, ?_⟩
    · intro i positive bound
      rw [Array.size_pop, size] at bound
      have same : ∀ position, position < heap.size - 1 →
          priority after.pop position = after.priority position := by
        intro position before
        unfold priority
        rw [Array.getElem?_pop, if_pos (by rw [size]; exact before)]
      rw [same i bound, same (parent i) (Nat.lt_trans (parent_lt positive) bound)]
      exact sifted i positive bound
    · refine perm.symm.trans ?_
      rw [← whole]
      exact List.perm_append_singleton _ _
    · intro entry member
      obtain ⟨position, bound, isEntry⟩ := List.getElem_of_mem member
      have smallest := ordered.first_le bound
      have here : heap[position]? = some entry := by
        rw [← Array.getElem?_toList, List.getElem?_eq_getElem bound, isEntry]
      unfold priority at smallest
      rw [found, here] at smallest
      exact smallest

end Operations

end Reachability.Graph.Heap
