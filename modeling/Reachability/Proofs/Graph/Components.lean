import Mathlib
import Reachability.Proofs.Graph.DepthFirst

/-!
# The invariant of the search for components

The nodes on the stack have no component yet.  Those among them whose visits
have not ended form a path; every node on the stack reaches a node of the path
that was entered before it, and a node of the path reaches everything that has
been put on the stack after it.  So when the visit of a node ends and nothing
below it on the stack can be reached, it and what lies above it are a component.
-/

namespace Reachability.Graph

variable {α : Type u} {successors : α → List α} {parts : List (List α)}

/-- Nodes are numbered in the order they are put in front, from zero on, and each of them once. -/
inductive Numbered : List (α × Nat) → Prop where
  | nil : Numbered []
  | cons {node : α} {rest : List (α × Nat)} :
      node ∉ rest.map Prod.fst →
      Numbered rest →
      Numbered ((node, rest.length) :: rest)

theorem Numbered.nodup {numbers : List (α × Nat)} (numbered : Numbered numbers) :
    (numbers.map Prod.fst).Nodup := by
  induction numbered with
  | nil => exact List.nodup_nil
  | cons new _ induction => exact List.nodup_cons.mpr ⟨new, induction⟩

section Numbers

variable [DecidableEq α] {numbers added : List (α × Nat)} {node : α} {number : Nat}

theorem lookup_eq_none_iff_not_mem : numbers.lookup node = none ↔ node ∉ numbers.map Prod.fst := by
  rw [List.lookup_eq_none_iff]
  constructor
  · intro apart member
    obtain ⟨entry, isEntry, rfl⟩ := List.mem_map.mp member
    simpa using apart entry isEntry
  · intro absent entry isEntry
    have different : node ≠ entry.1 := fun same => absent (same ▸ List.mem_map_of_mem isEntry)
    simpa using different

theorem Numbered.lt_length (numbered : Numbered numbers)
    (found : numbers.lookup node = some number) : number < numbers.length := by
  induction numbered with
  | nil => cases found
  | cons _ _ induction =>
    rw [List.lookup_cons] at found
    split at found
    · cases found
      exact Nat.lt_succ_self _
    · exact Nat.lt_succ_of_lt (induction found)

theorem Numbered.length_le (numbered : Numbered (added ++ numbers))
    (found : (added ++ numbers).lookup node = some number) (new : node ∉ numbers.map Prod.fst) :
    numbers.length ≤ number := by
  induction added with
  | nil =>
    rw [List.nil_append, lookup_eq_none_iff_not_mem.mpr new] at found
    cases found
  | cons entry added induction =>
    obtain ⟨first, place⟩ := entry
    rw [List.cons_append] at numbered found
    cases numbered with
    | cons _ numbered =>
      rw [List.lookup_cons] at found
      split at found
      · cases found
        rw [List.length_append]
        exact Nat.le_add_left _ _
      · exact induction numbered found

theorem Numbered.lookup_append (numbered : Numbered (added ++ numbers))
    (old : node ∈ numbers.map Prod.fst) :
    (added ++ numbers).lookup node = numbers.lookup node := by
  have distinct := numbered.nodup
  rw [List.map_append] at distinct
  have absent : added.lookup node = none := by
    apply lookup_eq_none_iff_not_mem.mpr
    intro member
    exact List.disjoint_of_nodup_append distinct member old
  rw [List.lookup_append, absent, Option.none_or]

end Numbers

/-- A part of a graph that is strongly connected and cannot be enlarged. -/
structure IsComponent (successors : α → List α) (component : List α) : Prop where
  nonempty : component ≠ []
  connected : ∀ node ∈ component, ∀ other, other ∈ component ↔
    Reaches successors node other ∧ Reaches successors other node

/-- From each part of the graph one only gets to itself and to the parts behind it. -/
def Descends (successors : α → List α) : List (List α) → Prop
  | [] => True
  | part :: parts => (∀ node ∈ part, ∀ next ∈ successors node, next ∈ part ∨ next ∈ parts.flatten) ∧
      Descends successors parts

theorem Descends.mem_flatten (descends : Descends successors parts) {node other : α}
    (member : node ∈ parts.flatten) (reaches : Reaches successors node other) :
    other ∈ parts.flatten := by
  have closed : ∀ node ∈ parts.flatten, ∀ next ∈ successors node, next ∈ parts.flatten := by
    clear member reaches
    induction parts with
    | nil => simp
    | cons part parts induction =>
      intro node member next isNext
      rw [List.flatten_cons, List.mem_append] at member ⊢
      rcases member with here | behind
      · exact descends.1 node here next isNext
      · exact .inr (induction descends.2 node behind next isNext)
  induction reaches with
  | refl => exact member
  | tail _ step induction => exact closed _ induction _ step

theorem Descends.suffix {others : List (List α)} (descends : Descends successors parts)
    (isSuffix : others <:+ parts) : Descends successors others := by
  induction parts with
  | nil =>
    cases List.suffix_nil.mp isSuffix
    exact descends
  | cons part parts induction =>
    rcases List.suffix_cons_iff.mp isSuffix with same | later
    · rw [same]
      exact descends
    · exact induction descends.2 later

/-- In reverse, one gets from a part to itself and to the parts before it. -/
theorem Descends.mem_take {k : Nat} {node other : α} (descends : Descends successors parts.reverse)
    (member : node ∈ (parts.take k).flatten) (reaches : Reaches successors node other) :
    other ∈ (parts.take k).flatten := by
  have earlier : Descends successors (parts.take k).reverse := by
    apply descends.suffix
    exact List.reverse_suffix.mpr (List.take_prefix k parts)
  have same : ∀ node, node ∈ (parts.take k).reverse.flatten ↔ node ∈ (parts.take k).flatten := by
    intro node
    simp only [List.mem_flatten, List.mem_reverse]
  rw [← same] at member ⊢
  exact earlier.mem_flatten member reaches

namespace Traversal

/-- The nodes entered so far, the latest first. -/
def entered (traversal : Traversal α) : List α := traversal.numbers.map Prod.fst

def order (traversal : Traversal α) : List α := traversal.entered.reverse

theorem order_enter (traversal : Traversal α) (node : α) :
    (traversal.enter node).order = traversal.order ++ [node] :=
  List.reverse_cons

/-- What a part of the search may change. -/
structure Grows (before after : Traversal α) : Prop where
  numbers : before.numbers <:+ after.numbers
  stack : before.stack <:+ after.stack
  found : before.found <:+ after.found

namespace Grows

variable {before middle after : Traversal α}

theorem refl (traversal : Traversal α) : Grows traversal traversal :=
  ⟨List.suffix_refl _, List.suffix_refl _, List.suffix_refl _⟩

theorem trans (first : Grows before middle) (second : Grows middle after) : Grows before after :=
  ⟨first.numbers.trans second.numbers, first.stack.trans second.stack,
    first.found.trans second.found⟩

theorem enter (traversal : Traversal α) (node : α) : Grows traversal (traversal.enter node) :=
  ⟨List.suffix_cons _ _, List.suffix_cons _ _, List.suffix_refl _⟩

theorem mem_entered (grows : Grows before after) {node : α} (member : node ∈ before.entered) :
    node ∈ after.entered := by
  obtain ⟨added, isAppend⟩ := grows.numbers
  unfold entered
  rw [← isAppend, List.map_append]
  exact List.mem_append_right _ member

theorem mem_found (grows : Grows before after) {node : α} (member : node ∈ before.found.flatten) :
    node ∈ after.found.flatten := by
  obtain ⟨more, isAppend⟩ := grows.found
  rw [← isAppend, List.flatten_append]
  exact List.mem_append_right _ member

theorem order_prefix (grows : Grows before after) : before.order <+: after.order := by
  obtain ⟨added, isAppend⟩ := grows.numbers
  unfold order entered
  rw [← isAppend, List.map_append, List.reverse_append]
  exact List.prefix_append _ _

end Grows

variable [DecidableEq α]

def number (traversal : Traversal α) (node : α) : Nat := (traversal.numbers.lookup node).getD 0

/-- The invariant of the search, in which the visits of the nodes in `path` have not ended. -/
structure Valid (successors : α → List α) (path : List α) (traversal : Traversal α) : Prop where
  numbered : Numbered traversal.numbers
  stacked : traversal.stack.Sublist traversal.entered
  divided : (traversal.stack ++ traversal.found.flatten).Perm traversal.entered
  pending : ∀ node ∈ path, node ∈ traversal.stack
  followed : ∀ node ∈ traversal.entered, node ∉ path → ∀ next ∈ successors node,
    next ∈ traversal.entered
  descends : Descends successors traversal.found
  components : ∀ component ∈ traversal.found, IsComponent successors component ∧
    component.Sublist traversal.order
  rises : ∀ node ∈ traversal.stack, ∃ earlier ∈ path,
    traversal.number earlier ≤ traversal.number node ∧ Reaches successors node earlier
  falls : ∀ earlier ∈ path, ∀ node ∈ traversal.stack,
    traversal.number earlier ≤ traversal.number node → Reaches successors earlier node

section Numbers

variable {traversal before after : Traversal α} {node : α}

theorem lookup_eq_none_iff : traversal.numbers.lookup node = none ↔ node ∉ traversal.entered :=
  lookup_eq_none_iff_not_mem

theorem lookup_eq_number (member : node ∈ traversal.entered) :
    traversal.numbers.lookup node = some (traversal.number node) := by
  unfold number
  cases found : traversal.numbers.lookup node with
  | none => exact absurd member (lookup_eq_none_iff.mp found)
  | some number => rfl

theorem number_eq {place : Nat} (found : traversal.numbers.lookup node = some place) :
    traversal.number node = place := by
  unfold number
  rw [found]
  rfl

theorem number_enter (traversal : Traversal α) (node : α) :
    (traversal.enter node).number node = traversal.numbers.length :=
  number_eq (by simp [enter])

theorem number_lt (numbered : Numbered traversal.numbers) (member : node ∈ traversal.entered) :
    traversal.number node < traversal.numbers.length :=
  numbered.lt_length (lookup_eq_number member)

theorem Grows.number_eq (grows : Grows before after) (numbered : Numbered after.numbers)
    (member : node ∈ before.entered) : after.number node = before.number node := by
  obtain ⟨added, isAppend⟩ := grows.numbers
  rw [← isAppend] at numbered
  apply Traversal.number_eq
  rw [← isAppend, numbered.lookup_append member]
  exact lookup_eq_number member

theorem Grows.length_le_number (grows : Grows before after) (numbered : Numbered after.numbers)
    (member : node ∈ after.entered) (new : node ∉ before.entered) :
    before.numbers.length ≤ after.number node := by
  obtain ⟨added, isAppend⟩ := grows.numbers
  have found := lookup_eq_number member
  rw [← isAppend] at numbered found
  exact numbered.length_le found new

end Numbers

section Valid

variable {successors : α → List α} {path later : List α} {traversal before after : Traversal α}
  {node : α}

namespace Valid

theorem mem_entered (valid : Valid successors path traversal) :
    node ∈ traversal.entered ↔ node ∈ traversal.stack ∨ node ∈ traversal.found.flatten := by
  rw [← valid.divided.mem_iff, List.mem_append]

theorem stack_entered (valid : Valid successors path traversal) (member : node ∈ traversal.stack) :
    node ∈ traversal.entered :=
  valid.stacked.subset member

theorem not_found (valid : Valid successors path traversal) (member : node ∈ traversal.stack) :
    node ∉ traversal.found.flatten := by
  have distinct : (traversal.stack ++ traversal.found.flatten).Nodup :=
    valid.divided.nodup_iff.mpr valid.numbered.nodup
  exact List.disjoint_of_nodup_append distinct member

theorem not_entered (valid : Valid successors path before)
    (afterValid : Valid successors later after) (grows : Grows before after)
    (member : node ∈ after.stack) (new : node ∉ before.stack) : node ∉ before.entered := by
  intro old
  rcases valid.mem_entered.mp old with stacked | found
  · exact new stacked
  · exact afterValid.not_found member (grows.mem_found found)

/-- Nodes on the stack with a number that has been given before were on the stack then. -/
theorem mem_stack_of_number_lt (valid : Valid successors path before)
    (afterValid : Valid successors later after) (grows : Grows before after)
    (member : node ∈ after.stack) (low : after.number node < before.numbers.length) :
    node ∈ before.stack := by
  by_contra new
  have unknown := valid.not_entered afterValid grows member new
  have high := grows.length_le_number afterValid.numbered (afterValid.stack_entered member) unknown
  exact absurd low (Nat.not_lt.mpr high)

theorem enter (valid : Valid successors path before) (new : node ∉ before.entered)
    (led : ∀ earlier ∈ path, Reaches successors earlier node) :
    Valid successors (node :: path) (before.enter node) := by
  have grows := Grows.enter before node
  have numbered : Numbered (before.enter node).numbers := .cons new valid.numbered
  have same : ∀ other ∈ before.stack, (before.enter node).number other = before.number other :=
    fun other member => grows.number_eq numbered (valid.stack_entered member)
  have lower : ∀ other ∈ before.stack, before.number other < before.numbers.length :=
    fun other member => number_lt valid.numbered (valid.stack_entered member)
  constructor
  · exact numbered
  · exact valid.stacked.cons_cons node
  · exact valid.divided.cons node
  · intro other member
    rcases List.mem_cons.mp member with rfl | onPath
    · exact List.mem_cons_self
    · exact List.mem_cons_of_mem _ (valid.pending other onPath)
  · intro other member notOnPath next isNext
    rw [List.mem_cons, not_or] at notOnPath
    rcases List.mem_cons.mp member with isNode | old
    · exact absurd isNode notOnPath.1
    · exact grows.mem_entered (valid.followed other old notOnPath.2 next isNext)
  · exact valid.descends
  · intro component found
    obtain ⟨isComponent, ordered⟩ := valid.components component found
    exact ⟨isComponent, ordered.trans grows.order_prefix.sublist⟩
  · intro other member
    rcases List.mem_cons.mp member with rfl | old
    · exact ⟨other, List.mem_cons_self, Nat.le_refl _, .refl⟩
    · obtain ⟨earlier, onPath, le, reaches⟩ := valid.rises other old
      refine ⟨earlier, List.mem_cons_of_mem _ onPath, ?_, reaches⟩
      rw [same other old, same earlier (valid.pending earlier onPath)]
      exact le
  · intro earlier listed other member le
    rcases List.mem_cons.mp listed with rfl | onPath
    · rcases List.mem_cons.mp member with rfl | old
      · exact .refl
      · rw [number_enter, same other old] at le
        exact absurd (lower other old) (Nat.not_lt.mpr le)
    · rcases List.mem_cons.mp member with rfl | old
      · exact led earlier onPath
      · rw [same other old, same earlier (valid.pending earlier onPath)] at le
        exact valid.falls earlier onPath other old le

end Valid

end Valid

/-- What is known when the visit of a node has ended: the lowest number that was found belongs to a
node that was on the stack before, unless the node and all that was put on the stack has left it. -/
structure Visited (successors : α → List α) (node : α) (before : Traversal α)
    (result : Nat × Traversal α) : Prop where
  grows : Grows before result.2
  lowest : result.1 = before.numbers.length ∧ result.2.stack = before.stack ∨
    ∃ low ∈ before.stack, before.number low = result.1 ∧ Reaches successors node low
  above : ∀ other ∈ result.2.stack, other ∉ before.stack → ∀ next ∈ successors other,
    next ∈ before.stack → result.1 ≤ before.number next
  order : Enters successors before.order [node] result.2.order

/-- What is known when the successors `met` of a node have been met. -/
structure Scanned (successors : α → List α) (path : List α) (node : α) (before : Traversal α)
    (met : List α) (state : Nat × Traversal α) : Prop where
  valid : Valid successors (node :: path) state.2
  grows : Grows (before.enter node) state.2
  bounded : state.1 ≤ before.numbers.length
  lowest : state.1 = before.numbers.length ∨
    ∃ low ∈ before.stack, before.number low = state.1 ∧ Reaches successors node low
  above : ∀ other ∈ state.2.stack, other ∉ node :: before.stack → ∀ next ∈ successors other,
    next ∈ before.stack → state.1 ≤ before.number next
  entered : ∀ next ∈ met, next ∈ state.2.entered ∧
    (next ∈ before.stack → state.1 ≤ before.number next)
  order : Enters successors (before.enter node).order met state.2.order

/-- Meet a successor, which is visited if it has not been entered. -/
def meet (visitor : α → Traversal α → Nat × Traversal α) (state : Nat × Traversal α) (next : α) :
    Nat × Traversal α :=
  match state.2.numbers.lookup next with
  | none => (min state.1 (visitor next state.2).1, (visitor next state.2).2)
  | some entered => if next ∈ state.2.stack then (min state.1 entered, state.2) else state

/-- End the visit of a node. -/
def leave (before : Traversal α) (node : α) (state : Nat × Traversal α) : Nat × Traversal α :=
  if state.1 = before.numbers.length then (state.1, state.2.close node) else state

theorem visit_succ (successors : α → List α) (depth : Nat) (node : α) (before : Traversal α) :
    visit successors (depth + 1) node before =
      leave before node ((successors node).foldl (meet (visit successors depth))
        (before.numbers.length, before.enter node)) := rfl

theorem close_eq {traversal : Traversal α} {node : α} {pushed below : List α}
    (stack : traversal.stack = pushed ++ node :: below) (first : node ∉ pushed) :
    (traversal.close node).stack = below ∧
      (traversal.close node).found = (node :: pushed.reverse) :: traversal.found := by
  have others : ∀ other ∈ pushed, decide (other ≠ node) = true := by
    intro other member
    rw [decide_eq_true_iff]
    exact fun same => first (same ▸ member)
  have here : decide (node ≠ node) = false := by simp
  unfold close
  rw [stack, List.dropWhile_append_of_pos others, List.takeWhile_append_of_pos others,
    List.dropWhile_cons, List.takeWhile_cons, here]
  simp

namespace Scanned

variable {successors : α → List α} {path met : List α} {before : Traversal α}
  {state result : Nat × Traversal α} {node next other : α}

/-- The scan starts when the node has been entered. -/
theorem start (valid : Valid successors path before) (new : node ∉ before.entered)
    (led : ∀ earlier ∈ path, Reaches successors earlier node) :
    Scanned successors path node before [] (before.numbers.length, before.enter node) where
  valid := valid.enter new led
  grows := .refl _
  bounded := Nat.le_refl _
  lowest := .inl rfl
  above := fun _ member new => absurd member new
  entered := fun _ impossible => absurd impossible List.not_mem_nil
  order := .done _

section

variable (scanned : Scanned successors path node before met state)

include scanned

theorem grows_before :
    Grows before state.2 :=
  (Grows.enter before node).trans scanned.grows

theorem mem_stack (member : other ∈ before.stack) : other ∈ state.2.stack :=
  scanned.grows_before.stack.subset member

theorem number_eq (valid : Valid successors path before) (member : other ∈ before.stack) :
    state.2.number other = before.number other :=
  scanned.grows_before.number_eq scanned.valid.numbered (valid.stack_entered member)

/-- A lower number that is found on the stack belongs to a node below. -/
theorem exists_low (valid : Valid successors path before) (isNext : next ∈ successors node)
    (member : other ∈ state.2.stack) (lower : state.2.number other < state.1)
    (reaches : Reaches successors next other) :
    ∃ low ∈ before.stack, before.number low = state.2.number other ∧
      Reaches successors node low := by
  have below := valid.mem_stack_of_number_lt scanned.valid scanned.grows_before member
    (Nat.lt_of_lt_of_le lower scanned.bounded)
  exact ⟨other, below, (scanned.number_eq valid below).symm, .head isNext reaches⟩

/-- A successor is met with the lowest number that its visit has found. -/
theorem meets (valid : Valid successors path before) (isNext : next ∈ successors node)
    (visited : Visited successors next state.2 result)
    (resultValid : Valid successors (node :: path) result.2)
    (known : next ∈ before.stack → result.1 ≤ before.number next) :
    Scanned successors path node before (met ++ [next]) (min state.1 result.1, result.2) := by
  constructor
  · exact resultValid
  · exact scanned.grows.trans visited.grows
  · exact Nat.le_trans (Nat.min_le_left _ _) scanned.bounded
  · by_cases lower : result.1 < state.1
    · rw [Nat.min_eq_right (Nat.le_of_lt lower)]
      rcases visited.lowest with ⟨isNumber, _⟩ | ⟨low, member, isLow, reaches⟩
      · have longer : before.numbers.length ≤ state.2.numbers.length :=
          scanned.grows_before.numbers.length_le
        have bounded := scanned.bounded
        omega
      · rw [← isLow] at lower ⊢
        exact .inr (scanned.exists_low valid isNext member lower reaches)
    · rw [Nat.min_eq_left (Nat.not_lt.mp lower)]
      exact scanned.lowest
  · intro other member fresh target isTarget below
    by_cases early : other ∈ state.2.stack
    · apply Nat.le_trans (Nat.min_le_left _ _)
      exact scanned.above other early fresh target isTarget below
    · apply Nat.le_trans (Nat.min_le_right _ _)
      rw [← scanned.number_eq valid below]
      exact visited.above other member early target isTarget (scanned.mem_stack below)
  · intro target isMet
    rcases List.mem_append.mp isMet with early | last
    · obtain ⟨entered, bound⟩ := scanned.entered target early
      exact ⟨visited.grows.mem_entered entered,
        fun below => Nat.le_trans (Nat.min_le_left _ _) (bound below)⟩
    · cases List.mem_singleton.mp last
      refine ⟨List.mem_reverse.mp (visited.order.mem_after next List.mem_cons_self), ?_⟩
      exact fun below => Nat.le_trans (Nat.min_le_right _ _) (known below)
  · exact scanned.order.append visited.order

/-- To meet a node on the stack again is to visit it without finding anything new. -/
theorem meetOld (valid : Valid successors path before) (isNext : next ∈ successors node)
    (old : next ∈ state.2.entered) :
    Scanned successors path node before (met ++ [next])
      (if next ∈ state.2.stack then (min state.1 (state.2.number next), state.2) else state) := by
  have order : Enters successors state.2.order [next] state.2.order :=
    .skip (List.mem_reverse.mpr old) (.done _)
  split
  · rename_i member
    have visited : Visited successors next state.2 (state.2.number next, state.2) :=
      ⟨.refl _, .inr ⟨next, member, rfl, .refl⟩, fun _ onStack above => absurd onStack above, order⟩
    apply scanned.meets valid isNext visited scanned.valid
    exact fun below => Nat.le_of_eq (scanned.number_eq valid below)
  · rename_i notOnStack
    refine { scanned with entered := ?_, order := scanned.order.append order }
    intro target isMet
    rcases List.mem_append.mp isMet with early | last
    · exact scanned.entered target early
    · cases List.mem_singleton.mp last
      exact ⟨old, fun below => absurd (scanned.mem_stack below) notOnStack⟩

theorem number_node :
    state.2.number node = before.numbers.length := by
  rw [scanned.grows.number_eq scanned.valid.numbered List.mem_cons_self, number_enter]

end

theorem followed_path (scanned : Scanned successors path node before (successors node) state) :
    ∀ other ∈ state.2.entered, other ∉ path → ∀ next ∈ successors other,
      next ∈ state.2.entered := by
  intro other entered notOnPath next isNext
  by_cases isNode : other = node
  · subst isNode
    exact (scanned.entered next isNext).1
  · apply scanned.valid.followed other entered _ next isNext
    intro listed
    rcases List.mem_cons.mp listed with same | onPath
    · exact isNode same
    · exact notOnPath onPath

theorem mem_pushed (scanned : Scanned successors path node before met state) {pushed : List α}
    (stack : state.2.stack = pushed ++ node :: before.stack) :
    other ∈ node :: pushed.reverse ↔ other ∈ state.2.stack ∧ other ∉ before.stack := by
  have distinct := scanned.valid.stacked.nodup scanned.valid.numbered.nodup
  rw [stack, List.nodup_append, List.nodup_cons] at distinct
  obtain ⟨_, ⟨nodeNew, _⟩, apart⟩ := distinct
  rw [stack, List.mem_cons, List.mem_reverse, List.mem_append, List.mem_cons]
  constructor
  · rintro (rfl | isPushed)
    · exact ⟨.inr (.inl rfl), nodeNew⟩
    · refine ⟨.inl isPushed, fun below => ?_⟩
      exact apart other isPushed other (List.mem_cons_of_mem _ below) rfl
  · rintro ⟨isPushed | isNode | below, above⟩
    · exact .inr isPushed
    · exact .inl isNode
    · exact absurd below above

theorem not_mem_pushed (scanned : Scanned successors path node before met state) {pushed : List α}
    (stack : state.2.stack = pushed ++ node :: before.stack) : node ∉ pushed := by
  have distinct := scanned.valid.stacked.nodup scanned.valid.numbered.nodup
  rw [stack, List.nodup_append] at distinct
  exact fun member => distinct.2.2 node member node List.mem_cons_self rfl

section Leaving

variable (scanned : Scanned successors path node before (successors node) state)
  (valid : Valid successors path before)
include scanned valid

/-- Whatever leads out of what has been put on the stack has been entered, and where it leads below,
the lowest number tells. -/
theorem next_entered (member : other ∈ state.2.stack) (above : other ∉ before.stack)
    (isNext : next ∈ successors other) :
    next ∈ state.2.entered ∧ (next ∈ before.stack → state.1 ≤ before.number next) := by
  constructor
  · apply scanned.followed_path other (scanned.valid.stack_entered member) _ next isNext
    exact fun onPath => above (valid.pending other onPath)
  · by_cases isNode : other = node
    · subst isNode
      exact (scanned.entered next isNext).2
    · apply scanned.above other member _ next isNext
      intro listed
      rcases List.mem_cons.mp listed with same | below
      · exact isNode same
      · exact above below

theorem reaches_node (member : other ∈ state.2.stack) (above : other ∉ before.stack) :
    Reaches successors node other ∧ Reaches successors other node := by
  have unknown := valid.not_entered scanned.valid scanned.grows_before member above
  have numbers : state.2.number node ≤ state.2.number other := by
    rw [scanned.number_node]
    exact scanned.grows_before.length_le_number scanned.valid.numbered
      (scanned.valid.stack_entered member) unknown
  refine ⟨scanned.valid.falls node List.mem_cons_self other member numbers, ?_⟩
  obtain ⟨earlier, listed, _, reaches⟩ := scanned.valid.rises other member
  rcases List.mem_cons.mp listed with rfl | onPath
  · exact reaches
  · have below := valid.pending earlier onPath
    have lower : state.2.number earlier ≤ state.2.number node := by
      rw [scanned.number_node, scanned.number_eq valid below]
      exact Nat.le_of_lt (number_lt valid.numbered (valid.stack_entered below))
    apply reaches.trans
    apply scanned.valid.falls earlier listed node _ lower
    exact scanned.valid.pending node List.mem_cons_self

end Leaving

section Closing

variable {pushed : List α}
  (scanned : Scanned successors path node before (successors node) state)
  (valid : Valid successors path before) (closing : state.1 = before.numbers.length)
  (stack : state.2.stack = pushed ++ node :: before.stack)
include scanned valid closing stack

theorem descends_pushed : Descends successors ((node :: pushed.reverse) :: state.2.found) := by
  refine ⟨?_, scanned.valid.descends⟩
  intro other member next isNext
  rw [scanned.mem_pushed stack] at member ⊢
  obtain ⟨entered, bound⟩ := scanned.next_entered valid member.1 member.2 isNext
  rcases scanned.valid.mem_entered.mp entered with onStack | found
  · refine .inl ⟨onStack, fun below => ?_⟩
    have low := number_lt valid.numbered (valid.stack_entered below)
    rw [← closing] at low
    exact absurd (bound below) (Nat.not_le.mpr low)
  · exact .inr found

theorem isComponent_pushed : IsComponent successors (node :: pushed.reverse) := by
  refine ⟨List.cons_ne_nil _ _, ?_⟩
  intro first firstMember other
  have firstPlace := (scanned.mem_pushed stack).mp firstMember
  have firstReaches := scanned.reaches_node valid firstPlace.1 firstPlace.2
  constructor
  · intro otherMember
    have otherPlace := (scanned.mem_pushed stack).mp otherMember
    have otherReaches := scanned.reaches_node valid otherPlace.1 otherPlace.2
    exact ⟨firstReaches.2.trans otherReaches.1, otherReaches.2.trans firstReaches.1⟩
  · rintro ⟨leads, returns⟩
    have below := (scanned.descends_pushed valid closing stack).mem_flatten
      (List.mem_flatten.mpr ⟨_, List.mem_cons_self, firstMember⟩) leads
    rw [List.flatten_cons, List.mem_append] at below
    rcases below with member | found
    · exact member
    · have firstFound := scanned.valid.descends.mem_flatten found returns
      exact absurd firstFound (scanned.valid.not_found firstPlace.1)

/-- Without its component the stack is as it was before. -/
theorem valid_close : Valid successors path (state.2.close node) := by
  obtain ⟨closedStack, closedFound⟩ := close_eq stack (scanned.not_mem_pushed stack)
  have ordered : (node :: pushed.reverse).Sublist state.2.order := by
    have reversed := scanned.valid.stacked.reverse
    rw [stack, List.reverse_append, List.reverse_cons, List.append_assoc] at reversed
    exact (List.sublist_append_right _ _).trans reversed
  constructor
  · exact scanned.valid.numbered
  · rw [closedStack]
    exact scanned.grows_before.stack.sublist.trans scanned.valid.stacked
  · have divided := scanned.valid.divided
    rw [stack, List.append_assoc] at divided
    rw [closedStack, closedFound, List.flatten_cons]
    apply List.Perm.trans _ divided
    apply (List.perm_append_comm_assoc _ _ _).trans
    apply List.perm_middle.symm.trans
    exact (List.reverse_perm pushed).append_right _
  · rw [closedStack]
    exact valid.pending
  · exact scanned.followed_path
  · rw [closedFound]
    exact scanned.descends_pushed valid closing stack
  · rw [closedFound]
    refine List.forall_mem_cons.mpr ⟨⟨scanned.isComponent_pushed valid closing stack, ordered⟩, ?_⟩
    exact scanned.valid.components
  · rw [closedStack]
    intro other member
    obtain ⟨earlier, onPath, le, reaches⟩ := valid.rises other member
    refine ⟨earlier, onPath, ?_, reaches⟩
    have same := scanned.number_eq valid (valid.pending earlier onPath)
    rw [← same, ← scanned.number_eq valid member] at le
    exact le
  · rw [closedStack]
    intro earlier onPath other member le
    apply valid.falls earlier onPath other member
    rw [← scanned.number_eq valid member, ← scanned.number_eq valid (valid.pending earlier onPath)]
    exact le

end Closing

/-- Where something below on the stack can be reached, everything stays on the stack. -/
theorem valid_keep (scanned : Scanned successors path node before (successors node) state)
    (valid : Valid successors path before) {low : α} (member : low ∈ before.stack)
    (reaches : Reaches successors node low) : Valid successors path state.2 := by
  refine { scanned.valid with
    pending := ?_, followed := scanned.followed_path, rises := ?_, falls := ?_ }
  · intro earlier onPath
    exact scanned.mem_stack (valid.pending earlier onPath)
  · intro other onStack
    obtain ⟨earlier, listed, le, leads⟩ := scanned.valid.rises other onStack
    rcases List.mem_cons.mp listed with rfl | onPath
    · obtain ⟨older, onPath, olderLe, rises⟩ := valid.rises low member
      refine ⟨older, onPath, ?_, leads.trans (reaches.trans rises)⟩
      rw [scanned.number_node] at le
      rw [scanned.number_eq valid (valid.pending older onPath)]
      have lower := number_lt valid.numbered (valid.stack_entered member)
      omega
    · exact ⟨earlier, onPath, le, leads⟩
  · intro earlier onPath
    exact scanned.valid.falls earlier (List.mem_cons_of_mem _ onPath)

/-- The visit of a node ends when all its successors have been met. -/
theorem leave_spec (scanned : Scanned successors path node before (successors node) state)
    (valid : Valid successors path before) (new : node ∉ before.entered) :
    Valid successors path (leave before node state).2 ∧
      Visited successors node before (leave before node state) := by
  have order : Enters successors before.order [node] state.2.order := by
    have entering : Enters successors (before.order ++ [node]) (successors node) state.2.order := by
      rw [← order_enter]
      exact scanned.order
    exact .single (fun old => new (List.mem_reverse.mp old)) entering
  unfold leave
  by_cases closing : state.1 = before.numbers.length
  · rw [if_pos closing]
    obtain ⟨pushed, isAppend⟩ := scanned.grows.stack
    have stack := isAppend.symm
    have closed := scanned.valid_close valid closing stack
    obtain ⟨closedStack, closedFound⟩ := close_eq stack (scanned.not_mem_pushed stack)
    refine ⟨closed, ?_, .inl ⟨closing, closedStack⟩, ?_, order⟩
    · refine ⟨scanned.grows_before.numbers, ?_, ?_⟩
      · rw [closedStack]
      · rw [closedFound]
        exact scanned.grows_before.found.trans (List.suffix_cons _ _)
    · rw [closedStack]
      exact fun other member above => absurd member above
  · rw [if_neg closing]
    rcases scanned.lowest with same | ⟨low, member, isLow, reaches⟩
    · exact absurd same closing
    · refine ⟨scanned.valid_keep valid member reaches, scanned.grows_before,
        .inr ⟨low, member, isLow, reaches⟩, ?_, order⟩
      intro other onStack above next isNext
      exact (scanned.next_entered valid onStack above isNext).2

end Scanned

section Visit

variable {successors : α → List α} {path : List α} {before after : Traversal α} {node : α}
  {region : Finset α}

theorem Scanned.foldl {visitor : α → Traversal α → Nat × Traversal α}
    (valid : Valid successors path before)
    (visits : ∀ next ∈ successors node, ∀ traversal, Valid successors (node :: path) traversal →
      Grows (before.enter node) traversal → next ∉ traversal.entered →
      Valid successors (node :: path) (visitor next traversal).2 ∧
        Visited successors next traversal (visitor next traversal)) :
    ∀ {nexts met : List α} {state : Nat × Traversal α}, met ++ nexts = successors node →
      Scanned successors path node before met state →
      Scanned successors path node before (successors node) (nexts.foldl (meet visitor) state) := by
  intro nexts
  induction nexts with
  | nil =>
    intro met state all scanned
    rw [← all, List.append_nil]
    exact scanned
  | cons next rest induction =>
    intro met state all scanned
    have isNext : next ∈ successors node :=
      all ▸ List.mem_append_right _ List.mem_cons_self
    have allRest : (met ++ [next]) ++ rest = successors node := by
      rw [List.append_assoc]
      exact all
    apply induction allRest
    unfold meet
    cases found : state.2.numbers.lookup next with
    | none =>
      have new := lookup_eq_none_iff.mp found
      obtain ⟨resultValid, visited⟩ := visits next isNext state.2 scanned.valid scanned.grows new
      apply scanned.meets valid isNext visited resultValid
      exact fun below => absurd (scanned.valid.stack_entered (scanned.mem_stack below)) new
    | some entered =>
      have old : next ∈ state.2.entered := by
        by_contra new
        rw [lookup_eq_none_iff.mpr new] at found
        cases found
      rw [← Traversal.number_eq found]
      exact scanned.meetOld valid isNext old

def remaining (region : Finset α) (traversal : Traversal α) : Finset α :=
  region.filter (· ∉ traversal.entered)

theorem mem_remaining :
    node ∈ remaining region before ↔ node ∈ region ∧ node ∉ before.entered :=
  Finset.mem_filter

theorem remaining_subset (region : Finset α)
    (grows : ∀ other ∈ before.entered, other ∈ after.entered) :
    remaining region after ⊆ remaining region before := by
  intro other member
  rw [mem_remaining] at member ⊢
  exact ⟨member.1, fun old => member.2 (grows other old)⟩

theorem remaining_enter_ssubset (member : node ∈ region) (new : node ∉ before.entered) :
    remaining region (before.enter node) ⊂ remaining region before := by
  apply Finset.ssubset_iff_subset_ne.mpr
  refine ⟨remaining_subset region fun _ => (Grows.enter before node).mem_entered, fun same => ?_⟩
  have inside := mem_remaining.mpr ⟨member, new⟩
  rw [← same, mem_remaining] at inside
  exact inside.2 List.mem_cons_self

/-- A visit keeps the invariant, if it is not cut off in a part of the graph that cannot be left. -/
theorem visit_spec (closed : ∀ node ∈ region, ∀ next ∈ successors node, next ∈ region) :
    ∀ {depth : Nat} {path : List α} {node : α} {before : Traversal α}, node ∈ region →
      (remaining region before).card ≤ depth → Valid successors path before →
      node ∉ before.entered → (∀ earlier ∈ path, Reaches successors earlier node) →
      Valid successors path (visit successors depth node before).2 ∧
        Visited successors node before (visit successors depth node before) := by
  intro depth
  induction depth with
  | zero =>
    intro path node before member enough _ new
    have fewer := Finset.card_lt_card (remaining_enter_ssubset member new)
    omega
  | succ depth induction =>
    intro path node before member enough valid new led
    rw [visit_succ]
    apply Scanned.leave_spec _ valid new
    apply Scanned.foldl valid _ (List.nil_append _) (.start valid new led)
    intro next isNext traversal traversalValid grows fresh
    apply induction (closed node member next isNext) _ traversalValid fresh
    · intro earlier listed
      rcases List.mem_cons.mp listed with rfl | onPath
      · exact .single isNext
      · exact (led earlier onPath).tail isNext
    · have fewer := Finset.card_lt_card (remaining_enter_ssubset member new)
      have bound := Finset.card_le_card (remaining_subset region fun _ => grows.mem_entered)
      omega

end Visit

end Traversal

end Reachability.Graph
