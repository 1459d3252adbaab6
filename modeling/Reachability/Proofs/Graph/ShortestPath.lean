import Mathlib
import Reachability.Graph.ShortestPath
import Reachability.Proofs.Graph.Digraph
import Reachability.Proofs.Graph.Heap

/-!
# Correctness of shortest paths

At any time, all labels lie within one edge of the closest node whose successors
have not been visited, since the heap yields the closest node first.  So a
successor that has a label already needs no better one: the branch of a search
that lowers a label is never taken.  In the end every walk is at least as long as
the label of the node where it ends.
-/

namespace Reachability.Graph

namespace Frontier

def label? (frontier : Frontier) (node : Nat) : Option Label := frontier.labels[node]?.join

def unlabelled (frontier : Frontier) : Nat := frontier.labels.toList.countP Option.isNone

def remaining (frontier : Frontier) : Nat := frontier.unlabelled + frontier.heap.toList.length

/-- The invariant of the search.  The closest node that waits is at distance `level` or more; the
edges of a visited node that remain to be followed satisfy `Left`. -/
structure Explores (graph : Digraph) (start level : Nat) (Left : Nat → Nat → Prop)
    (frontier : Frontier) : Prop where
  size : frontier.labels.size = graph.order
  ordered : frontier.heap.Ordered
  origin : frontier.label? start = some ⟨0, none⟩
  chained : ∀ node label, frontier.label? node = some label →
    node = start ∧ label = ⟨0, none⟩ ∨ ∃ parent before, label.parent = some parent ∧
      frontier.label? parent = some before ∧ label.distance = before.distance + 1 ∧
      (parent, node) ∈ graph.edges
  queued : ∀ entry ∈ frontier.heap.toList, ∃ label, frontier.label? entry.2 = some label ∧
    label.distance = entry.1
  far : ∀ node label, frontier.label? node = some label → label.distance ≤ level + 1
  close : ∀ entry ∈ frontier.heap.toList, level ≤ entry.1
  settled : ∀ node label, frontier.label? node = some label →
    (label.distance, node) ∈ frontier.heap.toList ∨ ∀ next, (node, next) ∈ graph.edges →
      Left node next ∨ ∃ other, frontier.label? next = some other ∧
        other.distance ≤ label.distance + 1
  room : ∀ node label, frontier.label? node = some label →
    label.distance + frontier.unlabelled < graph.order

/-- Label a node as a successor of `node`, which is at distance `level`. -/
def mark (frontier : Frontier) (node level next : Nat) : Frontier :=
  { labels := frontier.labels.setIfInBounds next (some ⟨level + 1, some node⟩)
    heap := frontier.heap.insert (level + 1) next }

section Labelling

variable {frontier : Frontier} {node level next : Nat}

section

variable (free : frontier.labels[next]? = some none)

include free

theorem label?_mark (other : Nat) :
    (frontier.mark node level next).label? other =
      if other = next then some ⟨level + 1, some node⟩ else frontier.label? other := by
  have bound := (Array.getElem?_eq_some_iff.mp free).1
  unfold label? mark
  dsimp only
  rw [Array.getElem?_setIfInBounds]
  by_cases same : other = next
  · subst same
    rw [if_pos rfl, if_pos bound, if_pos rfl]
    rfl
  · rw [if_neg (Ne.symm same), if_neg same]

theorem label?_mark_of_some {other : Nat} {label : Label}
    (labelled : frontier.label? other = some label) :
    (frontier.mark node level next).label? other = some label := by
  rw [label?_mark free, if_neg, labelled]
  rintro rfl
  unfold label? at labelled
  rw [free] at labelled
  cases labelled

theorem label?_mark_eq_some {other : Nat} {label : Label}
    (labelled : (frontier.mark node level next).label? other = some label) :
    other = next ∧ label = ⟨level + 1, some node⟩ ∨ frontier.label? other = some label := by
  rw [label?_mark free] at labelled
  split at labelled
  · rename_i same
    cases labelled
    exact .inl ⟨same, rfl⟩
  · exact .inr labelled

theorem unlabelled_mark (node level : Nat) :
    (frontier.mark node level next).unlabelled + 1 = frontier.unlabelled := by
  obtain ⟨bound, found⟩ := Array.getElem?_eq_some_iff.mp free
  have inList : next < frontier.labels.toList.length := bound
  have value : frontier.labels.toList[next] = none := found
  have positive : 0 < frontier.labels.toList.countP Option.isNone :=
    List.countP_pos_iff.mpr ⟨none, value ▸ List.getElem_mem inList, rfl⟩
  unfold unlabelled mark
  dsimp only
  rw [Array.toList_setIfInBounds, List.countP_set inList, value]
  simp only [Option.isNone_none, Option.isNone_some, if_true, Bool.false_eq_true, if_false]
  omega

end

/-- A successor with a label keeps it unless the new distance is smaller. -/
theorem relax_cases (node level : Nat) (bound : next < frontier.labels.size) :
    frontier.labels[next]? = some none ∧
        Digraph.relax node level frontier next = frontier.mark node level next ∨
      ∃ other, frontier.label? next = some other ∧
        (¬level + 1 < other.distance → Digraph.relax node level frontier next = frontier) := by
  unfold Digraph.relax label?
  cases found : frontier.labels[next]? with
  | none => exact absurd bound (Nat.not_lt.mpr (Array.getElem?_eq_none_iff.mp found))
  | some label =>
    cases label with
    | none => exact .inl ⟨rfl, rfl⟩
    | some label => exact .inr ⟨label, rfl, fun higher => if_neg higher⟩

end Labelling

namespace Explores

variable {graph : Digraph} {start level : Nat} {Left Rest : Nat → Nat → Prop} {frontier : Frontier}
  {node next : Nat} {label : Label}

/-- No label is lowered, since all labels are close to the current level. -/
theorem not_lower (explores : Explores graph start level Left frontier)
    (known : frontier.label? next = some label) : ¬level + 1 < label.distance :=
  Nat.not_lt.mpr (explores.far next label known)

/-- A labelled successor needs no other label. -/
theorem keep (explores : Explores graph start level Left frontier) {other : Label}
    (labelled : frontier.label? node = some label) (atLevel : label.distance = level)
    (known : frontier.label? next = some other)
    (rest : ∀ a b, Left a b → a = node ∧ b = next ∨ Rest a b) :
    Explores graph start level Rest frontier := by
  refine { explores with settled := ?_ }
  intro a first found
  rcases explores.settled a first found with waits | visited
  · exact .inl waits
  · right
    intro b edge
    rcases visited b edge with left | done
    · rcases rest a b left with ⟨rfl, rfl⟩ | remains
      · rw [labelled] at found
        cases found
        exact .inr ⟨other, known, atLevel ▸ explores.far _ _ known⟩
      · exact .inl remains
    · exact .inr done

/-- A successor without label is one edge further away and waits. -/
theorem mark (explores : Explores graph start level Left frontier)
    (labelled : frontier.label? node = some label) (atLevel : label.distance = level)
    (free : frontier.labels[next]? = some none) (edge : (node, next) ∈ graph.edges)
    (rest : ∀ a b, Left a b → a = node ∧ b = next ∨ Rest a b) :
    Explores graph start level Rest (frontier.mark node level next) := by
  obtain ⟨ordered, perm⟩ := Heap.insert_ordered explores.ordered (level + 1) next
  have marked : (frontier.mark node level next).label? next = some ⟨level + 1, some node⟩ := by
    rw [label?_mark free, if_pos rfl]
  have fewer := unlabelled_mark free node level
  constructor
  · exact (Array.size_setIfInBounds ..).trans explores.size
  · exact ordered
  · exact label?_mark_of_some free explores.origin
  · intro a first found
    rcases label?_mark_eq_some free found with ⟨rfl, rfl⟩ | old
    · exact .inr ⟨node, label, rfl, label?_mark_of_some free labelled, by rw [atLevel], edge⟩
    · rcases explores.chained a first old with isStart | ⟨parent, before, isParent, known, rest⟩
      · exact .inl isStart
      · exact .inr ⟨parent, before, isParent, label?_mark_of_some free known, rest⟩
  · intro entry member
    rcases List.mem_cons.mp (perm.mem_iff.mp member) with rfl | old
    · exact ⟨_, marked, rfl⟩
    · obtain ⟨first, found, same⟩ := explores.queued entry old
      exact ⟨first, label?_mark_of_some free found, same⟩
  · intro a first found
    rcases label?_mark_eq_some free found with ⟨rfl, rfl⟩ | old
    · exact Nat.le_refl _
    · exact explores.far a first old
  · intro entry member
    rcases List.mem_cons.mp (perm.mem_iff.mp member) with rfl | old
    · exact Nat.le_succ _
    · exact explores.close entry old
  · intro a first found
    rcases label?_mark_eq_some free found with ⟨rfl, rfl⟩ | old
    · exact .inl (perm.mem_iff.mpr List.mem_cons_self)
    · rcases explores.settled a first old with waits | visited
      · exact .inl (perm.mem_iff.mpr (List.mem_cons_of_mem _ waits))
      · right
        intro b follows
        rcases visited b follows with left | ⟨other, known, near⟩
        · rcases rest a b left with ⟨rfl, rfl⟩ | remains
          · rw [labelled] at old
            cases old
            exact .inr ⟨_, marked, by rw [atLevel]⟩
          · exact .inl remains
        · exact .inr ⟨other, label?_mark_of_some free known, near⟩
  · intro a first found
    rcases label?_mark_eq_some free found with ⟨rfl, rfl⟩ | old
    · have room := explores.room node label labelled
      dsimp only
      omega
    · have room := explores.room a first old
      omega

theorem relax (explores : Explores graph start level Left frontier) (valid : graph.Valid)
    (labelled : frontier.label? node = some label) (atLevel : label.distance = level)
    (edge : (node, next) ∈ graph.edges) (rest : ∀ a b, Left a b → a = node ∧ b = next ∨ Rest a b) :
    Explores graph start level Rest (Digraph.relax node level frontier next) ∧
      (Digraph.relax node level frontier next).label? node = some label ∧
      (Digraph.relax node level frontier next).remaining = frontier.remaining := by
  have bound : next < frontier.labels.size := by
    rw [explores.size]
    exact Digraph.lt_order (valid _ edge).2
  rcases relax_cases node level bound with ⟨free, marks⟩ | ⟨other, known, keeps⟩
  · rw [marks]
    refine ⟨explores.mark labelled atLevel free edge rest, label?_mark_of_some free labelled, ?_⟩
    have fewer := unlabelled_mark free node level
    have more := (Heap.insert_ordered explores.ordered (level + 1) next).2.length_eq
    unfold remaining
    simp only [List.length_cons] at more
    change _ + (frontier.heap.insert (level + 1) next).toList.length = _
    omega
  · rw [keeps (explores.not_lower known)]
    exact ⟨explores.keep labelled atLevel known rest, labelled, rfl⟩

theorem relaxAll {nexts : List Nat}
    (explores : Explores graph start level (fun a b => a = node ∧ b ∈ nexts) frontier)
    (valid : graph.Valid) (labelled : frontier.label? node = some label)
    (atLevel : label.distance = level) (edges : ∀ next ∈ nexts, (node, next) ∈ graph.edges) :
    Explores graph start level (fun _ _ => False)
        (nexts.foldl (Digraph.relax node level) frontier) ∧
      (nexts.foldl (Digraph.relax node level) frontier).remaining = frontier.remaining := by
  induction nexts generalizing frontier with
  | nil => exact ⟨{ explores with settled := by simpa using explores.settled }, rfl⟩
  | cons next nexts induction =>
    have splits : ∀ a b, a = node ∧ b ∈ next :: nexts →
        a = node ∧ b = next ∨ a = node ∧ b ∈ nexts := by
      rintro a b ⟨isNode, member⟩
      rcases List.mem_cons.mp member with first | later
      · exact .inl ⟨isNode, first⟩
      · exact .inr ⟨isNode, later⟩
    obtain ⟨after, stillLabelled, same⟩ := explores.relax valid labelled atLevel
      (edges next List.mem_cons_self) splits
    obtain ⟨final, sameRest⟩ := induction after stillLabelled
      fun other member => edges other (List.mem_cons_of_mem _ member)
    rw [List.foldl_cons]
    exact ⟨final, sameRest.trans same⟩

theorem extract (explores : Explores graph start level (fun _ _ => False) frontier)
    {distance : Nat} {heap : Heap}
    (extracted : frontier.heap.extract? = some ((distance, node), heap)) :
    Explores graph start distance (fun a b => a = node ∧ b ∈ graph.successors node)
        { frontier with heap } ∧
      (∃ label, frontier.label? node = some label ∧ label.distance = distance) ∧
      ({ frontier with heap } : Frontier).remaining + 1 = frontier.remaining := by
  obtain ⟨ordered, perm, smallest⟩ := Heap.extract?_some explores.ordered extracted
  have taken : (distance, node) ∈ frontier.heap.toList := perm.mem_iff.mpr List.mem_cons_self
  have higher : level ≤ distance := explores.close _ taken
  have older : ∀ entry ∈ heap.toList, entry ∈ frontier.heap.toList :=
    fun entry member => perm.mem_iff.mpr (List.mem_cons_of_mem _ member)
  refine ⟨?_, explores.queued _ taken, ?_⟩
  · constructor
    · exact explores.size
    · exact ordered
    · exact explores.origin
    · exact explores.chained
    · exact fun entry member => explores.queued entry (older entry member)
    · exact fun a label found =>
        Nat.le_trans (explores.far a label found) (Nat.add_le_add_right higher 1)
    · exact fun entry member => smallest entry (older entry member)
    · intro a label found
      rcases explores.settled a label found with waits | visited
      · rcases List.mem_cons.mp (perm.mem_iff.mp waits) with same | later
        · cases same
          exact .inr fun next edge => .inl ⟨rfl, Digraph.mem_successors.mpr edge⟩
        · exact .inl later
      · exact .inr fun next edge => .inr ((visited next edge).resolve_left id)
    · exact explores.room
  · have fewer := perm.length_eq
    simp only [List.length_cons] at fewer
    unfold remaining
    rw [fewer]
    rfl

/-- With as many visits as nodes remain, no node is left waiting. -/
theorem settle (valid : graph.Valid) {steps : Nat}
    (explores : Explores graph start level (fun _ _ => False) frontier)
    (enough : frontier.remaining ≤ steps) :
    ∃ last, Explores graph start last (fun _ _ => False) (graph.settle steps frontier) ∧
      (graph.settle steps frontier).heap.toList = [] := by
  induction steps generalizing level frontier with
  | zero =>
    have nothing : frontier.heap.toList.length = 0 := by
      unfold remaining at enough
      omega
    exact ⟨level, explores, List.eq_nil_of_length_eq_zero nothing⟩
  | succ steps induction =>
    unfold Digraph.settle
    split
    · rename_i nothing
      exact ⟨level, explores, Heap.extract?_eq_none.mp nothing⟩
    · rename_i distance node heap extracted
      obtain ⟨opened, ⟨label, labelled, atLevel⟩, fewer⟩ := explores.extract extracted
      obtain ⟨closed, same⟩ := opened.relaxAll valid labelled atLevel
        fun next member => Digraph.mem_successors.mp member
      exact induction closed (by omega)

theorem distance_le (explores : Explores graph start level (fun _ _ => False) frontier)
    (nothing : frontier.heap.toList = []) {length : Nat} (walk : graph.Walk start length node) :
    ∃ label, frontier.label? node = some label ∧ label.distance ≤ length := by
  induction walk with
  | start => exact ⟨_, explores.origin, Nat.le_refl _⟩
  | step _ edge induction =>
    obtain ⟨label, found, near⟩ := induction
    rcases explores.settled _ label found with waits | visited
    · rw [nothing] at waits
      cases waits
    · obtain ⟨other, known, next⟩ := (visited _ edge).resolve_left id
      exact ⟨other, known, Nat.le_trans next (Nat.add_le_add_right near 1)⟩

theorem followParents_eq (explores : Explores graph start level Left frontier) {steps : Nat}
    (labelled : frontier.label? node = some label) (enough : label.distance < steps)
    (rest : List Nat) :
    ∃ path, Digraph.followParents frontier.labels steps node rest = path ++ rest ∧
      path.head? = some start ∧ path.getLast? = some node ∧ path.length = label.distance + 1 ∧
      path.IsChain (fun source target => (source, target) ∈ graph.edges) := by
  induction steps generalizing node label rest with
  | zero => exact absurd enough (Nat.not_lt_zero _)
  | succ steps induction =>
    have stored : frontier.labels[node]? = some (some label) := Option.join_eq_some_iff.mp labelled
    unfold Digraph.followParents
    rw [stored]
    rcases explores.chained node label labelled with ⟨rfl, rfl⟩ |
      ⟨parent, before, isParent, found, further, edge⟩
    · exact ⟨[node], rfl, rfl, rfl, rfl, .singleton node⟩
    · obtain ⟨path, follows, head, last, length, chain⟩ :=
        induction found (by omega) (node :: rest)
      obtain ⟨distance, _⟩ := label
      cases isParent
      refine ⟨path ++ [node], ?_, ?_, ?_, ?_, ?_⟩
      · rw [List.append_assoc]
        exact follows
      · rw [List.head?_append, head]
        rfl
      · exact List.getLast?_concat
      · rw [List.length_append, length]
        exact congrArg (· + 1) further.symm
      · refine chain.append (.singleton node) ?_
        intro source isLast target isNode
        rw [last] at isLast
        cases isLast
        cases isNode
        exact edge

end Explores

/-- The start of the search, with one label. -/
def opening (graph : Digraph) (start : Nat) : Frontier :=
  { labels := (Array.replicate graph.order none).setIfInBounds start (some ⟨0, none⟩)
    heap := Heap.insert #[] 0 start }

theorem explores_opening {graph : Digraph} {start : Nat} (present : start ∈ graph.nodes) :
    Explores graph start 0 (fun _ _ => False) (opening graph start) ∧
      (opening graph start).remaining = graph.order := by
  have bound := Digraph.lt_order present
  obtain ⟨ordered, perm⟩ := Heap.insert_ordered Heap.ordered_empty 0 start
  have only : ∀ entry, entry ∈ (opening graph start).heap.toList ↔ entry = (0, start) := by
    intro entry
    rw [opening, perm.mem_iff]
    simp
  have labelled : ∀ node, (opening graph start).label? node =
      if node = start then some ⟨0, none⟩ else none := by
    intro node
    unfold label? opening
    dsimp only
    rw [Array.getElem?_setIfInBounds, Array.size_replicate]
    by_cases same : node = start
    · subst same
      simp [bound]
    · rw [if_neg (Ne.symm same), if_neg same, Array.getElem?_replicate]
      split <;> rfl
  have single : ∀ node label, (opening graph start).label? node = some label →
      node = start ∧ label = ⟨0, none⟩ := by
    intro node label found
    rw [labelled] at found
    split at found
    · rename_i same
      cases found
      exact ⟨same, rfl⟩
    · cases found
  have unlabelled : (opening graph start).unlabelled + 1 = graph.order := by
    unfold Frontier.unlabelled opening
    dsimp only
    rw [Array.toList_setIfInBounds, Array.toList_replicate,
      List.countP_set (by simpa using bound), List.countP_replicate]
    simp only [List.getElem_replicate, Option.isNone_none, Option.isNone_some, if_true,
      Bool.false_eq_true, if_false]
    omega
  constructor
  · constructor
    · exact (Array.size_setIfInBounds ..).trans Array.size_replicate
    · exact ordered
    · rw [labelled, if_pos rfl]
    · exact fun node label found => .inl (single node label found)
    · intro entry member
      rw [only] at member
      subst member
      exact ⟨⟨0, none⟩, by rw [labelled, if_pos rfl], rfl⟩
    · intro node label found
      obtain ⟨_, rfl⟩ := single node label found
      exact Nat.zero_le _
    · exact fun entry _ => Nat.zero_le _
    · intro node label found
      obtain ⟨rfl, rfl⟩ := single node label found
      exact .inl ((only _).mpr rfl)
    · intro node label found
      obtain ⟨_, rfl⟩ := single node label found
      dsimp only
      omega
  · unfold remaining
    rw [opening, perm.length_eq]
    exact unlabelled

end Frontier

namespace Digraph

variable {graph : Digraph} {start target length : Nat}

/-- If there is a walk from the start to the target, a path between them is found, and no walk is
shorter. -/
theorem exists_shortestPath (valid : graph.Valid) (present : start ∈ graph.nodes)
    (walk : graph.Walk start length target) :
    ∃ path, graph.shortestPath start target = .ok (some path) ∧ path.head? = some start ∧
      path.getLast? = some target ∧
      path.IsChain (fun source target => (source, target) ∈ graph.edges) ∧
      ∀ other, graph.Walk start other target → path.length ≤ other + 1 := by
  have known : graph.hasNode start = true := by
    simpa [hasNode] using present
  unfold shortestPath
  rw [known]
  simp only [Bool.not_true, Bool.false_eq_true, if_false]
  by_cases same : start = target
  · subst same
    rw [if_pos rfl]
    exact ⟨[start], rfl, rfl, rfl, .singleton start, fun other _ => Nat.le_add_left _ _⟩
  · rw [if_neg same]
    obtain ⟨explores, order⟩ := Frontier.explores_opening present
    obtain ⟨level, final, nothing⟩ := explores.settle valid (Nat.le_of_eq order)
    obtain ⟨label, labelled, _⟩ := final.distance_le nothing walk
    have stored : (graph.labelsFrom start)[target]? = some (some label) :=
      Option.join_eq_some_iff.mp labelled
    obtain ⟨path, follows, head, last, count, chain⟩ := final.followParents_eq labelled
      (Nat.lt_of_le_of_lt (Nat.le_add_right _ _) (final.room target label labelled)) []
    rw [List.append_nil] at follows
    refine ⟨path, ?_, head, last, chain, ?_⟩
    · rw [stored]
      exact congrArg (fun path => Except.ok (some path)) follows
    · intro other otherWalk
      obtain ⟨otherLabel, found, near⟩ := final.distance_le nothing otherWalk
      rw [labelled] at found
      cases found
      rw [count]
      exact Nat.add_le_add_right near 1

end Digraph

end Reachability.Graph
