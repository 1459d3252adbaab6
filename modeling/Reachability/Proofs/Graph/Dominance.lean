import Mathlib
import Reachability.Proofs.Graph.Components

/-!
# Dominance and reducible graphs

A node dominates another one if there is no way around it, from the entry to the
other node.  In a reducible graph some steps lead back to a node that dominates
the one they leave, and the others only go up.  So a part of it that is strongly
connected has a header: steps lead back to it, and it dominates the whole part.
A depth-first traversal enters it first, if it is given the nodes in an order in
which dominating nodes come first.
-/

namespace Reachability.Graph

variable {α : Type u} {step back : α → α → Prop} {entry node other source target : α}

/-- A step that does not lead to the given node. -/
def Avoids (step : α → α → Prop) (node source target : α) : Prop :=
  step source target ∧ target ≠ node

/-- There is a way from the entry to `target` that does not go through `node`. -/
structure Bypasses (step : α → α → Prop) (entry node target : α) : Prop where
  starts : entry ≠ node
  reaches : Relation.ReflTransGen (Avoids step node) entry target

/-- Every way from the entry to `target` goes through `node`. -/
def Dominates (step : α → α → Prop) (entry node target : α) : Prop :=
  ¬Bypasses step entry node target

theorem reaches_of_avoids (reaches : Relation.ReflTransGen (Avoids step node) source target) :
    Relation.ReflTransGen step source target := by
  induction reaches with
  | refl => exact .refl
  | tail _ last induction => exact induction.tail last.1

/-- A way that goes through a node has a last part that only starts there. -/
theorem avoids_or_last_visit (node : α) (reaches : Relation.ReflTransGen step source target) :
    Relation.ReflTransGen (Avoids step node) source target ∨
      Relation.ReflTransGen (Avoids step node) node target := by
  induction reaches with
  | refl => exact .inl .refl
  | @tail middle target _ last induction =>
    by_cases here : target = node
    · rw [here]
      exact .inr .refl
    · rcases induction with around | through
      · exact .inl (around.tail ⟨last, here⟩)
      · exact .inr (through.tail ⟨last, here⟩)

theorem Bypasses.tail (bypasses : Bypasses step entry node source) (last : step source target)
    (apart : target ≠ node) : Bypasses step entry node target :=
  ⟨bypasses.starts, bypasses.reaches.tail ⟨last, apart⟩⟩

namespace Dominates

theorem refl (step : α → α → Prop) (entry node : α) : Dominates step entry node node := by
  intro bypasses
  rcases bypasses.reaches.cases_tail with same | ⟨_, _, _, apart⟩
  · exact bypasses.starts same.symm
  · exact apart rfl

/-- What dominates a node dominates everything that leads there. -/
theorem of_step (dominates : Dominates step entry node target) (apart : target ≠ node)
    (last : step source target) : Dominates step entry node source :=
  fun bypasses => dominates (bypasses.tail last apart)

/-- A way along some of the steps goes through what dominates its end. -/
theorem visits {narrow : α → α → Prop} (dominates : Dominates step entry node target)
    (narrower : narrow ≤ step) (reached : Relation.ReflTransGen narrow entry target) :
    Relation.ReflTransGen narrow entry node := by
  induction reached with
  | refl =>
    by_contra away
    exact dominates ⟨fun same => away (same ▸ .refl), .refl⟩
  | @tail source target path last induction =>
    by_cases here : target = node
    · rw [← here]
      exact path.tail last
    · exact induction (dominates.of_step here (narrower _ _ last))

theorem reaches (dominates : Dominates step entry node target)
    (reached : Relation.ReflTransGen step entry target) :
    Relation.ReflTransGen step node target := by
  rcases avoids_or_last_visit node reached with around | through
  · by_cases here : entry = node
    · rw [← here]
      exact reached
    · exact absurd ⟨here, around⟩ dominates
  · exact reaches_of_avoids through

theorem antisymm (dominates : Dominates step entry node other)
    (dominated : Dominates step entry other node)
    (reached : Relation.ReflTransGen step entry node) : node = other := by
  by_contra different
  have away : entry ≠ node ∧ entry ≠ other := by
    constructor
    · rintro rfl
      exact dominated ⟨different, .refl⟩
    · rintro rfl
      exact dominates ⟨Ne.symm different, .refl⟩
  have neither : ∀ target, Relation.ReflTransGen step entry target →
      Relation.ReflTransGen (Avoids (Avoids step node) other) entry target := by
    intro target reached
    induction reached with
    | refl => exact .refl
    | @tail source target _ last induction =>
      apply induction.tail
      refine ⟨⟨last, ?_⟩, ?_⟩
      · rintro rfl
        apply dominated
        refine ⟨away.2, Relation.ReflTransGen.tail ?_ ⟨last, different⟩⟩
        exact Relation.ReflTransGen.mono (fun _ _ avoids => ⟨avoids.1.1, avoids.2⟩) _ _ induction
      · rintro rfl
        apply dominates
        refine ⟨away.1, Relation.ReflTransGen.tail ?_ ⟨last, Ne.symm different⟩⟩
        exact reaches_of_avoids induction
  rcases (neither node reached).cases_tail with same | ⟨_, _, avoids⟩
  · exact away.1 same.symm
  · exact avoids.1.2 rfl

end Dominates

/-- Steps lead back to a node that dominates where they start, or up. -/
structure Reducible (step back : α → α → Prop) (entry : α) (rank : α → Nat) : Prop where
  returns : ∀ source target, back source target →
    step source target ∧ Dominates step entry target source
  ascends : ∀ source target, step source target → ¬back source target → rank source < rank target

section Components

variable {successors : α → List α} {part : List α} {rank : α → Nat}

theorem IsComponent.mem_of_step (component : IsComponent successors part) (member : node ∈ part)
    (isNext : other ∈ successors node) (target : α) (isTarget : target ∈ part)
    (reaches : Reaches successors other target) : other ∈ part := by
  apply (component.connected node member other).mpr
  refine ⟨.single isNext, reaches.trans ?_⟩
  exact ((component.connected target isTarget node).mp member).1

/-- The node of a cyclic component that is lowest dominates it, and a step of the component leads
back there. -/
theorem Reducible.exists_header (reducible : Reducible step back entry rank)
    (inside : ∀ node, ∀ next ∈ successors node, step node next)
    (component : IsComponent successors part)
    (cyclic : ∃ node ∈ part, Relation.TransGen (Steps successors) node node) :
    ∃ header ∈ part, (∃ source ∈ part, back source header) ∧
      ∀ node ∈ part, Dominates step entry header node := by
  obtain ⟨start, startMember, cycle⟩ := cyclic
  obtain ⟨header, member, lowest⟩ := Set.exists_min_image {node | node ∈ part} rank
    part.finite_toSet ⟨start, startMember⟩
  have returns : ∀ source ∈ part, header ∈ successors source → back source header := by
    intro source isSource isNext
    by_contra forward
    have less := reducible.ascends source header (inside source header isNext) forward
    exact absurd (lowest source isSource) (Nat.not_le.mpr less)
  refine ⟨header, member, ?_, ?_⟩
  · obtain ⟨leads, follows⟩ := (component.connected header member start).mp startMember
    obtain ⟨source, reaches, last⟩ := Relation.TransGen.tail'_iff.mp
      ((cycle.trans_left follows).trans_right leads)
    have isSource := (component.connected header member source).mpr ⟨reaches, .single last⟩
    exact ⟨source, isSource, returns source isSource last⟩
  · intro node isNode
    have reaches := ((component.connected node isNode header).mp member).1
    induction reaches using Relation.ReflTransGen.head_induction_on with
    | refl => exact .refl step entry header
    | @head node next first rest induction =>
      have isNext := component.mem_of_step isNode first header member rest
      by_cases here : next = header
      · rw [here] at first
        exact (reducible.returns node header (returns node isNode first)).2
      · exact (induction isNext).of_step here (inside node next first)

end Components

/-- Whatever must come before a node of the list stands before it in the list or among the `earlier`
nodes. -/
def Respects (first : α → α → Prop) (earlier : List α) : List α → Prop
  | [] => True
  | node :: rest =>
    (∀ other, first other node → other ∈ earlier) ∧ Respects first (earlier ++ [node]) rest

section Order

variable {successors : α → List α} {first : α → α → Prop} {earlier more nodes before after : List α}

theorem Respects.mono (respects : Respects first earlier nodes) (subset : earlier ⊆ more) :
    Respects first more nodes := by
  induction nodes generalizing earlier more with
  | nil => trivial
  | cons node rest induction =>
    refine ⟨fun other isFirst => subset (respects.1 other isFirst), ?_⟩
    apply induction respects.2
    apply List.append_subset.mpr
    exact ⟨List.subset_append_of_subset_left _ subset, List.subset_append_right _ _⟩

theorem respects_of_mem (nodes : List α)
    (known : ∀ node ∈ nodes, ∀ other, first other node → other ∈ earlier) :
    Respects first earlier nodes := by
  induction nodes generalizing earlier with
  | nil => trivial
  | cons node rest induction =>
    rw [List.forall_mem_cons] at known
    refine ⟨known.1, induction ?_⟩
    intro other isRest earliest isFirst
    exact List.mem_append_left _ (known.2 other isRest earliest isFirst)

theorem respects_append_singleton :
    Respects first earlier (nodes ++ [node]) ↔
      Respects first earlier nodes ∧ ∀ other, first other node → other ∈ earlier ++ nodes := by
  induction nodes generalizing earlier with
  | nil => simp [Respects]
  | cons other rest induction =>
    simp only [List.cons_append, Respects, induction, List.append_assoc, List.nil_append, and_assoc]

/-- A depth-first traversal respects an order in which what comes before a node also comes before,
or is, each node that leads there. -/
theorem Enters.respects (enters : Enters successors before nodes after)
    (follows : ∀ node, ∀ next ∈ successors node, ∀ other, first other next →
      other = node ∨ first other node)
    (respected : Respects first [] before) (turns : Respects first before nodes) :
    Respects first [] after := by
  induction enters with
  | done entered => exact respected
  | skip old _ induction =>
    apply induction respected
    apply turns.2.mono
    apply List.append_subset.mpr
    exact ⟨List.Subset.refl _, List.cons_subset.mpr ⟨old, List.nil_subset _⟩⟩
  | @enter node rest entered middle after _ visits _ inside later =>
    have extended : Respects first [] (entered ++ [node]) :=
      respects_append_singleton.mpr ⟨respected, turns.1⟩
    apply later (inside extended ?_)
    · exact turns.2.mono visits.isPrefix.subset
    · apply respects_of_mem
      intro next isNext other isFirst
      rcases follows node next isNext other isFirst with same | earlier
      · exact List.mem_append_right _ (List.mem_singleton.mpr same)
      · exact List.mem_append_left _ (turns.1 other earlier)

theorem respects_of_pairwise (irreflexive : ∀ node, ¬first node node)
    (listed : ∀ other node, first other node → other ∈ earlier ++ nodes)
    (ordered : nodes.Pairwise fun node later => ¬first later node) :
    Respects first earlier nodes := by
  induction nodes generalizing earlier with
  | nil => trivial
  | cons node rest induction =>
    obtain ⟨here, ordered⟩ := List.pairwise_cons.mp ordered
    constructor
    · intro other isFirst
      rcases List.mem_append.mp (listed other node isFirst) with known | late
      · exact known
      · rcases List.mem_cons.mp late with rfl | later
        · exact absurd isFirst (irreflexive other)
        · exact absurd isFirst (here other later)
    · apply induction _ ordered
      intro other later isFirst
      rw [List.append_assoc]
      exact listed other later isFirst

theorem Respects.pairwise (respects : Respects first earlier nodes)
    (distinct : (earlier ++ nodes).Nodup) : nodes.Pairwise fun node later => ¬first later node := by
  induction nodes generalizing earlier with
  | nil => exact .nil
  | cons node rest induction =>
    apply List.pairwise_cons.mpr
    constructor
    · intro later isLater isFirst
      have known := respects.1 later isFirst
      exact List.disjoint_of_nodup_append distinct known (List.mem_cons_of_mem _ isLater)
    · apply induction respects.2
      rw [List.append_assoc]
      exact distinct

end Order

/-- Given nodes in an order in which dominating ones come first, a depth-first traversal that does
not leave them enters them in such an order, too. -/
theorem Enters.pairwise_dominates {successors : α → List α} {nodes order : List α}
    (enters : Enters successors [] nodes order)
    (inside : ∀ node, ∀ next ∈ successors node, step node next ∧ next ∈ nodes)
    (ordered : nodes.Pairwise fun node later => Dominates step entry later node → later = node) :
    order.Pairwise fun node later => Dominates step entry later node → later = node := by
  let first (other node : α) : Prop :=
    other ∈ nodes ∧ other ≠ node ∧ Dominates step entry other node
  have turns : Respects first [] nodes := by
    apply respects_of_pairwise
    · exact fun _ impossible => impossible.2.1 rfl
    · exact fun _ _ isFirst => isFirst.1
    · exact ordered.imp fun fine isFirst => isFirst.2.1 (fine isFirst.2.2)
  have follows : ∀ node, ∀ next ∈ successors node, ∀ other, first other next →
      other = node ∨ first other node := by
    intro node next isNext other isFirst
    by_cases same : other = node
    · exact .inl same
    · obtain ⟨listed, different, dominates⟩ := isFirst
      exact .inr ⟨listed, same, dominates.of_step (Ne.symm different) (inside node next isNext).1⟩
  have distinct : ([] ++ order).Nodup := enters.nodup List.nodup_nil
  have listed : ∀ node ∈ order, node ∈ nodes := by
    intro node member
    obtain ⟨start, isStart, reaches⟩ := enters.mem_iff.mp member
    rcases reaches.cases_tail with same | ⟨source, _, last⟩
    · exact same ▸ isStart
    · exact (inside source node last).2
  apply ((enters.respects follows trivial turns).pairwise distinct).imp_of_mem
  intro node later _ isLater notFirst dominates
  by_contra different
  exact notFirst ⟨listed later isLater, different, dominates⟩

end Reachability.Graph
