import Mathlib
import Reachability.Proofs.Graph.Components

/-!
# Decomposition into components

The search for components ends wherever finitely many nodes can be reached, and
bounding the length of the paths it follows by their number cuts nothing off.
What it returns are the strongly connected components of these nodes, those of
successors first, and each of them in the order in which a depth-first
traversal enters its nodes.
-/

namespace Reachability.Graph

variable {α : Type u} [DecidableEq α]

namespace Traversal

/-- Meet one successor after the other, and visit those that have not been entered, without a bound
on the paths that are followed.  The relation holds only if all these visits end. -/
inductive Scans (successors : α → List α) :
    List α → Nat × Traversal α → Nat × Traversal α → Prop where
  | done (state : Nat × Traversal α) : Scans successors [] state state
  | old {next : α} {rest : List α} {entered : Nat} {state final : Nat × Traversal α}
      (found : state.2.numbers.lookup next = some entered) :
      Scans successors rest (if next ∈ state.2.stack then (min state.1 entered, state.2) else state)
        final →
      Scans successors (next :: rest) state final
  | new {next : α} {rest : List α} {state inner final : Nat × Traversal α}
      (fresh : state.2.numbers.lookup next = none) :
      Scans successors (successors next) (state.2.numbers.length, state.2.enter next) inner →
      Scans successors rest
        (min state.1 (leave state.2 next inner).1, (leave state.2 next inner).2) final →
      Scans successors (next :: rest) state final

/-- Visit the nodes of a list that have not been entered, one after the other. -/
inductive Runs (successors : α → List α) : List α → Traversal α → Traversal α → Prop where
  | done (traversal : Traversal α) : Runs successors [] traversal traversal
  | old {node : α} {rest : List α} {entered : Nat} {before final : Traversal α}
      (found : before.numbers.lookup node = some entered) :
      Runs successors rest before final → Runs successors (node :: rest) before final
  | new {node : α} {rest : List α} {before final : Traversal α} {inner : Nat × Traversal α}
      (fresh : before.numbers.lookup node = none) :
      Scans successors (successors node) (before.numbers.length, before.enter node) inner →
      Runs successors rest (leave before node inner).2 final →
      Runs successors (node :: rest) before final

theorem Scans.unique {successors : α → List α} {nexts : List α}
    {state final other : Nat × Traversal α} (scans : Scans successors nexts state final)
    (also : Scans successors nexts state other) : other = final := by
  induction scans generalizing other with
  | done =>
    cases also
    rfl
  | old found _ induction =>
    cases also with
    | old foundToo rest =>
      cases found.symm.trans foundToo
      exact induction rest
    | new fresh _ _ => cases found.symm.trans fresh
  | new fresh _ _ visit induction =>
    cases also with
    | old found _ => cases fresh.symm.trans found
    | new _ inner rest =>
      cases visit inner
      exact induction rest

theorem Runs.unique {successors : α → List α} {nodes : List α} {before final other : Traversal α}
    (runs : Runs successors nodes before final) (also : Runs successors nodes before other) :
    other = final := by
  induction runs with
  | done =>
    cases also
    rfl
  | old found _ induction =>
    cases also with
    | old _ rest => exact induction rest
    | new fresh _ _ => cases found.symm.trans fresh
  | new fresh scans _ induction =>
    cases also with
    | old found _ => cases fresh.symm.trans found
    | new _ inner rest =>
      cases scans.unique inner
      exact induction rest

section Depth

variable {successors : α → List α} {region : Finset α} {before : Traversal α} {node other : α}
  {visitor : α → Traversal α → Nat × Traversal α} {state : Nat × Traversal α}

theorem meet_new (fresh : state.2.numbers.lookup node = none) :
    meet visitor state node =
      (min state.1 (visitor node state.2).1, (visitor node state.2).2) := by
  unfold meet
  rw [fresh]

theorem meet_old {entered : Nat} (found : state.2.numbers.lookup node = some entered) :
    meet visitor state node =
      if node ∈ state.2.stack then (min state.1 entered, state.2) else state := by
  unfold meet
  rw [found]

theorem mem_entered_meet
    (keeps : ∀ next traversal, other ∈ traversal.entered →
      other ∈ (visitor next traversal).2.entered)
    (old : other ∈ state.2.entered) (next : α) : other ∈ (meet visitor state next).2.entered := by
  unfold meet
  split
  · exact keeps next state.2 old
  · split
    · exact old
    · exact old

theorem mem_entered_visit (successors : α → List α) (depth : Nat) (node : α)
    (before : Traversal α) (old : other ∈ before.entered) :
    other ∈ (visit successors depth node before).2.entered := by
  induction depth generalizing node before with
  | zero => exact old
  | succ depth induction =>
    have scanned : other ∈ ((successors node).foldl (meet (visit successors depth))
        (before.numbers.length, before.enter node)).2.entered := by
      apply List.foldlRecOn (motive := fun (state : Nat × Traversal α) => other ∈ state.2.entered)
      · exact List.mem_cons_of_mem _ old
      · exact fun state known next _ => mem_entered_meet induction known next
    rw [visit_succ]
    unfold leave
    split
    · exact scanned
    · exact scanned

/-- A visit within a finite part of the graph ends, and no path it follows is longer than the number
of nodes that have not been entered. -/
theorem exists_scans (closed : ∀ node ∈ region, ∀ next ∈ successors node, next ∈ region) :
    ∀ {depth : Nat} {node : α} {before : Traversal α}, node ∈ region →
      (remaining region before).card ≤ depth → node ∉ before.entered →
      ∃ inner, Scans successors (successors node) (before.numbers.length, before.enter node) inner ∧
        visit successors depth node before = leave before node inner := by
  intro depth
  induction depth with
  | zero =>
    intro node before member enough new
    have fewer := Finset.card_lt_card (remaining_enter_ssubset member new)
    omega
  | succ depth induction =>
    intro node before member enough new
    have scan : ∀ (nexts : List α) (state : Nat × Traversal α),
        (∀ next ∈ nexts, next ∈ region) → (remaining region state.2).card ≤ depth →
        Scans successors nexts state (nexts.foldl (meet (visit successors depth)) state) := by
      intro nexts
      induction nexts with
      | nil => exact fun state _ _ => .done state
      | cons next rest later =>
        intro state inside few
        have fewer := remaining_subset region fun other (known : other ∈ state.2.entered) =>
          mem_entered_meet (mem_entered_visit successors depth) known next
        have others := later (meet (visit successors depth) state next)
          (fun other listed => inside other (List.mem_cons_of_mem _ listed))
          (Nat.le_trans (Finset.card_le_card fewer) few)
        rw [List.foldl_cons]
        cases found : state.2.numbers.lookup next with
        | none =>
          obtain ⟨inner, scans, same⟩ := induction (inside next List.mem_cons_self) few
            (lookup_eq_none_iff.mp found)
          apply Scans.new found scans
          rw [← same]
          rw [meet_new found] at others ⊢
          exact others
        | some entered =>
          apply Scans.old found
          rw [meet_old found] at others ⊢
          exact others
    have fewer := Finset.card_lt_card (remaining_enter_ssubset member new)
    have few : (remaining region (before.enter node)).card ≤ depth := by omega
    exact ⟨_, scan _ _ (closed node member) few, rfl⟩

end Depth

end Traversal

section Search

variable {successors : α → List α} {region : Finset α} {nodes : List α} {size : Nat}

def visitNew (successors : α → List α) (size : Nat) (traversal : Traversal α) (node : α) :
    Traversal α :=
  match traversal.numbers.lookup node with
  | none => (Traversal.visit successors size node traversal).2
  | some _ => traversal

/-- The search for components ends and finds these. -/
def Finds (successors : α → List α) (nodes : List α) (parts : List (List α)) : Prop :=
  ∃ final, Traversal.Runs successors nodes {} final ∧ final.found.reverse = parts

theorem Finds.unique {parts others : List (List α)} (finds : Finds successors nodes parts)
    (also : Finds successors nodes others) : others = parts := by
  obtain ⟨final, runs, rfl⟩ := finds
  obtain ⟨other, runsToo, rfl⟩ := also
  rw [runs.unique runsToo]

theorem visitNew_spec (closed : ∀ node ∈ region, ∀ next ∈ successors node, next ∈ region)
    {before : Traversal α} {node : α} (member : node ∈ region)
    (enough : (Traversal.remaining region before).card ≤ size)
    (valid : Traversal.Valid successors [] before) :
    Traversal.Valid successors [] (visitNew successors size before node) ∧
      Enters successors before.order [node] (visitNew successors size before node).order ∧
      Traversal.Grows before (visitNew successors size before node) ∧
      ∀ rest final, Traversal.Runs successors rest (visitNew successors size before node) final →
        Traversal.Runs successors (node :: rest) before final := by
  unfold visitNew
  cases found : before.numbers.lookup node with
  | none =>
    have new := Traversal.lookup_eq_none_iff.mp found
    obtain ⟨resultValid, visited⟩ := Traversal.visit_spec closed member enough valid new
      (fun _ impossible => absurd impossible List.not_mem_nil)
    obtain ⟨inner, scans, same⟩ := Traversal.exists_scans closed member enough new
    refine ⟨resultValid, visited.order, visited.grows, ?_⟩
    intro rest final runs
    apply Traversal.Runs.new found scans
    rw [← same]
    exact runs
  | some number =>
    have old : node ∈ before.order := by
      apply List.mem_reverse.mpr
      by_contra new
      rw [Traversal.lookup_eq_none_iff.mpr new] at found
      cases found
    exact ⟨valid, .skip old (.done _), .refl before, fun _ _ runs => .old found runs⟩

theorem foldl_visitNew (closed : ∀ node ∈ region, ∀ next ∈ successors node, next ∈ region) :
    ∀ {nodes : List α} {before : Traversal α}, (∀ node ∈ nodes, node ∈ region) →
      (Traversal.remaining region before).card ≤ size → Traversal.Valid successors [] before →
      Traversal.Valid successors [] (nodes.foldl (visitNew successors size) before) ∧
        Enters successors before.order nodes (nodes.foldl (visitNew successors size) before).order ∧
        Traversal.Runs successors nodes before (nodes.foldl (visitNew successors size) before) := by
  intro nodes
  induction nodes with
  | nil => exact fun _ _ valid => ⟨valid, .done _, .done _⟩
  | cons node rest induction =>
    intro before inside enough valid
    obtain ⟨nextValid, enters, grows, runsOn⟩ :=
      visitNew_spec closed (inside node List.mem_cons_self) enough valid
    have fewer := Finset.card_le_card
      (Traversal.remaining_subset region fun _ => grows.mem_entered)
    obtain ⟨lastValid, later, runs⟩ :=
      induction (fun other listed => inside other (List.mem_cons_of_mem _ listed))
        (Nat.le_trans fewer enough) nextValid
    exact ⟨lastValid, enters.append later, runsOn _ _ runs⟩

theorem Traversal.Valid.empty (successors : α → List α) :
    Traversal.Valid successors [] ({} : Traversal α) where
  numbered := .nil
  stacked := List.Sublist.refl _
  divided := List.Perm.refl _
  pending := fun _ impossible => absurd impossible List.not_mem_nil
  followed := fun _ impossible => absurd impossible List.not_mem_nil
  descends := trivial
  components := fun _ impossible => absurd impossible List.not_mem_nil
  rises := fun _ impossible => absurd impossible List.not_mem_nil
  falls := fun _ impossible => absurd impossible List.not_mem_nil

end Search

/-- The nodes that can be reached from `nodes`, which a depth-first traversal enters in the given
order, are divided into strongly connected components, those of successors first. -/
structure Decomposition (successors : α → List α) (nodes order : List α) (parts : List (List α)) :
    Prop where
  components : ∀ part ∈ parts, IsComponent successors part
  distinct : parts.flatten.Nodup
  covers : ∀ node, node ∈ parts.flatten ↔ ∃ start ∈ nodes, Reaches successors start node
  descends : ∀ (k l : Nat) (part target : List α), parts[k]? = some part → parts[l]? = some target →
    ∀ node ∈ part, ∀ other ∈ target, Reaches successors node other → l ≤ k
  ordered : ∀ part ∈ parts, part.Sublist order
  first : ∀ part ∈ parts, part.head? = order.find? (· ∈ part)

section Decomposition

variable {successors : α → List α} {nodes order : List α} {parts : List (List α)} {size : Nat}

theorem head?_eq_find? {part : List α} (sublist : part.Sublist order) (distinct : order.Nodup) :
    part.head? = order.find? (· ∈ part) := by
  induction sublist with
  | slnil => rfl
  | cons node sublist induction =>
    obtain ⟨new, distinct⟩ := List.nodup_cons.mp distinct
    rw [List.find?_cons_of_neg]
    · exact induction distinct
    · simpa using fun member => new (sublist.subset member)
  | cons_cons node sublist _ => simp

/-- What the search finds when it has ended. -/
theorem Traversal.Valid.decomposition {final : Traversal α}
    (valid : Traversal.Valid successors [] final)
    (enters : Enters successors [] nodes final.order) :
    Decomposition successors nodes final.order final.found.reverse := by
  have empty : final.stack = [] := by
    apply List.eq_nil_iff_forall_not_mem.mpr
    intro node member
    obtain ⟨_, impossible, _⟩ := valid.rises node member
    exact List.not_mem_nil impossible
  have divided : final.found.reverse.flatten.Perm final.entered := by
    have divided := valid.divided
    rw [empty, List.nil_append] at divided
    exact (final.found.reverse_perm.flatten).trans divided
  have distinct : final.found.reverse.flatten.Nodup := divided.nodup_iff.mpr valid.numbered.nodup
  constructor
  · intro part member
    exact (valid.components part (List.mem_reverse.mp member)).1
  · exact distinct
  · intro node
    rw [divided.mem_iff, ← enters.mem_iff]
    exact List.mem_reverse.symm
  · intro k l part target atK atL node member other otherMember reaches
    by_contra later
    have descends : Descends successors final.found.reverse.reverse := by
      rw [List.reverse_reverse]
      exact valid.descends
    have early : node ∈ (final.found.reverse.take (k + 1)).flatten := by
      apply List.mem_flatten.mpr
      refine ⟨part, ?_, member⟩
      exact List.mem_of_getElem? ((List.getElem?_take_of_lt (Nat.lt_succ_self k)).trans atK)
    have late : other ∈ (final.found.reverse.drop (k + 1)).flatten := by
      apply List.mem_flatten.mpr
      refine ⟨target, ?_, otherMember⟩
      have place : (final.found.reverse.drop (k + 1))[l - (k + 1)]? = some target := by
        rw [List.getElem?_drop, ← atL]
        congr 1
        omega
      exact List.mem_of_getElem? place
    rw [← List.take_append_drop (k + 1) final.found.reverse, List.flatten_append] at distinct
    exact List.disjoint_of_nodup_append distinct (descends.mem_take early reaches) late
  · intro part member
    exact (valid.components part (List.mem_reverse.mp member)).2
  · intro part member
    apply head?_eq_find? (valid.components part (List.mem_reverse.mp member)).2
    exact List.nodup_reverse.mpr valid.numbered.nodup

/-- The search in a part of the graph that cannot be left, with a bound that is large enough. -/
theorem components_spec {region : Finset α}
    (closed : ∀ node ∈ region, ∀ next ∈ successors node, next ∈ region)
    (inside : ∀ node ∈ nodes, node ∈ region) (enough : region.card ≤ size) :
    ∃ order, Enters successors [] nodes order ∧
      Decomposition successors nodes order (components size nodes successors) ∧
      Finds successors nodes (components size nodes successors) := by
  have few : (Traversal.remaining region ({} : Traversal α)).card ≤ size :=
    Nat.le_trans (Finset.card_filter_le _ _) enough
  obtain ⟨valid, enters, runs⟩ := foldl_visitNew closed inside few (.empty successors)
  exact ⟨_, enters, valid.decomposition enters, _, runs, rfl⟩

/-- Does a component contain a cycle? -/
def isCyclic (successors : α → List α) (part : List α) : Bool :=
  match part with
  | [node] => node ∈ successors node
  | _ => true

theorem isCyclic_iff {part : List α} (component : IsComponent successors part)
    (distinct : part.Nodup) :
    isCyclic successors part = true ↔
      ∃ node ∈ part, Relation.TransGen (Steps successors) node node := by
  match part, component, distinct with
  | [], component, _ => exact absurd rfl component.nonempty
  | [node], component, _ =>
    have isCyclic_single : isCyclic successors [node] = true ↔ Steps successors node node :=
      decide_eq_true_iff
    rw [isCyclic_single]
    constructor
    · intro loop
      exact ⟨node, List.mem_cons_self, .single loop⟩
    · rintro ⟨other, member, cycle⟩
      cases List.mem_singleton.mp member
      obtain ⟨next, step, back⟩ := Relation.TransGen.head'_iff.mp cycle
      have inside := (component.connected node member next).mpr ⟨.single step, back⟩
      rw [List.mem_singleton] at inside
      rw [inside] at step
      exact step
  | first :: second :: rest, component, distinct =>
    refine iff_of_true rfl ⟨first, List.mem_cons_self, ?_⟩
    have different : second ≠ first := by
      intro same
      rw [same] at distinct
      exact (List.nodup_cons.mp distinct).1 List.mem_cons_self
    obtain ⟨leads, returns⟩ := (component.connected first List.mem_cons_self second).mp
      (List.mem_cons_of_mem _ List.mem_cons_self)
    rcases Relation.reflTransGen_iff_eq_or_transGen.mp leads with same | leads
    · exact absurd same different
    · exact leads.trans_left returns

theorem cyclicComponents_spec
    (decomposition : Decomposition successors nodes order (components size nodes successors)) :
    (cyclicComponents size nodes successors).Sublist (components size nodes successors) ∧
      ∀ part, part ∈ cyclicComponents size nodes successors ↔
        part ∈ components size nodes successors ∧
          ∃ node ∈ part, Relation.TransGen (Steps successors) node node := by
  have filters : cyclicComponents size nodes successors =
      (components size nodes successors).filter (isCyclic successors) := rfl
  rw [filters]
  refine ⟨List.filter_sublist, fun part => ?_⟩
  rw [List.mem_filter]
  apply and_congr_right
  intro member
  apply isCyclic_iff (decomposition.components part member)
  exact decomposition.distinct.sublist (List.sublist_flatten_of_mem member)

end Decomposition

/-- Where finitely many nodes can be reached, the search for components ends and decomposes them,
each component starting with the node that a depth-first traversal enters first.  A bound that is
not smaller than the number of these nodes changes nothing.  The cyclic components are those with a
cycle, in the same order. -/
theorem components_decompose (nodes : List α) (successors : α → List α)
    (finite : {node | ∃ start ∈ nodes, Reaches successors start node}.Finite) :
    ∃ parts order, Finds successors nodes parts ∧
      (∀ others, Finds successors nodes others → others = parts) ∧
      Enters successors [] nodes order ∧ Decomposition successors nodes order parts ∧
      ∀ size, {node | ∃ start ∈ nodes, Reaches successors start node}.ncard ≤ size →
        components size nodes successors = parts ∧
        (cyclicComponents size nodes successors).Sublist parts ∧
        ∀ part ∈ parts, part ∈ cyclicComponents size nodes successors ↔
          ∃ node ∈ part, Relation.TransGen (Steps successors) node node := by
  have closed : ∀ node ∈ finite.toFinset, ∀ next ∈ successors node, next ∈ finite.toFinset := by
    intro node member next isNext
    obtain ⟨start, listed, reaches⟩ := finite.mem_toFinset.mp member
    exact finite.mem_toFinset.mpr ⟨start, listed, reaches.tail isNext⟩
  have inside : ∀ node ∈ nodes, node ∈ finite.toFinset :=
    fun node listed => finite.mem_toFinset.mpr ⟨node, listed, .refl⟩
  obtain ⟨order, enters, decomposition, finds⟩ := components_spec closed inside (Nat.le_refl _)
  refine ⟨_, order, finds, fun _ => finds.unique, enters, decomposition, ?_⟩
  intro size enough
  rw [Set.ncard_eq_toFinset_card _ finite] at enough
  obtain ⟨_, _, bounded, findsToo⟩ := components_spec closed inside enough
  have same := finds.unique findsToo
  obtain ⟨sublist, cyclic⟩ := cyclicComponents_spec bounded
  rw [same] at sublist cyclic
  exact ⟨same, sublist, fun part member => (cyclic part).trans (and_iff_right member)⟩

/-- Two cycles, a loop and a node that only leads to them, beside a way without an end. -/
def crossing (node : Nat) : List Nat :=
  match node with
  | 0 => [1]
  | 1 => [2, 3]
  | 2 => [1]
  | 3 => [4]
  | 4 => [3, 5]
  | 5 => [5]
  | node => [node + 1]

theorem crossing_reached :
    {node | ∃ start ∈ [4, 0], Reaches crossing start node} ⊆ ↑(Finset.range 6) := by
  rintro node ⟨start, listed, reaches⟩
  rw [Finset.coe_range, Set.mem_Iio]
  induction reaches with
  | refl =>
    have small : ∀ start ∈ [4, 0], start < 6 := by decide
    exact small start listed
  | @tail node next _ step less =>
    have closed : ∀ node < 6, ∀ next ∈ crossing node, next < 6 := by decide
    exact closed node less next step

/-- The way without an end is not reached, and the node that only leads to the cycles comes last. -/
theorem components_decompose_crossing :
    Finds crossing [4, 0] [[5], [4, 3], [1, 2], [0]] ∧
    cyclicComponents 6 [4, 0] crossing = [[5], [4, 3], [1, 2]] ∧
    (∃ node ∈ [1, 2], Relation.TransGen (Steps crossing) node node) ∧
    ¬∃ node ∈ [0], Relation.TransGen (Steps crossing) node node := by
  have finite := (Finset.finite_toSet (Finset.range 6)).subset crossing_reached
  have enough := Set.ncard_le_ncard crossing_reached (Finset.finite_toSet (Finset.range 6))
  rw [Set.ncard_coe_finset, Finset.card_range] at enough
  obtain ⟨parts, order, finds, _, _, _, bounded⟩ := components_decompose [4, 0] crossing finite
  obtain ⟨found, _, cyclic⟩ := bounded 6 enough
  have computed : components 6 [4, 0] crossing = [[5], [4, 3], [1, 2], [0]] := by decide
  have filtered : cyclicComponents 6 [4, 0] crossing = [[5], [4, 3], [1, 2]] := by decide
  rw [← found, computed] at finds cyclic
  rw [filtered] at cyclic
  refine ⟨finds, filtered, ?_, ?_⟩
  · exact (cyclic [1, 2] (by decide)).mp (by decide)
  · exact fun cycle => absurd ((cyclic [0] (by decide)).mpr cycle) (by decide)

end Reachability.Graph
