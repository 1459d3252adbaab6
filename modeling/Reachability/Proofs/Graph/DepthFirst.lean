import Mathlib
import Reachability.Graph.Components

/-!
# Depth-first order

A depth-first traversal enters the given nodes one after the other and, right
after a node, what can be reached from its successors.  `Enters` describes the
order in which that happens, without numbers or a stack.  It enters exactly the
nodes that can be reached.
-/

namespace Reachability.Graph

variable {α : Type u}

def Steps (successors : α → List α) (node next : α) : Prop := next ∈ successors node

abbrev Reaches (successors : α → List α) : α → α → Prop := Relation.ReflTransGen (Steps successors)

/-- Going through `nodes` depth first extends the sequence of entered nodes. -/
inductive Enters (successors : α → List α) : List α → List α → List α → Prop where
  | done (entered : List α) : Enters successors entered [] entered
  | skip {node : α} {rest entered after : List α} :
      node ∈ entered →
      Enters successors entered rest after →
      Enters successors entered (node :: rest) after
  | enter {node : α} {rest entered middle after : List α} :
      node ∉ entered →
      Enters successors (entered ++ [node]) (successors node) middle →
      Enters successors middle rest after →
      Enters successors entered (node :: rest) after

namespace Enters

variable {successors : α → List α} {before middle after nodes others : List α} {node : α}

theorem single (new : node ∉ before)
    (enters : Enters successors (before ++ [node]) (successors node) after) :
    Enters successors before [node] after :=
  .enter new enters (.done after)

theorem append (first : Enters successors before nodes middle)
    (second : Enters successors middle others after) :
    Enters successors before (nodes ++ others) after := by
  induction first with
  | done entered => exact second
  | skip old _ induction => exact .skip old (induction second)
  | enter new inside _ _ induction => exact .enter new inside (induction second)

section

variable (enters : Enters successors before nodes after)

include enters

theorem isPrefix : before <+: after := by
  induction enters with
  | done entered => exact List.prefix_refl entered
  | skip _ _ induction => exact induction
  | enter _ _ _ inside later =>
    apply List.IsPrefix.trans (List.prefix_append _ _)
    exact inside.trans later

theorem nodup (distinct : before.Nodup) :
    after.Nodup := by
  induction enters with
  | done entered => exact distinct
  | skip _ _ induction => exact induction distinct
  | enter new _ _ inside later =>
    apply later
    apply inside
    exact List.nodup_append.mpr ⟨distinct, List.nodup_singleton _, by
      intro old isOld last isLast same
      rw [List.mem_singleton] at isLast
      exact new (isLast ▸ same ▸ isOld)⟩

theorem mem_after : ∀ node ∈ nodes, node ∈ after := by
  induction enters with
  | done entered => simp
  | skip old later induction =>
    rw [List.forall_mem_cons]
    exact ⟨later.isPrefix.subset old, induction⟩
  | enter _ inside later _ induction =>
    rw [List.forall_mem_cons]
    refine ⟨?_, induction⟩
    apply later.isPrefix.subset
    apply inside.isPrefix.subset
    exact List.mem_append_right _ List.mem_cons_self

theorem reached :
    ∀ node ∈ after, node ∈ before ∨ ∃ start ∈ nodes, Reaches successors start node := by
  induction enters with
  | done entered => exact fun _ member => .inl member
  | skip _ _ induction =>
    intro node member
    rcases induction node member with old | ⟨start, listed, reaches⟩
    · exact .inl old
    · exact .inr ⟨start, List.mem_cons_of_mem _ listed, reaches⟩
  | @enter first _ _ _ _ _ _ _ inside later =>
    intro node member
    rcases later node member with early | ⟨start, listed, reaches⟩
    · rcases inside node early with old | ⟨start, listed, reaches⟩
      · rcases List.mem_append.mp old with older | isFirst
        · exact .inl older
        · rw [List.mem_singleton] at isFirst
          exact .inr ⟨first, List.mem_cons_self, isFirst ▸ .refl⟩
      · exact .inr ⟨first, List.mem_cons_self, .head listed reaches⟩
    · exact .inr ⟨start, List.mem_cons_of_mem _ listed, reaches⟩

theorem followed :
    ∀ node ∈ after, node ∉ before → ∀ next ∈ successors node, next ∈ after := by
  induction enters with
  | done entered => exact fun _ member new => absurd member new
  | skip _ _ induction => exact induction
  | @enter first _ entered middle _ _ visits continues inside later =>
    intro node member new next isNext
    by_cases early : node ∈ middle
    · apply continues.isPrefix.subset
      by_cases isFirst : node = first
      · subst isFirst
        exact visits.mem_after next isNext
      · apply inside node early _ next isNext
        intro old
        rcases List.mem_append.mp old with older | last
        · exact new older
        · exact isFirst (List.mem_singleton.mp last)
    · exact later node member early next isNext

end

theorem mem_iff (enters : Enters successors [] nodes after) :
    node ∈ after ↔ ∃ start ∈ nodes, Reaches successors start node := by
  constructor
  · intro member
    rcases enters.reached node member with impossible | reached
    · cases impossible
    · exact reached
  · intro reached
    obtain ⟨start, listed, reaches⟩ := reached
    induction reaches with
    | refl => exact enters.mem_after start listed
    | tail _ step induction =>
      exact enters.followed _ induction List.not_mem_nil _ step

end Enters

end Reachability.Graph
