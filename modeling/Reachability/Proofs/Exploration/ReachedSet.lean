import Mathlib
import Reachability.Exploration.Reached
import Reachability.Proofs.Exploration.Waitlist
import Reachability.Proofs.Sequence

/-!
# Invariant of reached sets

The list of states, the set of members and the groups by location describe the
same states, and the waitlist holds every state that waits.  The invariant is
kept by adding a fresh state, by putting one in the place of a reached state
and by taking the next one that waits.
-/

namespace Reachability

variable {κ : Type u}

namespace Reached

/-- The parts of a reached set agree with each other.  Items of the waitlist that no longer wait are
those of replaced states and of states that have been taken. -/
structure Valid (reached : Reached κ) : Prop where
  distinctIds : (reached.states.map ReachedState.id).Nodup
  distinctKeys : (reached.states.map ReachedState.key).Nodup
  members : ∀ id, id ∈ reached.members ↔ id ∈ reached.states.map ReachedState.id
  grouped : ∀ location, (reached.statesAt location).Perm
    (reached.states.filter fun state => state.location = location)
  queued : ∀ state ∈ reached.waitlist.items, state.id ∈ reached.waiting → state ∈ reached.states
  awaited : ∀ id ∈ reached.waiting, ∃ state ∈ reached.waitlist.items, state.id = id

def keys (reached : Reached κ) : List κ := reached.states.map ReachedState.key

/-- A state that has never been inserted: neither the reached states nor the waitlist know it. -/
structure Fresh (reached : Reached κ) (state : ReachedState κ) : Prop where
  id : ∀ other ∈ reached.states, other.id ≠ state.id
  key : ∀ other ∈ reached.states, other.key ≠ state.key
  queue : ∀ other ∈ reached.waitlist.items, other.id ≠ state.id

theorem valid_empty (order : WaitOrder) : (empty order : Reached κ).Valid where
  distinctIds := List.nodup_nil
  distinctKeys := List.nodup_nil
  members := by simp [empty]
  grouped := by simp [empty, statesAt]
  queued := by simp [empty]
  awaited := by simp [empty]

theorem fresh_empty (order : WaitOrder) (state : ReachedState κ) :
    (empty order : Reached κ).Fresh state where
  id := by simp [empty]
  key := by simp [empty]
  queue := by simp [empty]

namespace Valid

variable {reached : Reached κ} {state old : ReachedState κ}

theorem mem_statesAt (valid : reached.Valid) {location : Option Nat} :
    state ∈ reached.statesAt location ↔ state ∈ reached.states ∧ state.location = location := by
  rw [(valid.grouped location).mem_iff, List.mem_filter, decide_eq_true_eq]

theorem nodup_states (valid : reached.Valid) : reached.states.Nodup :=
  valid.distinctKeys.of_map _

theorem nodup_statesAt (valid : reached.Valid) (location : Option Nat) :
    (reached.statesAt location).Nodup :=
  (valid.grouped location).nodup_iff.mpr (valid.nodup_states.filter _)

theorem contains_iff (valid : reached.Valid) :
    reached.contains state = true ↔ ∃ other ∈ reached.states, other.id = state.id := by
  rw [contains, List.contains_iff_mem, valid.members, List.mem_map]

theorem eq_of_key (valid : reached.Valid) {first second : ReachedState κ}
    (inFirst : first ∈ reached.states) (inSecond : second ∈ reached.states)
    (same : first.key = second.key) : first = second :=
  List.inj_on_of_nodup_map valid.distinctKeys inFirst inSecond same

theorem eq_of_id (valid : reached.Valid) {first second : ReachedState κ}
    (inFirst : first ∈ reached.states) (inSecond : second ∈ reached.states)
    (same : first.id = second.id) : first = second :=
  List.inj_on_of_nodup_map valid.distinctIds inFirst inSecond same

end Valid

theorem lookup_changeAt (groups : List (Option Nat × List (ReachedState κ)))
    (location other : Option Nat) (change : List (ReachedState κ) → List (ReachedState κ)) :
    (changeAt groups location change).lookup other =
      if other = location then some (change ((groups.lookup location).getD []))
      else groups.lookup other := by
  induction groups with
  | nil =>
    unfold changeAt
    by_cases same : other = location
    · simp [same]
    · simp [List.lookup_cons, beq_eq_false_iff_ne.mpr same, same]
  | cons group groups induction =>
    obtain ⟨first, states⟩ := group
    unfold changeAt
    by_cases here : first = location
    · subst here
      by_cases same : other = first
      · simp [same]
      · simp [List.lookup_cons, beq_eq_false_iff_ne.mpr same, same]
    · rw [if_neg here]
      by_cases same : other = first
      · subst same
        simp [here]
      · have later : location ≠ first := fun equal => here equal.symm
        simp only [List.lookup_cons, beq_eq_false_iff_ne.mpr same,
          beq_eq_false_iff_ne.mpr later, induction]

theorem Fresh.not_contained {reached : Reached κ} {state : ReachedState κ}
    (fresh : reached.Fresh state) (valid : reached.Valid) :
    reached.contains state = false := by
  rw [Bool.eq_false_iff]
  intro contained
  obtain ⟨other, member, same⟩ := valid.contains_iff.mp contained
  exact fresh.id other member same

variable {states : List (ReachedState κ)}

private theorem nodup_map_append {β : Type v} {state : ReachedState κ} {view : ReachedState κ → β}
    (distinct : (states.map view).Nodup) (absent : ∀ other ∈ states, view other ≠ view state) :
    ((states ++ [state]).map view).Nodup := by
  rw [List.map_append, List.nodup_append]
  refine ⟨distinct, by simp, ?_⟩
  intro value member single singleMember
  obtain ⟨other, otherMember, rfl⟩ := List.mem_map.mp member
  rw [List.map_singleton, List.mem_singleton] at singleMember
  rw [singleMember]
  exact absent other otherMember

section Add

variable {reached : Reached κ} {state : ReachedState κ}

theorem add_eq (fresh : reached.Fresh state) (valid : reached.Valid) :
    reached.add state =
      { reached with
        states := reached.states ++ [state]
        byLocation := changeAt reached.byLocation state.location (· ++ [state])
        members := addUnique reached.members state.id
        waiting := addUnique reached.waiting state.id
        waitlist := reached.waitlist.push state } := by
  unfold add
  rw [fresh.not_contained valid]
  rfl

section

variable (valid : reached.Valid) (fresh : reached.Fresh state)

include valid fresh

theorem mem_states_add {other : ReachedState κ} :
    other ∈ (reached.add state).states ↔ other ∈ reached.states ∨ other = state := by
  rw [add_eq fresh valid, List.mem_append, List.mem_singleton]

theorem mem_waiting_add {id : Nat} :
    id ∈ (reached.add state).waiting ↔ id ∈ reached.waiting ∨ id = state.id := by
  rw [add_eq fresh valid, mem_addUnique]

theorem mem_items_add {other : ReachedState κ} :
    other ∈ (reached.add state).waitlist.items ↔
      other = state ∨ other ∈ reached.waitlist.items := by
  rw [add_eq fresh valid]
  exact Waitlist.mem_push

theorem Valid.add :
    (reached.add state).Valid := by
  rw [add_eq fresh valid]
  constructor
  · exact nodup_map_append valid.distinctIds fresh.id
  · exact nodup_map_append valid.distinctKeys fresh.key
  · intro id
    rw [mem_addUnique, valid.members, List.map_append, List.mem_append, List.map_singleton,
      List.mem_singleton]
  · intro location
    have group := valid.grouped location
    unfold statesAt at group ⊢
    rw [lookup_changeAt, List.filter_append]
    by_cases same : location = state.location
    · subst same
      simpa using group.append_right [state]
    · have different : state.location ≠ location := fun equal => same equal.symm
      simpa [same, different] using group
  · intro other queued waits
    rcases Waitlist.mem_push.mp queued with rfl | earlier
    · exact List.mem_append_right _ (List.mem_singleton.mpr rfl)
    · rcases mem_addUnique.mp waits with waits | same
      · exact List.mem_append_left _ (valid.queued other earlier waits)
      · exact absurd same (fresh.queue other earlier)
  · intro id waits
    rcases mem_addUnique.mp waits with waits | rfl
    · obtain ⟨other, queued, same⟩ := valid.awaited id waits
      exact ⟨other, Waitlist.mem_push.mpr (.inr queued), same⟩
    · exact ⟨state, Waitlist.mem_push.mpr (.inl rfl), rfl⟩

end

end Add

section Pop

variable {reached : Reached κ} {state : ReachedState κ}

section

variable {waiting : List Nat} {waitlist rest : Waitlist (ReachedState κ)}

theorem nextWaiting_some (found : nextWaiting waiting waitlist = (some state, rest)) :
    ∃ skipped, waitlist.items = skipped ++ state :: rest.items ∧ state.id ∈ waiting ∧
      ∀ other ∈ skipped, other.id ∉ waiting := by
  fun_induction nextWaiting waiting waitlist with
  | case1 waitlist stuck => cases found
  | case2 waitlist first others taken waits =>
    cases found
    exact ⟨[], (Waitlist.items_of_pop? taken).1, List.contains_iff_mem.mp waits, by simp⟩
  | case3 waitlist first others taken skips induction =>
    obtain ⟨skipped, items, waits, before⟩ := induction found
    refine ⟨first :: skipped, ?_, waits, ?_⟩
    · rw [(Waitlist.items_of_pop? taken).1, items, List.cons_append]
    · intro other member
      rcases List.mem_cons.mp member with rfl | later
      · exact fun waits => skips (List.contains_iff_mem.mpr waits)
      · exact before other later

theorem nextWaiting_none (found : nextWaiting waiting waitlist = (none, rest)) :
    ∀ other ∈ waitlist.items, other.id ∉ waiting := by
  fun_induction nextWaiting waiting waitlist with
  | case1 waitlist stuck => simp [Waitlist.items_eq_nil_of_pop? stuck]
  | case2 waitlist first others taken waits => cases found
  | case3 waitlist first others taken skips induction =>
    intro other member
    rw [(Waitlist.items_of_pop? taken).1] at member
    rcases List.mem_cons.mp member with rfl | later
    · exact fun waits => skips (List.contains_iff_mem.mpr waits)
    · exact induction found other later

theorem items_nextWaiting_none (found : nextWaiting waiting waitlist = (none, rest)) :
    rest.items = [] := by
  fun_induction nextWaiting waiting waitlist with
  | case1 waitlist stuck =>
    cases found
    exact Waitlist.items_eq_nil_of_pop? stuck
  | case2 waitlist first others taken waits => cases found
  | case3 waitlist first others taken skips induction => exact induction found

end

theorem order_nextWaiting (waiting : List Nat) (waitlist : Waitlist (ReachedState κ)) :
    (nextWaiting waiting waitlist).2.order = waitlist.order := by
  fun_induction nextWaiting waiting waitlist with
  | case1 waitlist stuck => rfl
  | case2 waitlist first others taken waits => exact (Waitlist.items_of_pop? taken).2
  | case3 waitlist first others taken skips induction =>
    exact induction.trans (Waitlist.items_of_pop? taken).2

theorem pop_eq_of_some (next : reached.pop.1 = some state) :
    ∃ skipped rest, reached.waitlist.items = skipped ++ state :: rest.items ∧
      rest.order = reached.waitlist.order ∧ state.id ∈ reached.waiting ∧
      (∀ other ∈ skipped, other.id ∉ reached.waiting) ∧
      reached.pop.2 =
        { reached with waiting := removeAll reached.waiting state.id, waitlist := rest } := by
  have order := order_nextWaiting reached.waiting reached.waitlist
  unfold pop at next ⊢
  cases found : nextWaiting reached.waiting reached.waitlist with
  | mk first rest =>
    rw [found] at next order
    cases next
    obtain ⟨skipped, items, waits, idle⟩ := nextWaiting_some found
    exact ⟨skipped, rest, items, order, waits, idle, rfl⟩

theorem isWaiting_pop (next : reached.pop.1 = some state) :
    reached.isWaiting state = true ∧ reached.pop.2.isWaiting state = false := by
  obtain ⟨skipped, rest, _, _, waits, _, after⟩ := pop_eq_of_some next
  refine ⟨List.contains_iff_mem.mpr waits, ?_⟩
  rw [after, isWaiting, Bool.eq_false_iff, ne_eq, List.contains_iff_mem, mem_removeAll]
  exact fun stays => stays.2 rfl

theorem pop_eq_of_none (next : reached.pop.1 = none) :
    ∃ rest, rest.items = [] ∧ rest.order = reached.waitlist.order ∧
      (∀ other ∈ reached.waitlist.items, other.id ∉ reached.waiting) ∧
      reached.pop.2 = { reached with waitlist := rest } := by
  have order := order_nextWaiting reached.waiting reached.waitlist
  unfold pop at next ⊢
  cases found : nextWaiting reached.waiting reached.waitlist with
  | mk first rest =>
    rw [found] at next order
    cases next
    exact ⟨rest, items_nextWaiting_none found, order, nextWaiting_none found, rfl⟩

theorem Valid.pop_some (valid : reached.Valid) {after : Reached κ}
    (popped : reached.pop = (some state, after)) :
    state ∈ reached.states ∧ state.id ∈ reached.waiting ∧ after.states = reached.states ∧
      after.waiting = removeAll reached.waiting state.id ∧
      (∀ other ∈ after.waitlist.items, other ∈ reached.waitlist.items) ∧ after.Valid := by
  obtain ⟨skipped, rest, split, _, waits, before, left⟩ := pop_eq_of_some (congrArg Prod.fst popped)
  rw [popped] at left
  subst left
  have queuedState : state ∈ reached.waitlist.items := by
    rw [split]
    simp
  have kept : ∀ other ∈ rest.items, other ∈ reached.waitlist.items := by
    intro other member
    rw [split]
    simp [member]
  refine ⟨valid.queued state queuedState waits, waits, rfl, rfl, kept, ?_⟩
  constructor
  · exact valid.distinctIds
  · exact valid.distinctKeys
  · exact valid.members
  · exact valid.grouped
  · intro other queued waits
    exact valid.queued other (kept other queued) (mem_removeAll.mp waits).1
  · intro id waits
    rw [mem_removeAll] at waits
    obtain ⟨other, queued, rfl⟩ := valid.awaited id waits.1
    refine ⟨other, ?_, rfl⟩
    rw [split] at queued
    rcases List.mem_append.mp queued with skips | later
    · exact absurd waits.1 (before other skips)
    · rcases List.mem_cons.mp later with rfl | later
      · exact absurd rfl waits.2
      · exact later

theorem Valid.pop_ne_none (valid : reached.Valid) (waits : reached.hasWaiting = true) :
    ∃ state after, reached.pop = (some state, after) := by
  cases next : reached.pop.1 with
  | some state => exact ⟨state, reached.pop.2, Prod.ext next rfl⟩
  | none =>
    exfalso
    obtain ⟨_, _, _, idle, _⟩ := pop_eq_of_none next
    simp only [hasWaiting, Bool.not_eq_true', List.isEmpty_eq_false_iff_exists_mem] at waits
    obtain ⟨id, waits⟩ := waits
    obtain ⟨other, queued, rfl⟩ := valid.awaited id waits
    exact idle other queued waits

end Pop

variable [DecidableEq κ]

theorem replaceIn_perm {old : ReachedState κ} (distinct : (states.map ReachedState.key).Nodup)
    (member : old ∈ states) (state : ReachedState κ) :
    (replaceIn states old state).Perm
      (state :: states.filter fun other => other.key ≠ old.key) := by
  induction states with
  | nil => cases member
  | cons first rest induction =>
    rw [List.map_cons, List.nodup_cons] at distinct
    unfold replaceIn
    by_cases here : first.key = old.key
    · have absent : ∀ other ∈ rest, other.key ≠ old.key := by
        intro other otherMember equal
        exact distinct.1 (here ▸ equal ▸ List.mem_map_of_mem otherMember)
      rw [if_pos here, List.filter_cons_of_neg (by simpa using here),
        List.filter_eq_self.mpr (by simpa using absent)]
    · have later : old ∈ rest := by
        rcases List.mem_cons.mp member with equal | later
        · exact absurd (congrArg ReachedState.key equal.symm) here
        · exact later
      rw [if_neg here, List.filter_cons_of_pos (by simpa using here)]
      exact ((induction distinct.2 later).cons first).trans (List.Perm.swap state first _)

theorem replaceIn_eq_map {old : ReachedState κ} (distinct : (states.map ReachedState.key).Nodup)
    (member : old ∈ states) (state : ReachedState κ) :
    replaceIn states old state = states.map fun other => if other = old then state else other := by
  induction states with
  | nil => cases member
  | cons first rest induction =>
    have apart := List.nodup_cons.mp distinct
    unfold replaceIn
    by_cases here : first.key = old.key
    · have same : first = old :=
        List.inj_on_of_nodup_map distinct List.mem_cons_self member here
      have others : ∀ other ∈ rest, (if other = old then state else other) = other := by
        intro other otherMember
        apply if_neg
        intro equal
        exact apart.1 (here ▸ equal ▸ List.mem_map_of_mem otherMember)
      rw [if_pos here, List.map_cons, if_pos same, List.map_congr_left others, List.map_id']
    · have different : first ≠ old := fun same => here (congrArg ReachedState.key same)
      have later : old ∈ rest := List.mem_of_ne_of_mem different.symm member
      rw [if_neg here, List.map_cons, if_neg different, induction apart.2 later]

section Replace

variable {reached : Reached κ} {old : ReachedState κ}

section

variable (valid : reached.Valid) (member : old ∈ reached.states)

include valid member

theorem replace_eq (state : ReachedState κ) :
    reached.replace old state =
      { reached with
        states := replaceIn reached.states old state
        byLocation :=
          if state.location = old.location then
            changeAt reached.byLocation old.location (replaceIn · old state)
          else
            changeAt
              (changeAt reached.byLocation old.location (·.filter fun other => other.key ≠ old.key))
              state.location (· ++ [state])
        members := addUnique (removeAll reached.members old.id) state.id
        waiting := addUnique (removeAll reached.waiting old.id) state.id
        waitlist := reached.waitlist.push state } := by
  unfold replace
  rw [if_pos (valid.contains_iff.mpr ⟨old, member, rfl⟩)]
  rfl

theorem mem_states_replace (state : ReachedState κ) {other : ReachedState κ} :
    other ∈ (reached.replace old state).states ↔
      other = state ∨ (other ∈ reached.states ∧ other ≠ old) := by
  rw [replace_eq valid member state,
    (replaceIn_perm valid.distinctKeys member state).mem_iff, List.mem_cons, List.mem_filter]
  have keys : other ∈ reached.states → (other.key ≠ old.key ↔ other ≠ old) := by
    intro otherMember
    constructor
    · intro different equal
      exact different (congrArg ReachedState.key equal)
    · intro different equal
      exact different (valid.eq_of_key otherMember member equal)
  simp only [ne_eq, decide_not, Bool.not_eq_true', decide_eq_false_iff_not]
  constructor
  · rintro (same | ⟨otherMember, different⟩)
    · exact .inl same
    · exact .inr ⟨otherMember, (keys otherMember).mp different⟩
  · rintro (same | ⟨otherMember, different⟩)
    · exact .inl same
    · exact .inr ⟨otherMember, (keys otherMember).mpr different⟩

theorem replace_perm (state : ReachedState κ) :
    ∃ others, reached.states.Perm (old :: others) ∧
      (reached.replace old state).states.Perm (state :: others) := by
  refine ⟨reached.states.filter fun other => other.key ≠ old.key, ?_, ?_⟩
  · have without : (reached.states.filter fun other => other.key ≠ old.key) =
        reached.states.erase old := by
      rw [valid.nodup_states.erase_eq_filter]
      apply List.filter_congr
      intro other otherMember
      rw [Bool.eq_iff_iff, decide_eq_true_eq, bne_iff_ne]
      exact not_congr ⟨valid.eq_of_key otherMember member, congrArg _⟩
    rw [without]
    exact List.perm_cons_erase member
  · rw [replace_eq valid member state]
    exact replaceIn_perm valid.distinctKeys member state

theorem mem_keys_replace (state : ReachedState κ) {key : κ} :
    key ∈ (reached.replace old state).keys ↔
      key = state.key ∨ (key ∈ reached.keys ∧ key ≠ old.key) := by
  simp only [keys, List.mem_map, mem_states_replace valid member]
  constructor
  · rintro ⟨other, rfl | ⟨otherMember, different⟩, rfl⟩
    · exact .inl rfl
    · refine .inr ⟨⟨other, otherMember, rfl⟩, ?_⟩
      exact fun same => different (valid.eq_of_key otherMember member same)
  · rintro (rfl | ⟨⟨other, otherMember, rfl⟩, different⟩)
    · exact ⟨state, .inl rfl, rfl⟩
    · exact ⟨other, .inr ⟨otherMember, fun same => different (congrArg _ same)⟩, rfl⟩

theorem mem_waiting_replace (state : ReachedState κ) {id : Nat} :
    id ∈ (reached.replace old state).waiting ↔
      id = state.id ∨ (id ∈ reached.waiting ∧ id ≠ old.id) := by
  rw [replace_eq valid member state, mem_addUnique, mem_removeAll]
  exact or_comm

theorem mem_items_replace (state : ReachedState κ) {other : ReachedState κ} :
    other ∈ (reached.replace old state).waitlist.items ↔
      other = state ∨ other ∈ reached.waitlist.items := by
  rw [replace_eq valid member state]
  exact Waitlist.mem_push

/-- Without the old state, the groups are those of the remaining states: the group of the old state
loses it, and the other groups stay. -/
private theorem Valid.grouped_without (location : Option Nat) :
    (if location = old.location then
        (reached.statesAt location).filter fun other => other.key ≠ old.key
      else reached.statesAt location).Perm
      ((reached.states.filter fun other => other.key ≠ old.key).filter
        fun other => other.location = location) := by
  have group := valid.grouped location
  rw [List.filter_filter]
  split
  · refine (group.filter _).trans (List.Perm.of_eq ?_)
    rw [List.filter_filter]
    exact List.filter_congr fun _ _ => Bool.and_comm _ _
  · rename_i elsewhere
    refine group.trans (List.Perm.of_eq ?_)
    apply List.filter_congr
    intro other otherMember
    by_cases same : other.key = old.key
    · have equal := valid.eq_of_key otherMember member same
      subst equal
      simpa using fun here => elsewhere here.symm
    · simp [same]

private theorem Valid.grouped_replace (state : ReachedState κ) (location : Option Nat) :
    ((reached.replace old state).statesAt location).Perm
      ((replaceIn reached.states old state).filter fun other => other.location = location) := by
  have exchanged := (replaceIn_perm valid.distinctKeys member state).filter
    fun other => decide (other.location = location)
  have without := valid.grouped_without member location
  refine List.Perm.trans ?_ exchanged.symm
  rw [replace_eq valid member state]
  unfold statesAt at without ⊢
  dsimp only
  by_cases stays : state.location = old.location
  · rw [if_pos stays, lookup_changeAt]
    by_cases here : location = old.location
    · subst here
      have oldHere : old ∈ reached.statesAt old.location := valid.mem_statesAt.mpr ⟨member, rfl⟩
      have groupKeys : ((reached.statesAt old.location).map ReachedState.key).Nodup := by
        rw [((valid.grouped old.location).map _).nodup_iff]
        exact valid.distinctKeys.sublist (List.filter_sublist.map _)
      rw [if_pos rfl] at without ⊢
      rw [Option.getD_some, List.filter_cons_of_pos (by simpa using stays)]
      exact (replaceIn_perm groupKeys oldHere state).trans (without.cons state)
    · have elsewhere : state.location ≠ location := fun equal => here (equal.symm.trans stays)
      rw [if_neg here] at without ⊢
      rw [List.filter_cons_of_neg (by simpa using elsewhere)]
      exact without
  · rw [if_neg stays, lookup_changeAt, lookup_changeAt]
    by_cases here : location = state.location
    · subst here
      rw [if_neg stays] at without
      rw [if_pos rfl, Option.getD_some, if_neg stays, List.filter_cons_of_pos (by simp)]
      exact (List.perm_append_singleton _ _).trans (without.cons state)
    · have elsewhere : state.location ≠ location := fun equal => here equal.symm
      rw [if_neg here, lookup_changeAt, List.filter_cons_of_neg (by simpa using elsewhere)]
      by_cases left : location = old.location
      · subst left
        rw [if_pos rfl] at without ⊢
        exact without
      · rw [if_neg left] at without ⊢
        exact without

theorem Valid.replace {state : ReachedState κ} (fresh : reached.Fresh state) :
    (reached.replace old state).Valid := by
  have exchanged := replaceIn_perm valid.distinctKeys member state
  have grouped := valid.grouped_replace member state
  have keptStates : ∀ other ∈ reached.states.filter fun other => other.key ≠ old.key,
      other ∈ reached.states := fun other otherMember => (List.mem_filter.mp otherMember).1
  have found := fun other : ReachedState κ =>
    (mem_states_replace valid member state : other ∈ _ ↔ _)
  rw [replace_eq valid member state] at grouped found ⊢
  constructor
  · rw [(exchanged.map _).nodup_iff, List.map_cons, List.nodup_cons]
    refine ⟨?_, valid.distinctIds.sublist (List.filter_sublist.map _)⟩
    intro present
    obtain ⟨other, otherMember, same⟩ := List.mem_map.mp present
    exact fresh.id other (keptStates other otherMember) same
  · rw [(exchanged.map _).nodup_iff, List.map_cons, List.nodup_cons]
    refine ⟨?_, valid.distinctKeys.sublist (List.filter_sublist.map _)⟩
    intro present
    obtain ⟨other, otherMember, same⟩ := List.mem_map.mp present
    exact fresh.key other (keptStates other otherMember) same
  · intro id
    rw [mem_addUnique, mem_removeAll, valid.members, List.mem_map, List.mem_map]
    simp only [found]
    constructor
    · rintro (⟨⟨other, otherMember, rfl⟩, different⟩ | rfl)
      · exact ⟨other, .inr ⟨otherMember, fun equal => different (equal ▸ rfl)⟩, rfl⟩
      · exact ⟨state, .inl rfl, rfl⟩
    · rintro ⟨other, rfl | ⟨otherMember, different⟩, rfl⟩
      · exact .inr rfl
      · refine .inl ⟨⟨other, otherMember, rfl⟩, ?_⟩
        intro same
        exact different (valid.eq_of_id otherMember member same)
  · exact grouped
  · intro other queued waits
    rw [found]
    rcases Waitlist.mem_push.mp queued with same | earlier
    · exact .inl same
    · rcases mem_addUnique.mp waits with waits | same
      · rw [mem_removeAll] at waits
        refine .inr ⟨valid.queued other earlier waits.1, ?_⟩
        intro equal
        exact waits.2 (equal ▸ rfl)
      · exact absurd same (fresh.queue other earlier)
  · intro id waits
    rcases mem_addUnique.mp waits with waits | rfl
    · obtain ⟨other, queued, same⟩ := valid.awaited id (mem_removeAll.mp waits).1
      exact ⟨other, Waitlist.mem_push.mpr (.inr queued), same⟩
    · exact ⟨state, Waitlist.mem_push.mpr (.inl rfl), rfl⟩

end

end Replace

end Reached

end Reachability
