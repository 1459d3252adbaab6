import Mathlib
import Reachability.Proofs.Arg.Ancestry

/-!
# Enumeration of walks

Walks from the root to a state are found backwards and breadth first.  Every
partial walk is taken from the queue once, the shorter ones first, and all its
extensions enter the queue; so whatever walk has not been taken extends one
that waits, which is at least as long as everything taken before.  Nothing leads
back to the root, which therefore stands only at the start of a walk.
-/

namespace Reachability.Arg

variable {σ : Type u} {arg : Arg σ} {root target limit : Nat} {shortest walk : List Nat}

/-- The partial walks that have been taken from the queue, the first one first, and those that
wait. -/
structure Unrolling where
  taken : List (List Nat)
  queue : List (List Nat)

/-- The walks that are one state longer, unless the walk starts at the root. -/
def extensions (arg : Arg σ) (root : Nat) : List Nat → List (List Nat)
  | [] => []
  | state :: rest =>
    if state = root then [] else (arg.parents state).map fun parent => parent :: state :: rest

/-- The walks that are returned once these walks have been taken. -/
def foundAmong (root : Nat) (shortest : List Nat) (taken : List (List Nat)) : List (List Nat) :=
  shortest :: taken.filter fun walk => decide (walk.head? = some root ∧ walk ≠ shortest)

/-- Take walks from the queue until enough walks are found or `budget` walks have been taken.  This
is `extendWalks` with a record of the walks it takes, as `reverse_extendWalks` shows. -/
def unroll (arg : Arg σ) (root : Nat) (shortest : List Nat) (limit : Nat) :
    Nat → Unrolling → Unrolling
  | 0, unrolling => unrolling
  | budget + 1, unrolling =>
    if limit ≤ (foundAmong root shortest unrolling.taken).length then unrolling
    else
      match unrolling.queue with
      | [] => unrolling
      | walk :: queue =>
        unroll arg root shortest limit budget
          ⟨unrolling.taken ++ [walk], queue ++ arg.extensions root walk⟩

/-- The number of partial walks that are taken while walks to a state are listed. -/
def walkExpansions (arg : Arg σ) (target limit : Nat) : Nat :=
  match arg.witnessPath target with
  | .error _ => 0
  | .ok shortest =>
    (arg.unroll (arg.root.getD 0) shortest limit maxWalkExpansions ⟨[], [[target]]⟩).taken.length

section Queue

theorem unroll_enough {unrolling : Unrolling}
    (enough : limit ≤ (foundAmong root shortest unrolling.taken).length) (budget : Nat) :
    arg.unroll root shortest limit budget unrolling = unrolling := by
  cases budget with
  | zero => rfl
  | succ budget =>
    unfold unroll
    exact if_pos enough

theorem unroll_idle (taken : List (List Nat)) (budget : Nat) :
    arg.unroll root shortest limit budget ⟨taken, []⟩ = ⟨taken, []⟩ := by
  cases budget with
  | zero => rfl
  | succ budget =>
    unfold unroll
    split <;> rfl

theorem unroll_take {taken : List (List Nat)}
    (more : ¬ limit ≤ (foundAmong root shortest taken).length) (budget : Nat) (walk : List Nat)
    (queue : List (List Nat)) :
    arg.unroll root shortest limit (budget + 1) ⟨taken, walk :: queue⟩ =
      arg.unroll root shortest limit budget
        ⟨taken ++ [walk], queue ++ arg.extensions root walk⟩ := by
  rw [unroll]
  exact if_neg more

theorem foundAmong_concat_of_ne {taken : List (List Nat)} {walk : List Nat}
    (other : walk.head? ≠ some root) :
    foundAmong root shortest (taken ++ [walk]) = foundAmong root shortest taken := by
  unfold foundAmong
  simp [other]

theorem foundAmong_concat_root (taken : List (List Nat)) (rest : List Nat) :
    foundAmong root shortest (taken ++ [root :: rest]) =
      if root :: rest = shortest then foundAmong root shortest taken
      else foundAmong root shortest taken ++ [root :: rest] := by
  unfold foundAmong
  split <;> rename_i isShortest <;> simp [isShortest]

private theorem reverse_foldl_prepend (parents walk : List Nat) (back : List (List Nat)) :
    (parents.foldl (fun back parent => (parent :: walk) :: back) back).reverse =
      back.reverse ++ parents.map fun parent => parent :: walk := by
  induction parents generalizing back with
  | nil => simp
  | cons parent parents induction =>
    rw [List.foldl_cons, induction]
    simp

/-- The front and the back make up one queue, which is empty only if nothing waits. -/
private theorem append_reverse_of_turn {front back next later : List (List Nat)}
    (turned : (if front.isEmpty then (back.reverse, []) else (front, back)) = (next, later)) :
    front ++ back.reverse = next ++ later.reverse ∧ (next = [] → later = []) := by
  by_cases isEmpty : front = []
  · subst isEmpty
    cases turned
    simp
  · rw [if_neg (by simpa using isEmpty)] at turned
    cases turned
    exact ⟨rfl, fun impossible => absurd impossible isEmpty⟩

theorem reverse_extendWalks {budget : Nat} {front back found : List (List Nat)} :
    ∀ {taken : List (List Nat)}, foundAmong root shortest taken = found.reverse →
      (arg.extendWalks root shortest limit budget front back found).reverse =
        foundAmong root shortest
          (arg.unroll root shortest limit budget ⟨taken, front ++ back.reverse⟩).taken := by
  fun_induction extendWalks arg root shortest limit budget front back found with
  | case1 =>
    intro taken same
    exact same.symm
  | case2 budget front back found enough =>
    intro taken same
    rw [← List.length_reverse, ← same] at enough
    rw [unroll_enough enough]
    exact same.symm
  | case3 budget front back found _ later turned =>
    intro taken same
    obtain ⟨queue, idle⟩ := append_reverse_of_turn turned
    rw [queue, idle rfl, List.reverse_nil, List.append_nil, unroll_idle]
    exact same.symm
  | case4 budget front back found more next later turned induction =>
    intro taken same
    rw [← List.length_reverse, ← same] at more
    rw [(append_reverse_of_turn turned).1, List.cons_append, unroll_take more]
    have unchanged : foundAmong root shortest (taken ++ [[]]) = found.reverse :=
      (foundAmong_concat_of_ne (by simp)).trans same
    rw [induction unchanged]
    simp [extensions]
  | case5 budget front back found more rest next later turned walk =>
    rename_i induction
    intro taken same
    rw [← List.length_reverse, ← same] at more
    rw [(append_reverse_of_turn turned).1, List.cons_append, unroll_take more]
    have recorded : foundAmong root shortest (taken ++ [root :: rest]) =
        (if root :: rest = shortest then found else (root :: rest) :: found).reverse := by
      rw [foundAmong_concat_root, same]
      split <;> simp
    rw [induction recorded]
    simp [extensions]
  | case6 budget front back found more state rest next later turned walk other =>
    rename_i induction
    intro taken same
    rw [← List.length_reverse, ← same] at more
    rw [(append_reverse_of_turn turned).1, List.cons_append, unroll_take more]
    have unchanged : foundAmong root shortest (taken ++ [state :: rest]) = found.reverse :=
      (foundAmong_concat_of_ne (by simpa using other)).trans same
    rw [induction unchanged, reverse_foldl_prepend, List.append_assoc]
    simp [extensions, other, walk]

end Queue

/-- A walk along links that ends at a state, wherever it starts. -/
structure WalkTo (arg : Arg σ) (target : Nat) (walk : List Nat) : Prop where
  ends : walk.getLast? = some target
  links : walk.IsChain fun parent child => parent ∈ arg.parents child

theorem WalkTo.cons {state parent : Nat} {rest : List Nat}
    (walk : arg.WalkTo target (state :: rest))
    (link : parent ∈ arg.parents state) : arg.WalkTo target (parent :: state :: rest) := by
  refine ⟨?_, List.isChain_cons_cons.mpr ⟨link, walk.links⟩⟩
  rw [List.getLast?_cons_cons]
  exact walk.ends

/-- What is known about the walks of an unrolling: all of them lead to the target, each one but the
shortest extends a walk that has been taken, and all extensions of the walks that have been taken
are there.  The walks are ordered by length, and the waiting ones differ by at most one state. -/
structure Unrolling.Layered (arg : Arg σ) (target : Nat) (unrolling : Unrolling) : Prop where
  walks : ∀ walk ∈ unrolling.taken ++ unrolling.queue, arg.WalkTo target walk
  start : [target] ∈ unrolling.taken ++ unrolling.queue
  distinct : (unrolling.taken ++ unrolling.queue).Nodup
  extends_taken : ∀ walk ∈ unrolling.taken ++ unrolling.queue,
    walk = [target] ∨ walk.tail ∈ unrolling.taken
  closed : ∀ state rest, state :: rest ∈ unrolling.taken → ∀ parent ∈ arg.parents state,
    parent :: state :: rest ∈ unrolling.taken ++ unrolling.queue
  ordered : (unrolling.taken ++ unrolling.queue).Pairwise fun walk later =>
    walk.length ≤ later.length
  near : ∀ first ∈ unrolling.queue.head?, ∀ walk ∈ unrolling.queue, walk.length ≤ first.length + 1

theorem WalkTo.tail {state next : Nat} {rest : List Nat}
    (walk : arg.WalkTo target (state :: next :: rest)) :
    state ∈ arg.parents next ∧ arg.WalkTo target (next :: rest) := by
  obtain ⟨ends, links⟩ := walk
  rw [List.getLast?_cons_cons] at ends
  rw [List.isChain_cons_cons] at links
  exact ⟨links.1, ends, links.2⟩

theorem exists_of_mem_extensions {other : List Nat} (member : other ∈ arg.extensions root walk) :
    ∃ state rest parent, walk = state :: rest ∧ parent ∈ arg.parents state ∧
      other = parent :: walk := by
  cases walk with
  | nil => cases member
  | cons state rest =>
    rw [extensions] at member
    split at member
    · cases member
    · obtain ⟨parent, link, rfl⟩ := List.mem_map.mp member
      exact ⟨state, rest, parent, rfl, link, rfl⟩

theorem length_of_mem_extensions {other : List Nat} (member : other ∈ arg.extensions root walk) :
    other.length = walk.length + 1 := by
  obtain ⟨_, _, parent, _, _, rfl⟩ := exists_of_mem_extensions member
  rfl

theorem extensions_eq (bare : arg.parents root = []) (state : Nat) (rest : List Nat) :
    arg.extensions root (state :: rest) =
      (arg.parents state).map fun parent => parent :: state :: rest := by
  rw [extensions]
  split
  · rename_i isRoot
    rw [isRoot, bare]
    rfl
  · rfl

theorem mem_extensions (bare : arg.parents root = []) {state parent : Nat}
    (link : parent ∈ arg.parents state) (rest : List Nat) :
    parent :: state :: rest ∈ arg.extensions root (state :: rest) := by
  rw [extensions_eq bare]
  exact List.mem_map_of_mem link

namespace Unrolling.Layered

variable {unrolling : Unrolling} {taken queue : List (List Nat)} {walk : List Nat}

theorem single (arg : Arg σ) (target : Nat) : Layered arg target ⟨[], [[target]]⟩ := by
  constructor
  · simpa using ⟨rfl, .singleton target⟩
  all_goals simp

section Take

variable (layered : Layered arg target ⟨taken, walk :: queue⟩)

include layered

theorem first_not_taken : walk ∉ taken := by
  intro member
  have disjoint := (List.nodup_append.mp layered.distinct).2.2
  exact disjoint walk member walk List.mem_cons_self rfl

theorem taken_le : ∀ other ∈ taken, other.length ≤ walk.length := by
  intro other member
  have separate := (List.pairwise_append.mp layered.ordered).2.2
  exact separate other member walk List.mem_cons_self

theorem le_queued : ∀ other ∈ queue, walk.length ≤ other.length :=
  (List.pairwise_cons.mp (List.pairwise_append.mp layered.ordered).2.1).1

theorem seen_le : ∀ other ∈ taken ++ walk :: queue, other.length ≤ walk.length + 1 := by
  intro other member
  rcases List.mem_append.mp member with old | waits
  · exact (layered.taken_le other old).trans (Nat.le_succ _)
  · exact layered.near walk rfl other waits

theorem extension_not_seen {other : List Nat} (isNew : other ∈ arg.extensions root walk) :
    other ∉ taken ++ walk :: queue := by
  intro seen
  obtain ⟨state, rest, parent, rfl, _, rfl⟩ := exists_of_mem_extensions isNew
  rcases layered.extends_taken _ seen with isTarget | before
  · cases isTarget
  · exact layered.first_not_taken before

theorem nodup_extensions (bare : arg.parents root = [])
    (apart : ∀ state rest, arg.WalkTo target (state :: rest) → (arg.parents state).Nodup) :
    (arg.extensions root walk).Nodup := by
  cases walk with
  | nil => exact List.nodup_nil
  | cons state rest =>
    have distinct := apart state rest (layered.walks _ (by simp))
    rw [extensions_eq bare]
    exact distinct.map fun _ _ same => (List.cons.inj same).1

theorem take (bare : arg.parents root = [])
    (apart : ∀ state rest, arg.WalkTo target (state :: rest) → (arg.parents state).Nodup) :
    Layered arg target ⟨taken ++ [walk], queue ++ arg.extensions root walk⟩ := by
  have seen : (taken ++ [walk]) ++ (queue ++ arg.extensions root walk) =
      (taken ++ walk :: queue) ++ arg.extensions root walk := by simp
  constructor <;> try rw [seen]
  case walks =>
    intro other member
    rcases List.mem_append.mp member with old | isNew
    · exact layered.walks other old
    · obtain ⟨state, rest, parent, rfl, link, rfl⟩ := exists_of_mem_extensions isNew
      exact (layered.walks _ (by simp)).cons link
  case start => exact List.mem_append_left _ layered.start
  case distinct =>
    apply List.nodup_append.mpr ⟨layered.distinct, layered.nodup_extensions bare apart, ?_⟩
    rintro other old _ isNew rfl
    exact layered.extension_not_seen isNew old
  case extends_taken =>
    intro other member
    rcases List.mem_append.mp member with old | isNew
    · exact (layered.extends_taken other old).imp_right (List.mem_append_left _)
    · obtain ⟨_, _, parent, _, _, rfl⟩ := exists_of_mem_extensions isNew
      exact .inr (List.mem_append_right _ (List.mem_singleton_self _))
  case closed =>
    intro state rest member parent link
    rcases List.mem_append.mp member with old | isFirst
    · exact List.mem_append_left _ (layered.closed state rest old parent link)
    · rw [← List.mem_singleton.mp isFirst]
      exact List.mem_append_right _ (mem_extensions bare link rest)
  case ordered =>
    apply List.pairwise_append.mpr ⟨layered.ordered, ?_, ?_⟩
    · apply List.pairwise_of_forall_mem_list
      intro other isNew later isNewToo
      rw [length_of_mem_extensions isNew, length_of_mem_extensions isNewToo]
    · intro other old later isNew
      rw [length_of_mem_extensions isNew]
      exact layered.seen_le other old
  case near =>
    intro first isFirst other member
    have firstLe : walk.length ≤ first.length := by
      rcases List.mem_append.mp (List.mem_of_head? isFirst) with waits | isNew
      · exact layered.le_queued first waits
      · exact (length_of_mem_extensions isNew).ge.trans' (Nat.le_succ _)
    have otherLe : other.length ≤ walk.length + 1 := by
      rcases List.mem_append.mp member with waits | isNew
      · exact layered.seen_le other (by simp [waits])
      · exact (length_of_mem_extensions isNew).le
    omega

end Take

theorem taken_or_extends (layered : Layered arg target unrolling) :
    ∀ {walk : List Nat}, arg.WalkTo target walk →
      walk ∈ unrolling.taken ∨ ∃ waits ∈ unrolling.queue, waits <:+ walk
  | [], walkTo => by cases walkTo.ends
  | [state], walkTo => by
      cases walkTo.ends
      rcases List.mem_append.mp layered.start with taken | waits
      · exact .inl taken
      · exact .inr ⟨_, waits, List.suffix_rfl⟩
  | state :: next :: rest, walkTo => by
      obtain ⟨link, tailTo⟩ := walkTo.tail
      rcases layered.taken_or_extends tailTo with taken | ⟨waits, member, isSuffix⟩
      · rcases List.mem_append.mp (layered.closed next rest taken state link) with also | waits
        · exact .inl also
        · exact .inr ⟨_, waits, List.suffix_rfl⟩
      · exact .inr ⟨waits, member, isSuffix.trans (List.suffix_cons _ _)⟩

/-- Whatever is shorter than a walk that has been taken has been taken before. -/
theorem taken_of_lt (layered : Layered arg target unrolling) {walk other : List Nat}
    (walkTo : arg.WalkTo target walk) (otherTaken : other ∈ unrolling.taken)
    (shorter : walk.length < other.length) : walk ∈ unrolling.taken := by
  rcases layered.taken_or_extends walkTo with taken | ⟨waits, member, isSuffix⟩
  · exact taken
  · have separate := (List.pairwise_append.mp layered.ordered).2.2
    have longer : other.length ≤ waits.length := separate other otherTaken waits member
    have within := isSuffix.length_le
    omega

theorem taken_of_idle (layered : Layered arg target unrolling) (idle : unrolling.queue = [])
    {walk : List Nat} (walkTo : arg.WalkTo target walk) : walk ∈ unrolling.taken := by
  rcases layered.taken_or_extends walkTo with taken | ⟨waits, member, _⟩
  · exact taken
  · rw [idle] at member
    cases member

theorem unroll (bare : arg.parents root = [])
    (apart : ∀ state rest, arg.WalkTo target (state :: rest) → (arg.parents state).Nodup)
    (layered : Layered arg target unrolling) (budget : Nat) :
    Layered arg target (arg.unroll root shortest limit budget unrolling) := by
  fun_induction Arg.unroll arg root shortest limit budget unrolling with
  | case1 | case2 | case3 => exact layered
  | case4 budget unrolling _ walk queue waits induction =>
    apply induction
    apply take _ bare apart
    rw [← waits]
    exact layered

end Unrolling.Layered

section Found

variable {taken : List (List Nat)}

theorem mem_foundAmong {walk : List Nat} :
    walk ∈ foundAmong root shortest taken ↔
      walk = shortest ∨ walk ∈ taken ∧ walk.head? = some root := by
  unfold foundAmong
  rw [List.mem_cons, List.mem_filter, decide_eq_true_iff]
  by_cases isShortest : walk = shortest <;> simp [isShortest]

theorem nodup_foundAmong (distinct : taken.Nodup) : (foundAmong root shortest taken).Nodup := by
  apply List.nodup_cons.mpr ⟨?_, distinct.filter _⟩
  intro member
  have excluded := of_decide_eq_true (List.mem_filter.mp member).2
  exact excluded.2 rfl

theorem pairwise_foundAmong (ordered : taken.Pairwise fun walk later => walk.length ≤ later.length)
    (least : ∀ walk ∈ taken, walk.head? = some root → shortest.length ≤ walk.length) :
    (foundAmong root shortest taken).Pairwise fun walk later => walk.length ≤ later.length := by
  apply List.pairwise_cons.mpr ⟨?_, ordered.filter _⟩
  intro walk member
  obtain ⟨isTaken, starts⟩ := List.mem_filter.mp member
  exact least walk isTaken (of_decide_eq_true starts).1

theorem length_foundAmong_concat_le (taken : List (List Nat)) (walk : List Nat) :
    (foundAmong root shortest (taken ++ [walk])).length ≤
      (foundAmong root shortest taken).length + 1 := by
  unfold foundAmong
  rw [List.filter_append, List.length_cons, List.length_cons, List.length_append]
  have atMost : ∀ p : List Nat → Bool, ([walk].filter p).length ≤ 1 :=
    fun p => List.length_filter_le p [walk]
  have := atMost fun walk => decide (walk.head? = some root ∧ walk ≠ shortest)
  omega

theorem length_foundAmong_unroll_le {unrolling : Unrolling} {budget : Nat}
    (bounded : (foundAmong root shortest unrolling.taken).length ≤ limit) :
    (foundAmong root shortest
      (arg.unroll root shortest limit budget unrolling).taken).length ≤ limit := by
  fun_induction Arg.unroll arg root shortest limit budget unrolling with
  | case1 | case2 | case3 => exact bounded
  | case4 budget unrolling more walk queue waits induction =>
    apply induction
    have oneMore : (foundAmong root shortest (unrolling.taken ++ [walk])).length ≤
        (foundAmong root shortest unrolling.taken).length + 1 := length_foundAmong_concat_le _ _
    dsimp only
    omega

/-- Walks are taken until the budget is used up, enough walks are found or nothing waits. -/
theorem unroll_ends (arg : Arg σ) (root : Nat) (shortest : List Nat) (limit budget : Nat)
    (unrolling : Unrolling) :
    let final := arg.unroll root shortest limit budget unrolling
    final.taken.length ≤ unrolling.taken.length + budget ∧
      (final.taken.length = unrolling.taken.length + budget ∨
        limit ≤ (foundAmong root shortest final.taken).length ∨ final.queue = []) := by
  fun_induction Arg.unroll arg root shortest limit budget unrolling with
  | case1 unrolling => exact ⟨Nat.le_refl _, .inl rfl⟩
  | case2 budget unrolling enough => exact ⟨Nat.le_add_right _ _, .inr (.inl enough)⟩
  | case3 budget unrolling _ idle => exact ⟨Nat.le_add_right _ _, .inr (.inr idle)⟩
  | case4 budget unrolling _ walk queue waits induction =>
    have one : (unrolling.taken ++ [walk]).length + budget =
        unrolling.taken.length + (budget + 1) := by
      rw [List.length_append, List.length_singleton, Nat.add_assoc, Nat.add_comm 1]
    dsimp only at induction ⊢
    rw [one] at induction
    exact induction

end Found

theorem PathTo.walkTo {path : List Nat} (pathTo : arg.PathTo root target path) :
    arg.WalkTo target path :=
  ⟨pathTo.ends, pathTo.links⟩

theorem WalkTo.pathTo (walkTo : arg.WalkTo target walk) (starts : walk.head? = some root) :
    arg.PathTo root target walk :=
  ⟨starts, walkTo.ends, walkTo.links⟩

/-- Nothing leads back to a state without parents. -/
theorem not_mem_tail_of_links (bare : arg.parents root = [])
    (links : walk.IsChain fun parent child => parent ∈ arg.parents child) : root ∉ walk.tail := by
  induction walk with
  | nil => exact List.not_mem_nil
  | cons state rest induction =>
    cases rest with
    | nil => exact List.not_mem_nil
    | cons next rest =>
      rw [List.isChain_cons_cons] at links
      intro member
      rcases List.mem_cons.mp member with rfl | later
      · rw [bare] at links
        cases links.1
      · exact induction links.2 later

/-- An enumeration of walks from the root to a state, which starts with the shortest path and
continues by increasing length.  No walk that is shorter than the last one is left out, and none at
all if fewer walks than allowed are listed while some of the budget is left. -/
structure Enumerates (arg : Arg σ) (root target limit : Nat) (walks : List (List Nat)) : Prop where
  first : ∃ path, arg.witnessPath target = .ok path ∧ walks.head? = some path
  count : 1 ≤ walks.length ∧ walks.length ≤ limit
  leads : ∀ walk ∈ walks, arg.PathTo root target walk
  linked : ∀ walk ∈ walks, walk.IsChain arg.Child
  once : ∀ walk ∈ walks, root ∉ walk.tail
  distinct : walks.Nodup
  ordered : walks.Pairwise fun walk later => walk.length ≤ later.length
  shorter : ∀ last ∈ walks.getLast?, ∀ walk, arg.PathTo root target walk →
    walk.length < last.length → walk ∈ walks
  budget : arg.walkExpansions target limit ≤ maxWalkExpansions
  complete : walks.length < limit → arg.walkExpansions target limit < maxWalkExpansions →
    ∀ walk, arg.PathTo root target walk → walk ∈ walks

namespace Coherent

variable {analysis : Analysis σ} {graph : FlowGraph} {Proper : σ → Prop} {Link : σ → σ → Prop}

section

variable (coherent : arg.Coherent analysis graph Proper Link root)

include coherent

/-- The walks that are listed are those found while the walks to the state are unrolled. -/
theorem witnessWalks_eq (found : arg.witnessPath target = .ok shortest) (limit : Nat) :
    let final := arg.unroll root shortest limit maxWalkExpansions ⟨[], [[target]]⟩
    arg.witnessWalks target limit = .ok (foundAmong root shortest final.taken) ∧
      arg.walkExpansions target limit = final.taken.length := by
  constructor
  · unfold witnessWalks
    rw [found, coherent.rooted]
    exact congrArg Except.ok (reverse_extendWalks rfl)
  · unfold walkExpansions
    rw [found, coherent.rooted]
    rfl

theorem nodup_parents_of_walkTo (live : target ∈ arg.live) (state : Nat) (rest : List Nat)
    (walkTo : arg.WalkTo target (state :: rest)) : (arg.parents state).Nodup := by
  obtain ⟨walked, _⟩ := coherent.isChain_children live walkTo.ends walkTo.links
  exact (coherent.distinct state (walked state List.mem_cons_self)).1

theorem isChain_child_of_pathTo (live : target ∈ arg.live) {path : List Nat}
    (pathTo : arg.PathTo root target path) :
    path.IsChain arg.Child := by
  obtain ⟨rest, rfl⟩ := List.head?_eq_some_iff.mp pathTo.starts
  exact (coherent.isChain_children live pathTo.ends pathTo.links).2.imp fun _ _ link => link.2

theorem witnessWalks_enumerates (bare : arg.parents root = []) (live : target ∈ arg.live)
    (positive : 1 ≤ limit) :
    ∃ walks, arg.witnessWalks target limit = .ok walks ∧
      arg.Enumerates root target limit walks := by
  obtain ⟨shortest, shortestFound, shortestTo, least⟩ := coherent.witnessPath_ok live
  obtain ⟨listed, expansions⟩ := coherent.witnessWalks_eq shortestFound limit
  obtain ⟨withinBudget, ended⟩ :=
    unroll_ends arg root shortest limit maxWalkExpansions ⟨[], [[target]]⟩
  have layered : (arg.unroll root shortest limit maxWalkExpansions
      ⟨[], [[target]]⟩).Layered arg target :=
    (Unrolling.Layered.single arg target).unroll bare (coherent.nodup_parents_of_walkTo live) _
  have bounded : (foundAmong root shortest (arg.unroll root shortest limit maxWalkExpansions
      ⟨[], [[target]]⟩).taken).length ≤ limit :=
    length_foundAmong_unroll_le positive
  generalize arg.unroll root shortest limit maxWalkExpansions ⟨[], [[target]]⟩ = final at *
  rw [List.length_nil, Nat.zero_add, ← expansions] at withinBudget ended
  have leads : ∀ walk ∈ foundAmong root shortest final.taken, arg.PathTo root target walk := by
    intro walk member
    rcases mem_foundAmong.mp member with rfl | ⟨taken, starts⟩
    · exact shortestTo
    · exact (layered.walks walk (List.mem_append_left _ taken)).pathTo starts
  refine ⟨_, listed, ?_⟩
  constructor
  · exact ⟨shortest, shortestFound, rfl⟩
  · exact ⟨Nat.le_add_left _ _, bounded⟩
  · exact leads
  · exact fun walk member => coherent.isChain_child_of_pathTo live (leads walk member)
  · exact fun walk member => not_mem_tail_of_links bare (leads walk member).links
  · exact nodup_foundAmong (List.nodup_append.mp layered.distinct).1
  · apply pairwise_foundAmong (List.pairwise_append.mp layered.ordered).1
    intro walk taken starts
    exact least walk ((layered.walks walk (List.mem_append_left _ taken)).pathTo starts)
  · intro last isLast walk pathTo isShorter
    rcases mem_foundAmong.mp (List.mem_of_getLast? isLast) with rfl | ⟨lastTaken, _⟩
    · exact absurd (least walk pathTo) (Nat.not_le_of_lt isShorter)
    · apply mem_foundAmong.mpr
      exact .inr ⟨layered.taken_of_lt pathTo.walkTo lastTaken isShorter, pathTo.starts⟩
  · exact withinBudget
  · intro fewer unspent walk pathTo
    have idle : final.queue = [] := by
      rcases ended with spent | enough | idle
      · exact absurd spent unspent.ne
      · exact absurd enough (Nat.not_le_of_lt fewer)
      · exact idle
    apply mem_foundAmong.mpr
    exact .inr ⟨layered.taken_of_idle idle pathTo.walkTo, pathTo.starts⟩

end

end Coherent

end Reachability.Arg
