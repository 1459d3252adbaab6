import Mathlib
import Reachability.Proofs.FlowGraph.Draft

/-!
# Lowering keeps drafts sound

Lowering from a ready node only grows the draft, and the node where control
arrives afterwards is ready again.  This is shown for each operation on drafts
and for the ways in which two branches can meet.
-/

namespace Reachability

/-- The targets of jumps are nodes of a draft with `size` nodes, and not the first one. -/
def JumpTargets.Within (targets : Option JumpTargets) (size : Nat) : Prop :=
  ∀ jumps, targets = some jumps →
    (0 < jumps.header ∧ jumps.header < size) ∧ 0 < jumps.exit ∧ jumps.exit < size

theorem JumpTargets.within_some {header exit size : Nat} (headerPositive : 0 < header)
    (headerBound : header < size) (exitPositive : 0 < exit) (exitBound : exit < size) :
    Within (some { header, exit }) size := by
  rintro jumps ⟨⟩
  exact ⟨⟨headerPositive, headerBound⟩, exitPositive, exitBound⟩

theorem JumpTargets.Within.mono {targets : Option JumpTargets} {size larger : Nat}
    (within : Within targets size) (le : size ≤ larger) : Within targets larger := by
  intro jumps found
  obtain ⟨⟨headerPositive, header⟩, exitPositive, exit⟩ := within jumps found
  exact ⟨⟨headerPositive, Nat.lt_of_lt_of_le header le⟩, exitPositive,
    Nat.lt_of_lt_of_le exit le⟩

/-- The targets of jumps are not the node where control is. -/
def JumpTargets.Apart (targets : Option JumpTargets) (node : Nat) : Prop :=
  ∀ jumps, targets = some jumps → jumps.header ≠ node ∧ jumps.exit ≠ node

theorem JumpTargets.Within.apart {targets : Option JumpTargets} {size node : Nat}
    (within : Within targets size) (fresh : size ≤ node) : Apart targets node := by
  intro jumps found
  obtain ⟨⟨_, header⟩, _, exit⟩ := within jumps found
  constructor
  · omega
  · omega

namespace Draft

/-- The result of lowering from a node: the draft has grown from there, and control arrives at a
ready node, if anywhere. -/
structure Lowers (current : Nat) (before : Draft) (result : Option Nat × Draft) : Prop where
  grows : before.Grows current result.2
  sound : result.2.Sound
  finish : ∀ node, result.1 = some node →
    result.2.Ready node ∧ (node = current ∨ before.size ≤ node)

namespace Lowers

variable {draft middle : Draft} {current : Nat} {result : Option Nat × Draft}

theorem refl (sound : draft.Sound) (ready : draft.Ready current) :
    draft.Lowers current (some current, draft) := by
  refine ⟨.refl .., sound, ?_⟩
  rintro node ⟨⟩
  exact ⟨ready, .inl rfl⟩

theorem trans {next : Nat} (first : draft.Lowers current (some next, middle))
    (second : middle.Lowers next result) : draft.Lowers current result := by
  have own := (first.finish next rfl).2
  refine ⟨first.grows.trans second.grows own, second.sound, ?_⟩
  intro node arrives
  obtain ⟨ready, same | fresh⟩ := second.finish node arrives
  · exact ⟨ready, same ▸ own⟩
  · exact ⟨ready, .inr (Nat.le_trans first.grows.size fresh)⟩

theorem of_label (label : String)
    (lowers : (draft.label current label).Lowers current result) :
    draft.Lowers current result := by
  refine ⟨(Grows.label ..).trans lowers.grows (.inl rfl), lowers.sound, ?_⟩
  rw [← (draft.size_label current label).1]
  exact lowers.finish

theorem extend (sound : draft.Sound) (ready : draft.Ready current) (action : Action) (pos : Nat) :
    draft.Lowers current (some draft.size, (draft.extend current action pos).2) := by
  refine ⟨.extend .., sound.extend ready.bound ready.notExit, ?_⟩
  rintro node ⟨⟩
  exact ⟨sound.ready_extend ready.bound, .inr (Nat.le_refl _)⟩

theorem jump (sound : draft.Sound) (ready : draft.Ready current) {target : Nat}
    (positive : 0 < target) (bound : target < draft.size) (action : Action) (pos : Nat) :
    draft.Lowers current (none, draft.addEdge current target action pos) :=
  ⟨.addEdge .., sound.addEdge ready.bound positive bound ready.notExit, by simp⟩

theorem addReturn (sound : draft.Sound) (ready : draft.Ready current) (pos : Nat) :
    draft.Lowers current (none, draft.addReturn current pos) := by
  unfold Draft.addReturn
  split
  · rename_i exit found
    obtain ⟨positive, bound, _⟩ := sound.exit exit found
    exact jump sound ready positive bound _ _
  · rename_i noExit
    let exited : Draft := { draft.addNode.2 with exit := some draft.size }
    have fresh := sound.ready_addNode
    have exitedSound : exited.Sound := by
      refine ⟨sound.addNode.edges, ?_⟩
      rintro exit ⟨⟩
      exact ⟨Nat.zero_lt_of_lt ready.bound, fresh.bound, fresh.empty⟩
    have grows : draft.Grows current exited := by
      obtain ⟨size, edges, _, _⟩ := Grows.addNode current draft
      refine ⟨size, edges, ?_, ?_⟩
      · intro exit found
        rw [noExit] at found
        cases found
      · rintro exit ⟨⟩
        exact .inr (Nat.le_refl _)
    refine ⟨grows.trans (.addEdge ..) (.inl rfl), ?_, by simp⟩
    refine exitedSound.addEdge ?_ (Nat.zero_lt_of_lt ready.bound) fresh.bound ?_
    · exact Nat.lt_of_lt_of_le ready.bound grows.size
    · rintro ⟨⟩
      exact Nat.lt_irrefl _ ready.bound

end Lowers

/-- Two edges from one node to new nodes. -/
structure Forks (current : Nat) (before after : Draft) (left right : Nat) : Prop where
  grows : before.Grows current after
  sound : after.Sound
  leftReady : after.Ready left
  rightReady : after.Ready right
  leftFresh : before.size ≤ left
  rightFresh : before.size ≤ right
  different : left ≠ right
  positive : 0 < left ∧ 0 < right

theorem forks_extend {draft : Draft} {current : Nat} (sound : draft.Sound)
    (bound : current < draft.size) (notExit : draft.exit ≠ some current) (first second : Action)
    (pos : Nat) :
    draft.Forks current ((draft.extend current first pos).2.extend current second pos).2 draft.size
      (draft.size + 1) := by
  have once : (draft.extend current first pos).2.Sound := sound.extend bound notExit
  have size := size_extend draft current first pos
  have boundOnce : current < (draft.extend current first pos).2.size := by
    rw [size]
    exact Nat.lt_succ_of_lt bound
  constructor
  · exact (Grows.extend ..).trans (.extend ..) (.inl rfl)
  · exact once.extend boundOnce notExit
  · exact (Grows.extend ..).ready (sound.ready_extend bound) (Nat.ne_of_gt bound)
  · rw [← size]
    exact once.ready_extend boundOnce
  · exact Nat.le_refl _
  · exact Nat.le_succ _
  · exact Nat.ne_of_lt (Nat.lt_succ_self _)
  · omega

section Join

variable {draft forked afterLeft afterRight : Draft} {current left right : Nat}
  {leftEnd rightEnd : Option Nat}

section

variable (forks : draft.Forks current forked left right)

include forks

/-- Control of the first branch arrives at a new node, and not where the second one starts. -/
theorem Forks.left_ends (lowers : forked.Lowers left (leftEnd, afterLeft)) {node : Nat}
    (found : leftEnd = some node) : draft.size ≤ node ∧ node ≠ right := by
  rcases (lowers.finish node found).2 with rfl | fresh
  · exact ⟨forks.leftFresh, forks.different⟩
  · exact ⟨Nat.le_trans forks.grows.size fresh,
      fun same => absurd forks.rightReady.bound (by omega)⟩

/-- Control arrives where the second branch starts; the first one is led on to some earlier node. -/
theorem Forks.secondOpen (lowers : forked.Lowers left (leftEnd, afterLeft)) {target : Nat}
    (positive : 0 < target) (bound : target < forked.size) (description : String) :
    draft.Lowers current (some right, afterLeft.addBlankFrom leftEnd target description) := by
  have rightReady := lowers.grows.ready forks.rightReady forks.different.symm
  refine ⟨?_, ?_, ?_⟩
  · refine (forks.grows.trans lowers.grows (.inr forks.leftFresh)).addBlankFrom ?_ _ _
    exact fun node found => .inr (forks.left_ends lowers found).1
  · exact lowers.sound.addBlankFrom (fun node found => (lowers.finish node found).1)
      positive (Nat.lt_of_lt_of_le bound lowers.grows.size) _
  · rintro node ⟨⟩
    refine ⟨rightReady.addBlankFrom ?_ _ _, .inr forks.rightFresh⟩
    exact fun found => (forks.left_ends lowers found).2 rfl

/-- Control of both branches arrives at a new node, or nowhere. -/
theorem Forks.both (leftLowers : forked.Lowers left (leftEnd, afterLeft))
    (rightLowers : afterLeft.Lowers right (rightEnd, afterRight)) :
    draft.Grows current afterRight ∧ (∀ node, leftEnd = some node →
      afterRight.Ready node ∧ draft.size ≤ node) ∧
      (∀ node, rightEnd = some node → afterRight.Ready node ∧ draft.size ≤ node) ∧
      ∀ node, leftEnd = some node → rightEnd ≠ some node := by
  have leftGrows := forks.grows.trans leftLowers.grows (.inr forks.leftFresh)
  refine ⟨leftGrows.trans rightLowers.grows (.inr forks.rightFresh), ?_, ?_, ?_⟩
  · intro node found
    obtain ⟨fresh, different⟩ := forks.left_ends leftLowers found
    exact ⟨rightLowers.grows.ready (leftLowers.finish node found).1 different, fresh⟩
  · intro node found
    obtain ⟨ready, same | fresh⟩ := rightLowers.finish node found
    · exact ⟨ready, same ▸ forks.rightFresh⟩
    · exact ⟨ready, Nat.le_trans leftGrows.size fresh⟩
  · intro node leftFound rightFound
    have bound := (leftLowers.finish node leftFound).1.bound
    rcases (rightLowers.finish node rightFound).2 with same | fresh
    · exact (forks.left_ends leftLowers leftFound).2 same
    · exact absurd bound (Nat.not_lt.mpr fresh)

/-- Each branch can be led on to a new node where both meet. -/
theorem Forks.meet (leftLowers : forked.Lowers left (leftEnd, afterLeft))
    (rightLowers : afterLeft.Lowers right (rightEnd, afterRight)) :
    (∀ node, leftEnd = some node → afterRight.addNode.2.Ready node) ∧
      (afterRight.addNode.2.addBlankFrom leftEnd afterRight.size "endif").Sound ∧
      ∀ node, rightEnd = some node →
        (afterRight.addNode.2.addBlankFrom leftEnd afterRight.size "endif").Ready node := by
  obtain ⟨_, leftEnds, rightEnds, apart⟩ := forks.both leftLowers rightLowers
  have positive : 0 < afterRight.size := Nat.lt_of_lt_of_le
    (Nat.zero_lt_of_lt forks.leftReady.bound)
    (Nat.le_trans leftLowers.grows.size rightLowers.grows.size)
  have kept : ∀ node, afterRight.Ready node → afterRight.addNode.2.Ready node := by
    intro node ready
    exact (Grows.addNode afterRight.size afterRight).ready ready (Nat.ne_of_lt ready.bound)
  have leftReady : ∀ node, leftEnd = some node → afterRight.addNode.2.Ready node :=
    fun node found => kept node (leftEnds node found).1
  refine ⟨leftReady, ?_, ?_⟩
  · exact rightLowers.sound.addNode.addBlankFrom leftReady positive
      rightLowers.sound.ready_addNode.bound _
  · intro node found
    refine (kept node (rightEnds node found).1).addBlankFrom ?_ _ _
    exact fun leftFound => apart node leftFound found

theorem Forks.join (leftLowers : forked.Lowers left (leftEnd, afterLeft))
    (rightLowers : afterLeft.Lowers right (rightEnd, afterRight)) :
    draft.Lowers current (afterRight.join leftEnd rightEnd) := by
  obtain ⟨grows, leftEnds, rightEnds, _⟩ := forks.both leftLowers rightLowers
  obtain ⟨_, sound, rightReady⟩ := forks.meet leftLowers rightLowers
  unfold Draft.join
  split
  · exact ⟨grows, rightLowers.sound, by simp⟩
  have joinReady := rightLowers.sound.ready_addNode
  have positive : 0 < afterRight.size := Nat.lt_of_lt_of_le
    (Nat.zero_lt_of_lt forks.leftReady.bound)
    (Nat.le_trans leftLowers.grows.size rightLowers.grows.size)
  refine ⟨?_, ?_, ?_⟩
  · have added := grows.trans (.addNode current afterRight) (.inl rfl)
    have once : draft.Grows current
        (afterRight.addNode.2.addBlankFrom leftEnd afterRight.size "endif") :=
      added.addBlankFrom (fun node found => .inr (leftEnds node found).2) _ _
    exact once.addBlankFrom (fun node found => .inr (rightEnds node found).2) _ _
  · refine sound.addBlankFrom rightReady positive ?_ _
    rw [size_addBlankFrom]
    exact joinReady.bound
  · rintro node ⟨⟩
    refine ⟨(joinReady.addBlankFrom ?_ _ _).addBlankFrom ?_ _ _, .inr grows.size⟩
    · exact fun found => Nat.ne_of_lt (leftEnds _ found).1.bound rfl
    · exact fun found => Nat.ne_of_lt (rightEnds _ found).1.bound rfl

end

end Join

end Draft

end Reachability
