import Mathlib
import Reachability.Proofs.FlowGraph.Encoding
import Reachability.Proofs.FlowGraph.Nesting
import Reachability.Proofs.FlowGraph.Origins

/-!
# Heads of loops

The heads of the live loops of a program are numbered in the order of the
statements.  An edge leads back to the head of a loop if control can get to the
end of its body or to a jump back, and to no other node.
-/

namespace Reachability

namespace Stmt

mutual

/-- Whether control can get to a jump back to the head of the loop around a statement. -/
def continues : Stmt → Bool
  | block _ body => anyContinues body
  | branch _ _ yes no => continues yes || continues no
  | cont _ => true
  | _ => false

def anyContinues : List Stmt → Bool
  | [] => false
  | first :: rest => continues first || fallsThrough first && anyContinues rest

end

/-- A loop whose body can come back to the condition. -/
def comesBack : Stmt → Bool
  | loop _ _ body => body.fallsThrough || body.continues
  | _ => false

end Stmt

namespace Draft

/-- Some edge leads back to a node. -/
def Returned (draft : Draft) (node : Nat) : Prop :=
  ∃ edge ∈ draft.edges, edge.isBack = true ∧ edge.target = node

section Returned

variable {draft after : Draft} {source target pos node : Nat} {action : Action} {cond : Expr}
  {finish : Option Nat}

theorem returned_addEdge :
    (draft.addEdge source target action pos).Returned node ↔
      draft.Returned node ∨ action.isBack = true ∧ target = node := by
  unfold Returned
  simp only [mem_edges_addEdge, or_and_right, exists_or, exists_eq_left]
  rfl

theorem returned_addEdge_forward (forward : action.isBack = false) :
    (draft.addEdge source target action pos).Returned node ↔ draft.Returned node := by
  rw [returned_addEdge, forward]
  simp

theorem returned_extend (forward : action.isBack = false) :
    (draft.extend source action pos).2.Returned node ↔ draft.Returned node :=
  returned_addEdge_forward forward

theorem returned_fork : (draft.fork source cond pos).Returned node ↔ draft.Returned node :=
  (returned_extend rfl).trans (returned_extend rfl)

theorem returned_openLoop : (draft.openLoop source cond pos).Returned node ↔ draft.Returned node :=
  returned_fork.trans (returned_extend rfl)

theorem returned_addBlankFrom {description : String} :
    (draft.addBlankFrom finish target description).Returned node ↔ draft.Returned node ∨
      finish.isSome = true ∧ (Action.blank description).isBack = true ∧ target = node := by
  cases finish with
  | none => simp [addBlankFrom]
  | some last => simp [addBlankFrom, returned_addEdge]

theorem returned_endif :
    (draft.addBlankFrom finish target "endif").Returned node ↔ draft.Returned node := by
  rw [returned_addBlankFrom]
  simp [Action.isBack]

theorem returned_join {first second : Option Nat} :
    (draft.join first second).2.Returned node ↔ draft.Returned node := by
  unfold join
  split
  · rfl
  · exact returned_endif.trans returned_endif

theorem size_le_join {first second : Option Nat} :
    draft.size ≤ (draft.join first second).2.size := by
  unfold join
  split
  · exact Nat.le_refl _
  · rw [size_addBlankFrom, size_addBlankFrom, size_addNode]
    exact Nat.le_succ _

theorem returned_addReturn :
    (draft.addReturn source pos).Returned node ↔ draft.Returned node := by
  unfold addReturn
  cases draft.exit with
  | some exit | none => exact returned_addEdge_forward rfl

theorem returned_label {text : String} :
    (draft.label source text).Returned node ↔ draft.Returned node := by
  unfold Returned
  rw [(draft.size_label source text).2.1]

theorem lt_size_fork (old : node < draft.size) : node < (draft.fork source cond pos).size := by
  rw [size_fork]
  exact Nat.lt_add_right 2 old

theorem lt_size_openLoop (old : node < draft.size) :
    node < (draft.openLoop source cond pos).size := by
  rw [size_openLoop]
  exact Nat.lt_add_right 3 old

theorem Sound.not_returned (sound : draft.Sound) (outside : draft.size ≤ node) :
    ¬draft.Returned node := by
  rintro ⟨edge, member, _, rfl⟩
  exact absurd (sound.edges edge member).2.2 (Nat.not_lt.mpr outside)

/-- Edges that a statement adds lead back to a node that was there before only if it is the head of
the loop around the statement, and the statement continues that loop. -/
theorem Passage.returned_iff {targets : Option JumpTargets} {stmt : Stmt} {current : Nat}
    (passage : Passage False targets stmt draft current finish after) (old : node < draft.size) :
    after.Returned node ↔ draft.Returned node ∨
      stmt.continues = true ∧ ∃ jumps, targets = some jumps ∧ jumps.header = node := by
  induction passage with
  | @label _ _ draft _ current _ text _ induction =>
    rw [induction (by rwa [(draft.size_label current text).1]), returned_label]
  | blockEnd _ _ => simp [Stmt.continues, Stmt.anyContinues]
  | blockNext firstPassage _ first rest =>
    have falls := firstPassage.arrives
    rw [rest (Nat.lt_of_lt_of_le old firstPassage.lowers.grows.size), first old]
    simp only [Stmt.continues, Stmt.anyContinues, ← falls, Option.isSome_some, Bool.true_and,
      Bool.or_eq_true, or_and_right, or_assoc]
  | blockStop firstPassage first =>
    have stops := firstPassage.arrives
    rw [first old]
    simp only [Stmt.continues, Stmt.anyContinues, ← stops, Option.isSome_none, Bool.false_and,
      Bool.or_false]
  | @action _ stmt action _ _ _ _ _ performs =>
    cases stmt with
    | assign | call | assume | skip =>
      cases performs
      rw [returned_extend rfl]
      simp [Stmt.continues]
    | _ => cases performs
  | branchOpen _ _ _ yes =>
    rw [returned_endif, yes (lt_size_fork old), returned_fork]
    simp [Stmt.continues]
  | branch _ _ _ yesPassage _ yes no =>
    have between := Nat.lt_of_lt_of_le (lt_size_fork old) yesPassage.lowers.grows.size
    rw [returned_join, no between, yes (lt_size_fork old), returned_fork]
    simp only [Stmt.continues, Bool.or_eq_true, or_and_right, or_assoc]
  | @loop _ _ _ _ draft _ _ _ _ _ _ body =>
    have apart : draft.size ≠ node := Nat.ne_of_gt old
    rw [returned_addBlankFrom, body (lt_size_openLoop old), returned_openLoop]
    simp [Stmt.continues, apart]
  | ret _ _ =>
    rw [returned_addReturn]
    simp [Stmt.continues]
  | brk _ _ _ _ _ =>
    rw [returned_addEdge_forward rfl]
    simp [Stmt.continues]
  | cont _ _ _ _ _ =>
    rw [returned_addEdge]
    simp [Stmt.continues, Action.isBack]
  | stray _ admitted => exact admitted.elim

end Returned

end Draft

/-- A node is the head of a loop: its edges lead into the body or out of the loop, jumps in the body
lead back there or out, and so does the end of the body lead back. -/
def FlowGraph.HeadOf (graph : FlowGraph) (head : Nat) : Stmt → Prop
  | .loop _ cond body => ∃ inside outside finish, graph.Branches head cond inside outside ∧
      graph.Encodes (some { header := head, exit := outside }) body inside finish ∧
      graph.LedOn finish (some head)
  | _ => False

namespace Draft

/-- The heads of loops that have been added to a draft, and which of them some edge leads back
to. -/
structure Heads (graph : FlowGraph) (targets : Option JumpTargets) (before after : Draft)
    (heads : List Nat) (loops : List Stmt) : Prop where
  increasing : heads.Pairwise (· < ·)
  fresh : ∀ head ∈ heads, before.size ≤ head ∧ head < after.size
  tied : List.Forall₂ (fun head stmt => graph.HeadOf head stmt ∧
    (after.Returned head ↔ stmt.comesBack = true)) heads loops
  complete : ∀ node, after.Returned node → node ∈ heads ∨ before.Returned node ∨
    ∃ jumps, targets = some jumps ∧ jumps.header = node

namespace Heads

variable {graph : FlowGraph} {targets : Option JumpTargets}
  {before inner between after later : Draft} {heads more : List Nat} {loops others : List Stmt}

theorem none (same : ∀ node, after.Returned node → before.Returned node ∨
    ∃ jumps, targets = some jumps ∧ jumps.header = node) :
    Heads graph targets before after [] [] where
  increasing := .nil
  fresh := fun _ impossible => absurd impossible List.not_mem_nil
  tied := .nil
  complete := fun node returned => .inr (same node returned)

theorem tied_of_keeps (added : Heads graph targets before after heads loops)
    (keeps : ∀ head ∈ heads, (later.Returned head ↔ after.Returned head)) :
    List.Forall₂ (fun head stmt => graph.HeadOf head stmt ∧
      (later.Returned head ↔ stmt.comesBack = true)) heads loops := by
  apply ((List.forall₂_and_left _ _).mpr ⟨keeps, added.tied⟩).imp
  rintro head stmt ⟨keep, headOf, comes⟩
  exact ⟨headOf, keep.trans comes⟩

theorem after_plain (added : Heads graph targets inner after heads loops)
    (size : before.size ≤ inner.size) (same : ∀ node, inner.Returned node → before.Returned node) :
    Heads graph targets before after heads loops := by
  refine { added with fresh := ?_, complete := ?_ }
  · intro head member
    obtain ⟨new, bound⟩ := added.fresh head member
    exact ⟨Nat.le_trans size new, bound⟩
  · intro node returned
    rcases added.complete node returned with member | early | jumps
    · exact .inl member
    · exact .inr (.inl (same node early))
    · exact .inr (.inr jumps)

theorem before_plain (added : Heads graph targets before after heads loops)
    (size : after.size ≤ later.size) (same : ∀ node, later.Returned node ↔ after.Returned node) :
    Heads graph targets before later heads loops := by
  refine { added with fresh := ?_, tied := ?_, complete := ?_ }
  · intro head member
    obtain ⟨new, bound⟩ := added.fresh head member
    exact ⟨new, Nat.lt_of_lt_of_le bound size⟩
  · exact added.tied_of_keeps fun head _ => same head
  · simp only [same]
    exact added.complete

theorem append {stmt : Stmt} {current : Nat} {finish : Option Nat}
    (first : Heads graph targets before between heads loops)
    (second : Heads graph targets between after more others)
    (passage : Passage False targets stmt between current finish after)
    (size : before.size ≤ between.size) (within : JumpTargets.Within targets before.size) :
    Heads graph targets before after (heads ++ more) (loops ++ others) := by
  have grows := passage.lowers.grows.size
  have keeps : ∀ head ∈ heads, (after.Returned head ↔ between.Returned head) := by
    intro head member
    obtain ⟨new, bound⟩ := first.fresh head member
    rw [passage.returned_iff bound]
    apply or_iff_left
    rintro ⟨_, jumps, inside, isHead⟩
    exact absurd (within jumps inside).1.2 (Nat.not_lt.mpr (isHead ▸ new))
  constructor
  · apply List.pairwise_append.mpr
    refine ⟨first.increasing, second.increasing, ?_⟩
    intro head isHead other isOther
    exact Nat.lt_of_lt_of_le (first.fresh head isHead).2 (second.fresh other isOther).1
  · intro head member
    rcases List.mem_append.mp member with early | late
    · obtain ⟨new, bound⟩ := first.fresh head early
      exact ⟨new, Nat.lt_of_lt_of_le bound grows⟩
    · obtain ⟨new, bound⟩ := second.fresh head late
      exact ⟨Nat.le_trans size new, bound⟩
  · exact List.rel_append (first.tied_of_keeps keeps) second.tied
  · intro node returned
    rcases second.complete node returned with late | early | jumps
    · exact .inl (List.mem_append_right _ late)
    · rcases first.complete node early with member | old | jumps
      · exact .inl (List.mem_append_left _ member)
      · exact .inr (.inl old)
      · exact .inr (.inr jumps)
    · exact .inr (.inr jumps)

end Heads

section Passage

variable {graph : FlowGraph} {targets : Option JumpTargets} {draft after : Draft} {current : Nat}
  {finish : Option Nat}

/-- A loop adds its head before the heads of the loops in its body. -/
theorem Heads.loop {span : Span} {cond : Expr} {body : Stmt} {heads : List Nat}
    (sound : draft.Sound)
    (passage : Passage False (some { header := draft.size, exit := draft.size + 2 }) body
      (draft.openLoop current cond span.pos) (draft.size + 1) finish after)
    (added : Heads graph (some { header := draft.size, exit := draft.size + 2 })
      (draft.openLoop current cond span.pos) after heads (body.live.filter Stmt.isLoop))
    (headOf : graph.HeadOf draft.size (.loop span cond body)) :
    Heads graph targets draft (after.addBlankFrom finish draft.size "loop") (draft.size :: heads)
      ((Stmt.loop span cond body).live.filter Stmt.isLoop) := by
  have size := size_openLoop draft current cond span.pos
  have grows : (draft.openLoop current cond span.pos).size ≤ after.size := passage.lowers.grows.size
  have behind : ∀ head ∈ heads, draft.size < head := by
    intro head member
    have new := (added.fresh head member).1
    omega
  have elsewhere : ∀ node, draft.size ≠ node →
      ((after.addBlankFrom finish draft.size "loop").Returned node ↔ after.Returned node) := by
    intro node apart
    rw [returned_addBlankFrom]
    simp [apart]
  have comesBack : (after.addBlankFrom finish draft.size "loop").Returned draft.size ↔
      (Stmt.loop span cond body).comesBack = true := by
    have inside : draft.size < (draft.openLoop current cond span.pos).size := by omega
    rw [returned_addBlankFrom, passage.returned_iff inside, returned_openLoop, passage.arrives]
    simp [sound.not_returned (Nat.le_refl _), Stmt.comesBack, Action.isBack, or_comm]
  constructor
  · exact List.pairwise_cons.mpr ⟨behind, added.increasing⟩
  · rw [size_addBlankFrom, List.forall_mem_cons]
    refine ⟨⟨Nat.le_refl _, by omega⟩, ?_⟩
    intro head member
    exact ⟨Nat.le_of_lt (behind head member), (added.fresh head member).2⟩
  · simp only [Stmt.live, List.filter_cons, Stmt.isLoop, if_true]
    refine .cons ⟨headOf, comesBack⟩ (added.tied_of_keeps ?_)
    exact fun head member => elsewhere head (Nat.ne_of_lt (behind head member))
  · intro node returned
    by_cases isHead : draft.size = node
    · rw [← isHead]
      exact .inl List.mem_cons_self
    · rcases added.complete node ((elsewhere node isHead).mp returned) with member | early | jumps
      · exact .inl (List.mem_cons_of_mem _ member)
      · exact .inr (.inl (returned_openLoop.mp early))
      · obtain ⟨_, isInner, same⟩ := jumps
        cases isInner
        exact absurd same isHead

theorem Passage.exists_heads {stmt : Stmt}
    (passage : Passage False targets stmt draft current finish after)
    (within : JumpTargets.Within targets draft.size) (persists : after.Persists graph) :
    ∃ heads, Heads graph targets draft after heads (stmt.live.filter Stmt.isLoop) := by
  induction passage with
  | @label _ _ draft _ current _ text _ induction =>
    have size := (draft.size_label current text).1
    obtain ⟨heads, added⟩ := induction (by rwa [size]) persists
    exact ⟨heads, added.after_plain (Nat.le_of_eq size.symm) fun _ => returned_label.mp⟩
  | blockEnd _ _ => exact ⟨[], .none fun _ returned => .inl returned⟩
  | @blockNext _ _ firstStmt rest _ _ _ _ _ _ firstPassage restPassage first rest =>
    have lowers := firstPassage.lowers
    obtain ⟨heads, firstHeads⟩ := first within
      (persists.of_lowers restPassage.lowers lowers.sound (lowers.finish _ rfl).1)
    obtain ⟨more, restHeads⟩ := rest (within.mono lowers.grows.size) persists
    refine ⟨heads ++ more, ?_⟩
    simp only [Stmt.live, Stmt.liveAll, ← firstPassage.arrives, Option.isSome_some, if_true,
      List.filter_append]
    exact firstHeads.append restHeads restPassage lowers.grows.size within
  | blockStop firstPassage first =>
    obtain ⟨heads, firstHeads⟩ := first within persists
    refine ⟨heads, ?_⟩
    simp only [Stmt.live, Stmt.liveAll, ← firstPassage.arrives, Option.isSome_none,
      Bool.false_eq_true, if_false, List.append_nil]
    exact firstHeads
  | @action _ stmt action _ _ _ _ _ performs =>
    cases stmt with
    | assign | call | assume | skip =>
      cases performs
      exact ⟨[], .none fun _ returned => .inl ((returned_extend rfl).mp returned)⟩
    | _ => cases performs
  | branchOpen forks _ yesPassage yes =>
    have yesLowers := yesPassage.lowers
    have yesPersists := (persists.ledOn yesLowers.sound
      fun node found => (yesLowers.finish node found).1).1
    obtain ⟨heads, yesHeads⟩ := yes (within.mono forks.grows.size) yesPersists
    refine ⟨heads, ?_⟩
    simp only [Stmt.live, List.append_nil, List.filter_cons, Stmt.isLoop, Bool.false_eq_true,
      if_false]
    have added := yesHeads.after_plain forks.grows.size fun _ => returned_fork.mp
    apply added.before_plain _ fun _ => returned_endif
    rw [size_addBlankFrom]
  | branch forks _ _ yesPassage noPassage yes no =>
    have yesLowers := yesPassage.lowers
    have yesWithin := within.mono forks.grows.size
    obtain ⟨⟨yesPersists, _⟩, noPersists, _⟩ :=
      forks.persists_join yesLowers noPassage.lowers persists
    obtain ⟨heads, yesHeads⟩ := yes yesWithin yesPersists
    obtain ⟨more, noHeads⟩ := no (yesWithin.mono yesLowers.grows.size) noPersists
    refine ⟨heads ++ more, ?_⟩
    simp only [Stmt.live, List.filter_cons, Stmt.isLoop, Bool.false_eq_true, if_false,
      List.filter_append]
    have both := yesHeads.append noHeads noPassage yesLowers.grows.size yesWithin
    have added := both.after_plain forks.grows.size fun _ => returned_fork.mp
    exact added.before_plain size_le_join fun _ => returned_join
  | @loop _ span cond _ draft _ current _ sound ready passage body =>
    obtain ⟨enters, forks⟩ := forks_loop sound ready cond span.pos
    have lowers := passage.lowers
    obtain ⟨bodyPersists, bodyLed⟩ := persists.ledOn lowers.sound
      fun node found => (lowers.finish node found).1
    have inside := JumpTargets.within_some (Nat.zero_lt_of_lt ready.bound)
      (Nat.lt_of_lt_of_le (enters.finish _ rfl).1.bound forks.grows.size) forks.positive.2
      forks.rightReady.bound
    obtain ⟨heads, bodyHeads⟩ := body inside bodyPersists
    refine ⟨draft.size :: heads, bodyHeads.loop sound passage ?_⟩
    have forkPersists := bodyPersists.of_lowers lowers forks.sound forks.leftReady
    have branches := forkPersists.branches (enters.finish _ rfl).1.empty
    rw [size_extend] at branches
    exact ⟨_, _, _, branches, passage.encodes bodyPersists, bodyLed⟩
  | ret _ _ => exact ⟨[], .none fun _ returned => .inl (returned_addReturn.mp returned)⟩
  | brk _ _ _ _ _ =>
    exact ⟨[], .none fun _ returned => .inl ((returned_addEdge_forward rfl).mp returned)⟩
  | cont _ _ _ _ _ =>
    refine ⟨[], .none fun node returned => ?_⟩
    rcases returned_addEdge.mp returned with early | ⟨_, isHead⟩
    · exact .inl early
    · exact .inr ⟨_, rfl, isHead⟩
  | stray _ admitted => exact admitted.elim

end Passage

end Draft

end Reachability
