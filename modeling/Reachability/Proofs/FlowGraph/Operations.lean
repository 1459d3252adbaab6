import Mathlib
import Reachability.Proofs.FlowGraph.Nesting

/-!
# The operations of lowering

Lowering a statement is a sequence of a few operations on the draft: an edge to
a new node, two edges with opposite assumptions to new nodes, or an edge to a
node that exists.  Each of them starts at a node that has no edges, and edges
between nodes that exist lead to a node without edges or back to the head of a
loop.  What holds of a finished draft can be shown one
operation at a time.
-/

namespace Reachability

/-- The actions of the edges that a statement adds itself. -/
def Stmt.actions : Stmt → List Action
  | assign _ var value => [.assign var value]
  | call _ result callee args => [.call result callee args]
  | assume _ cond => [.assume cond true]
  | branch _ cond _ _ | loop _ cond _ => [.assume cond true, .assume cond false]
  | _ => []

/-- Every statement of a program adds edges with allowed actions only. -/
def Stmt.Permits (Allowed : Action → Prop) (program : Stmt) : Prop :=
  ∀ stmt ∈ program.all, ∀ action ∈ stmt.actions, Allowed action

namespace Stmt

variable {Allowed : Action → Prop} {span : Span} {cond : Expr}

theorem permits_block {body : List Stmt} :
    (block span body).Permits Allowed ↔ ∀ stmt ∈ body, stmt.Permits Allowed := by
  unfold Permits
  simp only [all, nested, if_true, List.forall_mem_cons, actions, List.not_mem_nil, false_imp_iff,
    implies_true, true_and]
  induction body with
  | nil => simp [nestedAll]
  | cons first rest induction =>
    simp only [nestedAll, List.forall_mem_append, List.forall_mem_cons, induction]

theorem permits_branch {yes no : Stmt} :
    (branch span cond yes no).Permits Allowed ↔
      (Allowed (.assume cond true) ∧ Allowed (.assume cond false)) ∧
        yes.Permits Allowed ∧ no.Permits Allowed := by
  unfold Permits
  simp only [all, nested, if_true, List.forall_mem_cons, List.forall_mem_append, actions,
    List.not_mem_nil, false_imp_iff, implies_true, and_true]

theorem permits_loop {body : Stmt} :
    (loop span cond body).Permits Allowed ↔
      (Allowed (.assume cond true) ∧ Allowed (.assume cond false)) ∧ body.Permits Allowed := by
  unfold Permits
  simp only [all, nested, if_true, List.forall_mem_cons, actions, List.not_mem_nil, false_imp_iff,
    implies_true, and_true]

theorem Permits.here {stmt : Stmt} (permits : stmt.Permits Allowed) :
    ∀ action ∈ stmt.actions, Allowed action := by
  cases stmt with
  | missing => simp [actions]
  | _ => exact permits _ (by simp [all, nested])

end Stmt

namespace Draft

/-- What lowering does to a draft at once. -/
inductive Operation (Allowed : Action → Prop) (before : Draft) : Draft → Prop where
  | label (node : Nat) (label : String) : Operation Allowed before (before.label node label)
  | extend {source pos : Nat} {action : Action} (ready : before.Ready source)
      (forward : action.isBack = false) (allowed : Allowed action) :
      Operation Allowed before (before.extend source action pos).2
  | fork {source pos : Nat} {cond : Expr} (ready : before.Ready source)
      (holds : Allowed (.assume cond true)) (fails : Allowed (.assume cond false)) :
      Operation Allowed before ((before.extend source (.assume cond true) pos).2.extend source
        (.assume cond false) pos).2
  | link {source target pos : Nat} {action : Action} (ready : before.Ready source)
      (positive : 0 < target) (bound : target < before.size) (apart : target ≠ source)
      (leads : before.Leads source target action) (allowed : Allowed action) :
      Operation Allowed before (before.addEdge source target action pos)
  | leave {source pos : Nat} (ready : before.Ready source) (allowed : Allowed (.blank "return")) :
      Operation Allowed before (before.addReturn source pos)

/-- A draft is made from another one by operations. -/
abbrev Arises (Allowed : Action → Prop) : Draft → Draft → Prop :=
  Relation.ReflTransGen (Operation Allowed)

section Leading

variable {Allowed : Action → Prop} {draft : Draft} {description : String}

theorem arises_addBlankFrom (blank : ∀ description, Allowed (.blank description))
    {finish : Option Nat} {target : Nat} (ready : ∀ node, finish = some node → draft.Ready node)
    (apart : ∀ node, finish = some node → target ≠ node) (positive : 0 < target)
    (bound : target < draft.size)
    (leads : ∀ node, finish = some node → draft.Leads node target (.blank description)) :
    Arises Allowed draft (draft.addBlankFrom finish target description) := by
  cases finish with
  | none => exact .refl
  | some node =>
    apply Relation.ReflTransGen.single
    exact .link (ready node rfl) positive bound (apart node rfl) (leads node rfl) (blank _)

theorem arises_join (blank : ∀ description, Allowed (.blank description)) (sound : draft.Sound)
    {first second : Option Nat} (firstReady : ∀ node, first = some node → draft.Ready node)
    (secondReady : ∀ node, second = some node → draft.Ready node)
    (different : ∀ node, first = some node → second ≠ some node) :
    Arises Allowed draft (draft.join first second).2 := by
  cases first with
  | none =>
    cases second with
    | none => exact .refl
    | some node => exact .single (.extend (secondReady node rfl) rfl (blank "endif"))
  | some node =>
    have creates : Operation Allowed draft
        (draft.addNode.2.addBlankFrom (some node) draft.size "endif") :=
      .extend (firstReady node rfl) rfl (blank "endif")
    apply Relation.ReflTransGen.head creates
    apply arises_addBlankFrom blank
    · intro other found
      have keeps : other ≠ node := fun same => different node rfl (same ▸ found)
      exact (Grows.extend draft node (.blank "endif") 0).ready (secondReady other found) keeps
    · intro other found
      exact Nat.ne_of_gt (secondReady other found).bound
    · exact Nat.zero_lt_of_lt (firstReady node rfl).bound
    · rw [size_addBlankFrom, size_addNode]
      exact Nat.lt_succ_self _
    · exact fun _ _ => .on rfl (sound.ready_extend (firstReady node rfl).bound).empty

theorem Passage.arises (blank : ∀ description, Allowed (.blank description)) {lenient : Prop}
    {targets : Option JumpTargets} {stmt : Stmt} {after : Draft} {current : Nat}
    {finish : Option Nat} (passage : Passage lenient targets stmt draft current finish after)
    (permits : stmt.Permits Allowed) (sound : draft.Sound) (opens : Opens targets draft current) :
    Arises Allowed draft after := by
  induction passage with
  | label text _ induction =>
    exact .head (.label _ text) (induction permits (sound.label _ text) (opens.label text))
  | blockEnd _ _ | stray _ _ => exact .refl
  | blockNext firstPassage _ first rest =>
    rw [Stmt.permits_block, List.forall_mem_cons] at permits
    have lowers := firstPassage.lowers
    have restOpens := opens.grown sound lowers.grows (lowers.finish _ rfl).2
    apply (first permits.1 sound opens).trans
    exact rest (Stmt.permits_block.mpr permits.2) lowers.sound restOpens
  | blockStop _ first =>
    rw [Stmt.permits_block, List.forall_mem_cons] at permits
    exact first permits.1 sound opens
  | @action _ stmt _ _ _ _ _ ready performs =>
    cases stmt with
    | assign | call | assume =>
      cases performs
      exact .single (.extend ready rfl (permits.here _ List.mem_cons_self))
    | skip =>
      cases performs
      exact .single (.extend ready rfl (blank _))
    | _ => cases performs
  | branchOpen forks ready yesPassage yes =>
    obtain ⟨⟨holds, fails⟩, yesPermits, _⟩ := Stmt.permits_branch.mp permits
    have yesLowers := yesPassage.lowers
    have noReady := yesLowers.grows.ready forks.rightReady forks.different.symm
    apply Relation.ReflTransGen.head (.fork ready holds fails)
    apply (yes yesPermits forks.sound (forks.opens_left sound opens)).trans
    apply arises_addBlankFrom blank (fun node found => (yesLowers.finish node found).1)
    · exact fun node found => (forks.left_ends yesLowers found).2.symm
    · exact forks.positive.2
    · exact noReady.bound
    · exact fun _ _ => .on rfl noReady.empty
  | branch forks ready _ yesPassage noPassage yes no =>
    obtain ⟨⟨holds, fails⟩, yesPermits, noPermits⟩ := Stmt.permits_branch.mp permits
    have yesLowers := yesPassage.lowers
    obtain ⟨_, yesEnds, noEnds, different⟩ := forks.both yesLowers noPassage.lowers
    apply Relation.ReflTransGen.head (.fork ready holds fails)
    apply (yes yesPermits forks.sound (forks.opens_left sound opens)).trans
    apply (no noPermits yesLowers.sound (forks.opens_right sound opens yesLowers)).trans
    exact arises_join blank noPassage.lowers.sound (fun node found => (yesEnds node found).1)
      (fun node found => (noEnds node found).1) different
  | @loop _ span cond _ _ _ _ _ _ ready bodyPassage body =>
    obtain ⟨⟨holds, fails⟩, bodyPermits⟩ := Stmt.permits_loop.mp permits
    obtain ⟨enters, forks⟩ := forks_loop sound ready cond span.pos
    have inner := opens_openLoop sound ready cond span.pos
    have bodyLowers := bodyPassage.lowers
    have larger := bodyLowers.grows.size
    rw [size_openLoop] at larger
    apply Relation.ReflTransGen.head (.extend ready rfl (blank "while"))
    apply Relation.ReflTransGen.head (.fork (enters.finish _ rfl).1 holds fails)
    apply (body bodyPermits forks.sound inner).trans
    apply arises_addBlankFrom blank (fun node found => (bodyLowers.finish node found).1)
    · intro node found same
      have own := (bodyLowers.finish _ found).2
      rw [size_openLoop] at own
      omega
    · exact Nat.zero_lt_of_lt ready.bound
    · omega
    · intro node found
      have ends := inner.grown forks.sound bodyLowers.grows (bodyLowers.finish node found).2
      exact .back rfl (ends _ rfl).2
  | ret _ ready => exact .single (.leave ready (blank _))
  | brk _ ready positive bound apart =>
    exact .single (.link ready positive bound apart (.on rfl (opens _ rfl).1.1.empty) (blank _))
  | cont _ ready positive bound apart =>
    exact .single (.link ready positive bound apart (.back rfl (opens _ rfl).2) (blank _))

end Leading

end Draft

namespace FlowGraph

/-- The action of an edge is that of a statement, unless it is blank. -/
def Stems (program : Stmt) (action : Action) : Prop :=
  (∃ description, action = .blank description) ∨
    ∃ stmt ∈ program.all, action ∈ stmt.actions

theorem finished_arises (program : Stmt) :
    Draft.Arises (Stems program) ({} : Draft).addNode.2
      (finished (lowering program).1 (lowering program).2) := by
  have blank : ∀ description, Stems program (.blank description) :=
    fun description => .inl ⟨description, rfl⟩
  have permits : program.Permits (Stems program) :=
    fun stmt member action isAction => .inr ⟨stmt, member, isAction⟩
  have arises : Draft.Arises (Stems program) ({} : Draft).addNode.2 (lowering program).2 :=
    (passage_lowering (.inl trivial)).arises blank permits Draft.sound_empty.addNode
      (by simp [Draft.Opens])
  have lowers := lowering_lowers program
  apply Relation.ReflTransGen.trans arises
  unfold finished
  split
  · rename_i last exit isLast isExit
    obtain ⟨ready, _⟩ := lowers.finish last isLast
    obtain ⟨positive, bound, empty⟩ := lowers.sound.exit exit isExit
    apply Relation.ReflTransGen.single
    apply Draft.Operation.link ready positive bound _ (.on rfl empty) (blank "return")
    rintro rfl
    exact ready.notExit isExit
  · exact .refl

end FlowGraph

end Reachability
