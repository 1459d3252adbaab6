import Mathlib
import Reachability.Proofs.FlowGraph.Lowering

/-!
# Passages through a draft

`Draft.Passage` relates a statement to what its lowering adds to a draft: where
control is before and after it, and how the parts of a statement are laid one
after the other.  Properties of the graph that depend on the order in which it is
made are shown by induction on passages.  What explorations rely on is collected
in `FlowGraph.Simple`: no edge leads to the entry, no edge is a loop, and there
is at most one edge between two nodes.
-/

namespace Reachability

/-- The action of a statement that becomes a single edge. -/
def Stmt.action? : Stmt → Option Action
  | assign _ var value => some (.assign var value)
  | call _ result callee args => some (.call result callee args)
  | assume _ cond => some (.assume cond true)
  | skip _ => some (.blank "skip")
  | _ => none

namespace Draft

/-- Two edges with opposite assumptions to new nodes. -/
def fork (draft : Draft) (source : Nat) (cond : Expr) (pos : Nat) : Draft :=
  ((draft.extend source (.assume cond true) pos).2.extend source (.assume cond false) pos).2

/-- The head of a loop and the two ways that lead on from there, into the body and out of the
loop. -/
def openLoop (draft : Draft) (current : Nat) (cond : Expr) (pos : Nat) : Draft :=
  (draft.extend current (.blank "while") pos).2.fork draft.size cond pos

/-- A statement leads control through a draft, from a node to another one if it falls through.
Jumps lead to the given targets.  Statements that have no lowering are left out, if that is
admitted. -/
inductive Passage (lenient : Prop) :
    Option JumpTargets → Stmt → Draft → Nat → Option Nat → Draft → Prop where
  | label {targets : Option JumpTargets} {stmt : Stmt} {draft after : Draft} {current : Nat}
      {finish : Option Nat} (text : String) :
      Passage lenient targets stmt (draft.label current text) current finish after →
      Passage lenient targets stmt draft current finish after
  | blockEnd {targets : Option JumpTargets} {span : Span} {draft : Draft} {current : Nat}
      (sound : draft.Sound) (ready : draft.Ready current) :
      Passage lenient targets (.block span []) draft current (some current) draft
  | blockNext {targets : Option JumpTargets} {span : Span} {first : Stmt} {rest : List Stmt}
      {draft between after : Draft} {current middle : Nat} {finish : Option Nat} :
      Passage lenient targets first draft current (some middle) between →
      Passage lenient targets (.block span rest) between middle finish after →
      Passage lenient targets (.block span (first :: rest)) draft current finish after
  | blockStop {targets : Option JumpTargets} {span : Span} {first : Stmt} {rest : List Stmt}
      {draft after : Draft} {current : Nat} :
      Passage lenient targets first draft current none after →
      Passage lenient targets (.block span (first :: rest)) draft current none after
  | action {targets : Option JumpTargets} {stmt : Stmt} {action : Action} {draft : Draft}
      {current pos : Nat} (sound : draft.Sound) (ready : draft.Ready current)
      (performs : stmt.action? = some action) :
      Passage lenient targets stmt draft current (some draft.size)
        (draft.extend current action pos).2
  | branchOpen {targets : Option JumpTargets} {span : Span} {cond : Expr} {yes : Stmt}
      {draft after : Draft} {current : Nat} {yesEnd : Option Nat}
      (forks : draft.Forks current (draft.fork current cond span.pos) draft.size (draft.size + 1))
      (ready : draft.Ready current) :
      Passage lenient targets yes (draft.fork current cond span.pos) draft.size yesEnd after →
      Passage lenient targets (.branch span cond yes .missing) draft current (some (draft.size + 1))
        (after.addBlankFrom yesEnd (draft.size + 1) "endif")
  | branch {targets : Option JumpTargets} {span : Span} {cond : Expr} {yes no : Stmt}
      {draft afterYes afterNo : Draft} {current : Nat} {yesEnd noEnd : Option Nat}
      (forks : draft.Forks current (draft.fork current cond span.pos) draft.size (draft.size + 1))
      (ready : draft.Ready current) (present : no.isMissing = false) :
      Passage lenient targets yes (draft.fork current cond span.pos) draft.size yesEnd afterYes →
      Passage lenient targets no afterYes (draft.size + 1) noEnd afterNo →
      Passage lenient targets (.branch span cond yes no) draft current
        (afterNo.join yesEnd noEnd).1 (afterNo.join yesEnd noEnd).2
  | loop {targets : Option JumpTargets} {span : Span} {cond : Expr} {body : Stmt}
      {draft after : Draft} {current : Nat} {bodyEnd : Option Nat} (sound : draft.Sound)
      (ready : draft.Ready current) :
      Passage lenient (some { header := draft.size, exit := draft.size + 2 }) body
        (draft.openLoop current cond span.pos) (draft.size + 1) bodyEnd after →
      Passage lenient targets (.loop span cond body) draft current (some (draft.size + 2))
        (after.addBlankFrom bodyEnd draft.size "loop")
  | ret {targets : Option JumpTargets} {span : Span} {draft : Draft} {current pos : Nat}
      (sound : draft.Sound) (ready : draft.Ready current) :
      Passage lenient targets (.ret span) draft current none (draft.addReturn current pos)
  | brk {targets : JumpTargets} {span : Span} {draft : Draft} {current pos : Nat}
      (sound : draft.Sound) (ready : draft.Ready current) (positive : 0 < targets.exit)
      (bound : targets.exit < draft.size) (apart : targets.exit ≠ current) :
      Passage lenient (some targets) (.brk span) draft current none
        (draft.addEdge current targets.exit (.blank "break") pos)
  | cont {targets : JumpTargets} {span : Span} {draft : Draft} {current pos : Nat}
      (sound : draft.Sound) (ready : draft.Ready current) (positive : 0 < targets.header)
      (bound : targets.header < draft.size) (apart : targets.header ≠ current) :
      Passage lenient (some targets) (.cont span) draft current none
        (draft.addEdge current targets.header (.blank "continue") pos)
  | stray {targets : Option JumpTargets} {stmt : Stmt} {draft : Draft} {current : Nat}
      (sound : draft.Sound) (admitted : lenient) :
      Passage lenient targets stmt draft current none draft

section Forks

variable {draft : Draft} {current : Nat}

theorem size_fork (draft : Draft) (current : Nat) (cond : Expr) (pos : Nat) :
    (draft.fork current cond pos).size = draft.size + 2 := by
  unfold fork
  rw [size_extend, size_extend]

theorem edges_fork (draft : Draft) (source : Nat) (cond : Expr) (pos : Nat) :
    (draft.fork source cond pos).edges = draft.edges ++
      [{ id := draft.edges.length, source, target := draft.size, action := .assume cond true, pos },
        { id := draft.edges.length + 1, source, target := draft.size + 1,
          action := .assume cond false, pos }] := by
  simp [fork, extend, addNode, addEdge, Network.addNode, Network.addEdge, size]

theorem size_openLoop (draft : Draft) (current : Nat) (cond : Expr) (pos : Nat) :
    (draft.openLoop current cond pos).size = draft.size + 3 := by
  unfold openLoop
  rw [size_fork, size_extend]

theorem forks_fork (sound : draft.Sound) (ready : draft.Ready current) (cond : Expr) (pos : Nat) :
    draft.Forks current (draft.fork current cond pos) draft.size (draft.size + 1) :=
  forks_extend sound ready.bound ready.notExit _ _ _

theorem forks_loop (sound : draft.Sound) (ready : draft.Ready current) (cond : Expr) (pos : Nat) :
    draft.Lowers current (some draft.size, (draft.extend current (.blank "while") pos).2) ∧
      (draft.extend current (.blank "while") pos).2.Forks draft.size
        (draft.openLoop current cond pos) (draft.size + 1) (draft.size + 2) := by
  have enters := Lowers.extend sound ready (.blank "while") pos
  refine ⟨enters, ?_⟩
  have forks := forks_fork enters.sound (enters.finish _ rfl).1 cond pos
  rw [size_extend] at forks
  exact forks

end Forks

namespace Passage

variable {lenient : Prop} {targets : Option JumpTargets} {stmt : Stmt} {draft after : Draft}
  {current : Nat} {finish : Option Nat}

theorem lowers (passage : Passage lenient targets stmt draft current finish after) :
    draft.Lowers current (finish, after) := by
  induction passage with
  | label text _ induction => exact induction.of_label text
  | blockEnd sound ready => exact .refl sound ready
  | blockNext _ _ first rest => exact first.trans rest
  | blockStop _ first => exact first
  | action sound ready _ => exact .extend sound ready _ _
  | branchOpen forks _ _ yes => exact forks.secondOpen yes forks.positive.2 forks.rightReady.bound _
  | branch forks _ _ _ _ yes no => exact forks.join yes no
  | loop sound ready _ body =>
    obtain ⟨enters, forks⟩ := forks_loop sound ready _ _
    apply enters.trans
    apply forks.secondOpen body (Nat.zero_lt_of_lt ready.bound)
    rw [size_openLoop]
    omega
  | ret sound ready => exact .addReturn sound ready _
  | brk sound ready positive bound _
  | cont sound ready positive bound _ => exact .jump sound ready positive bound _ _
  | stray sound _ => exact ⟨.refl .., sound, by simp⟩

theorem isSome_join (draft : Draft) (first second : Option Nat) :
    (draft.join first second).1.isSome = (first.isSome || second.isSome) := by
  cases first <;> cases second <;> rfl

theorem arrives (passage : Passage False targets stmt draft current finish after) :
    finish.isSome = stmt.fallsThrough := by
  induction passage with
  | label _ _ induction => exact induction
  | blockEnd _ _ => rfl
  | blockNext _ _ first rest =>
    simp only [Stmt.fallsThrough, Stmt.allFallThrough, ← first, Option.isSome_some, Bool.true_and]
    exact rest
  | blockStop _ first => simp [Stmt.fallsThrough, Stmt.allFallThrough, ← first]
  | @action _ stmt action _ _ _ _ _ performs =>
    cases stmt with
    | assign | call | assume | skip => rfl
    | _ => cases performs
  | branchOpen _ _ _ _ => rfl
  | branch _ _ present _ _ yes no =>
    rw [isSome_join, yes, no, Stmt.fallsThrough, present, Bool.false_or]
  | loop _ _ _ _ => rfl
  | ret _ _ => rfl
  | brk _ _ _ _ _ => rfl
  | cont _ _ _ _ _ => rfl
  | stray _ admitted => exact admitted.elim

end Passage

end Draft

theorem Survey.error_andThen {first second : Survey} :
    (first.andThen second).error = none ↔ first.error = none ∧ second.error = none := by
  unfold andThen
  cases found : first.error <;> simp [found]

theorem Survey.error_ofDefect {stmt : Stmt} {defect : Option Defect} :
    (ofDefect stmt defect).error = none ↔ defect = none := by
  simp [ofDefect]

namespace Stmt

open Draft

mutual

/-- Lowering a statement leads control through the draft.  An accepted one is not left out. -/
theorem lower_passage (stmt : Stmt) {lenient : Prop} {targets : Option JumpTargets} {current : Nat}
    {draft : Draft} (accepted : lenient ∨ (stmt.survey targets.isSome).error = none)
    (sound : draft.Sound) (ready : draft.Ready current)
    (within : JumpTargets.Within targets draft.size)
    (apart : JumpTargets.Apart targets current) :
    Passage lenient targets stmt draft current (stmt.lower targets current draft).1
      (stmt.lower targets current draft).2 := by
  apply Passage.label stmt.span.label
  replace within : JumpTargets.Within targets (draft.label current stmt.span.label).size := by
    rw [(draft.size_label ..).1]
    exact within
  replace sound := sound.label current stmt.span.label
  replace ready := ready.label current stmt.span.label
  cases stmt with
  | block span body =>
    simp only [lower]
    simp only [survey] at accepted
    exact lowerAll_passage body span accepted sound ready within apart
  | assign | call | assume | skip =>
    simp only [lower]
    exact .action sound ready rfl
  | branch span cond yes no =>
    simp only [survey, Survey.error_andThen, or_and_left] at accepted
    obtain ⟨_, yesAccepted, noAccepted⟩ := accepted
    simp only [lower, extend_node, size_extend]
    have forks := forks_fork sound ready cond span.pos
    have yesWithin := within.mono forks.grows.size
    have yesPassage := lower_passage yes yesAccepted forks.sound forks.leftReady yesWithin
      (within.apart forks.leftFresh)
    have yesLowers := yesPassage.lowers
    unfold fork at yesPassage yesLowers
    cases yesResult : yes.lower targets _ _ with
    | mk yesEnd afterYes =>
      rw [yesResult] at yesPassage yesLowers
      dsimp only
      by_cases missing : no.isMissing = true
      · rw [if_pos missing]
        cases no with
        | missing => exact .branchOpen forks ready yesPassage
        | _ => cases missing
      · rw [if_neg missing] at noAccepted ⊢
        rw [Bool.not_eq_true] at missing
        have noReady := yesLowers.grows.ready forks.rightReady forks.different.symm
        have noPassage := lower_passage no noAccepted yesLowers.sound noReady
          (yesWithin.mono yesLowers.grows.size) (within.apart forks.rightFresh)
        cases noResult : no.lower targets _ afterYes with
        | mk noEnd afterNo =>
          rw [noResult] at noPassage
          exact .branch forks ready missing yesPassage noPassage
  | loop span cond body =>
    simp only [survey, Survey.error_andThen, or_and_left] at accepted
    simp only [lower, extend_node, size_extend]
    have forks := (forks_loop sound ready cond span.pos).2
    have headerBound := (forks_loop sound ready cond span.pos).1.finish _ rfl
    have inBody := JumpTargets.within_some (Nat.zero_lt_of_lt ready.bound)
      (Nat.lt_of_lt_of_le headerBound.1.bound forks.grows.size) forks.positive.2
      forks.rightReady.bound
    refine .loop sound ready (lower_passage body accepted.2 forks.sound forks.leftReady inBody ?_)
    rintro jumps ⟨⟩
    dsimp only
    omega
  | ret span =>
    simp only [lower]
    exact .ret sound ready
  | brk span =>
    cases targets with
    | none => exact .stray sound (by simpa [survey, Survey.error_ofDefect] using accepted)
    | some jumps =>
      obtain ⟨positive, bound⟩ := (within jumps rfl).2
      exact .brk sound ready positive bound (apart jumps rfl).2
  | cont span =>
    cases targets with
    | none => exact .stray sound (by simpa [survey, Survey.error_ofDefect] using accepted)
    | some jumps =>
      obtain ⟨positive, bound⟩ := (within jumps rfl).1
      exact .cont sound ready positive bound (apart jumps rfl).1
  | foreign | missing =>
    exact .stray sound (by simpa [survey, Survey.error_ofDefect] using accepted)

theorem lowerAll_passage (body : List Stmt) (span : Span) {lenient : Prop}
    {targets : Option JumpTargets} {current : Nat} {draft : Draft}
    (accepted : lenient ∨ (surveyAll targets.isSome body).error = none)
    (sound : draft.Sound) (ready : draft.Ready current)
    (within : JumpTargets.Within targets draft.size) (apart : JumpTargets.Apart targets current) :
    Passage lenient targets (.block span body) draft current
      (lowerAll targets body current draft).1 (lowerAll targets body current draft).2 := by
  cases body with
  | nil =>
    simp only [lowerAll]
    exact .blockEnd sound ready
  | cons first rest =>
    simp only [surveyAll, Survey.error_andThen, or_and_left] at accepted
    simp only [lowerAll]
    have passage := lower_passage first accepted.1 sound ready within apart
    cases result : first.lower targets current draft with
    | mk finish after =>
      rw [result] at passage
      cases finish with
      | none => exact .blockStop passage
      | some next =>
        obtain ⟨nextReady, own⟩ := passage.lowers.finish next rfl
        have nextApart : JumpTargets.Apart targets next := by
          rcases own with same | fresh
          · rw [same]
            exact apart
          · exact within.apart fresh
        have restAccepted : lenient ∨ (surveyAll targets.isSome rest).error = none := by
          rcases accepted with ⟨admitted | firstAccepted, admitted | restAccepted⟩
          · exact .inl admitted
          · exact .inl admitted
          · exact .inl admitted
          · have strict : Passage False targets first draft current _ _ :=
              lower_passage first (.inr firstAccepted) sound ready within apart
            rw [result] at strict
            have falls : first.fallsThrough = true := strict.arrives.symm
            rw [if_pos falls] at restAccepted
            exact .inr restAccepted
        apply Passage.blockNext passage
        apply lowerAll_passage rest span restAccepted passage.lowers.sound nextReady _ nextApart
        exact within.mono passage.lowers.grows.size

end

end Stmt

namespace FlowGraph

/-- Lowering a whole program starts from a draft with one node. -/
def lowering (program : Stmt) : Option Nat × Draft :=
  program.lower none 0 ({} : Draft).addNode.2

theorem passage_lowering {lenient : Prop} {program : Stmt}
    (accepted : lenient ∨ (program.survey false).error = none) :
    Draft.Passage lenient none program ({} : Draft).addNode.2 0 (lowering program).1
      (lowering program).2 := by
  have within : JumpTargets.Within none ({} : Draft).addNode.2.size := by simp [JumpTargets.Within]
  exact program.lower_passage accepted Draft.sound_empty.addNode Draft.sound_empty.ready_addNode
    within (by simp [JumpTargets.Apart])

theorem lowering_passage {program : Stmt} (accepted : (program.survey false).error = none) :
    Draft.Passage False none program ({} : Draft).addNode.2 0 (lowering program).1
      (lowering program).2 :=
  passage_lowering (.inr accepted)

theorem lowering_lowers (program : Stmt) :
    ({} : Draft).addNode.2.Lowers 0 (lowering program) :=
  (passage_lowering (.inl trivial)).lowers

/-- A finished draft: an end that is not the exit is led on to it. -/
def finished (last : Option Nat) (draft : Draft) : Draft :=
  match last, draft.exit with
  | some last, some exit => draft.addEdge last exit (.blank "return")
  | _, _ => draft

theorem ofDraft_eq (name : String) (entry : Nat) (last : Option Nat) (draft : Draft) :
    (ofDraft name entry last draft).toNetwork = (finished last draft).toNetwork := by
  unfold ofDraft finished
  cases last with
  | none => rfl
  | some last => cases draft.exit <;> rfl

theorem lowered_eq (name : String) (program : Stmt) :
    lowered name program = ofDraft name 0 (lowering program).1 (lowering program).2 := rfl

theorem edges_lowered (name : String) (program : Stmt) :
    (lowered name program).edges = (finished (lowering program).1 (lowering program).2).edges := by
  rw [lowered_eq, ofDraft_eq]

theorem finished_sound {current : Nat} {before draft : Draft} {last : Option Nat}
    (lowers : before.Lowers current (last, draft)) : (finished last draft).Sound := by
  unfold finished
  split
  · rename_i last exit isExit
    obtain ⟨positive, bound, _⟩ := lowers.sound.exit exit isExit
    obtain ⟨ready, _⟩ := lowers.finish last rfl
    exact lowers.sound.addEdge ready.bound positive bound ready.notExit
  · exact lowers.sound

theorem size_finished (last : Option Nat) (draft : Draft) :
    (finished last draft).size = draft.size := by
  unfold finished
  split <;> rfl

/-- What explorations rely on: the entry is a node, edges lie between nodes, no edge leads to the
entry or back to where it starts, and two nodes are joined by one edge at most. -/
structure Simple (graph : FlowGraph) : Prop where
  bounded : ∀ edge ∈ graph.edges,
    edge.source < graph.nodes.length ∧ edge.target < graph.nodes.length
  entry : ∀ edge ∈ graph.edges, edge.target ≠ graph.entry
  loopless : ∀ edge ∈ graph.edges, edge.source ≠ edge.target
  unique : ∀ first ∈ graph.edges, ∀ second ∈ graph.edges, first.source = second.source →
    first.target = second.target → first = second
  entryNode : graph.entry < graph.nodes.length

variable {name : String} {program : Stmt} {graph : FlowGraph}

theorem build_ok_iff : (build name program).1 = .ok graph ↔
    (program.survey false).error = none ∧ graph = lowered name program ∧ graph.fault? = none := by
  unfold build
  dsimp only
  constructor
  · intro built
    split at built
    · cases built
    · rename_i accepted
      split at built
      · cases built
      · rename_i faultless
        cases built
        exact ⟨accepted, rfl, faultless⟩
  · rintro ⟨accepted, rfl, faultless⟩
    rw [accepted]
    dsimp only
    rw [faultless]

end FlowGraph

end Reachability
