import Mathlib
import Reachability.Proofs.FlowGraph.Passage

/-!
# Statements in control-flow graphs

`FlowGraph.Encodes` says which part of a graph stands for a statement, without
mentioning how the graph has been made.  The passage of an accepted statement
yields such a part: once a node has outgoing edges, no other edge is added to it.
-/

namespace Reachability

namespace FlowGraph

/-- The only edge that leaves a node. -/
def Performs (graph : FlowGraph) (node : Nat) (action : Action) (next : Nat) : Prop :=
  ∃ edge, graph.outgoing node = [edge] ∧ edge.action = action ∧ edge.target = next

def Leads (graph : FlowGraph) (node next : Nat) : Prop :=
  ∃ description, graph.Performs node (.blank description) next

/-- Control that arrives after a statement, if it does so, is led on. -/
def LedOn (graph : FlowGraph) (finish join : Option Nat) : Prop :=
  ∀ node, finish = some node → ∃ next, join = some next ∧ graph.Leads node next

/-- Two edges that leave a node with opposite assumptions. -/
def Branches (graph : FlowGraph) (node : Nat) (cond : Expr) (yes no : Nat) : Prop :=
  ∃ first second, graph.outgoing node = [first, second] ∧
    (first.action = .assume cond true ∧ first.target = yes) ∧
    second.action = .assume cond false ∧ second.target = no

/-- A graph contains a statement: control is at a node before it and, if it falls through, at
another one after it.  The head of a loop stands for the loop, too. -/
inductive Encodes (graph : FlowGraph) : Option JumpTargets → Stmt → Nat → Option Nat → Prop where
  | blockEnd {targets : Option JumpTargets} {span : Span} {current : Nat} :
      Encodes graph targets (.block span []) current (some current)
  | blockNext {targets : Option JumpTargets} {span : Span} {first : Stmt} {rest : List Stmt}
      {current middle : Nat} {finish : Option Nat} :
      Encodes graph targets first current (some middle) →
      Encodes graph targets (.block span rest) middle finish →
      Encodes graph targets (.block span (first :: rest)) current finish
  | blockStop {targets : Option JumpTargets} {span : Span} {first : Stmt} {rest : List Stmt}
      {current : Nat} :
      Encodes graph targets first current none →
      Encodes graph targets (.block span (first :: rest)) current none
  | action {targets : Option JumpTargets} {stmt : Stmt} {action : Action} {current next : Nat} :
      stmt.action? = some action →
      graph.Performs current action next →
      Encodes graph targets stmt current (some next)
  | branch {targets : Option JumpTargets} {span : Span} {cond : Expr} {yes no : Stmt}
      {current yesStart noStart : Nat} {yesEnd noEnd finish : Option Nat} :
      graph.Branches current cond yesStart noStart →
      Encodes graph targets yes yesStart yesEnd →
      graph.LedOn yesEnd finish →
      Encodes graph targets no noStart noEnd →
      graph.LedOn noEnd finish →
      Encodes graph targets (.branch span cond yes no) current finish
  | branchOpen {targets : Option JumpTargets} {span : Span} {cond : Expr} {yes : Stmt}
      {current yesStart noStart : Nat} {yesEnd : Option Nat} :
      graph.Branches current cond yesStart noStart →
      Encodes graph targets yes yesStart yesEnd →
      graph.LedOn yesEnd (some noStart) →
      Encodes graph targets (.branch span cond yes .missing) current (some noStart)
  | enter {targets : Option JumpTargets} {span : Span} {cond : Expr} {body : Stmt}
      {current header : Nat} {finish : Option Nat} :
      graph.Leads current header →
      Encodes graph targets (.loop span cond body) header finish →
      Encodes graph targets (.loop span cond body) current finish
  | loop {targets : Option JumpTargets} {span : Span} {cond : Expr} {body : Stmt}
      {header bodyStart exit : Nat} {bodyEnd : Option Nat} :
      graph.Branches header cond bodyStart exit →
      Encodes graph (some { header, exit }) body bodyStart bodyEnd →
      graph.LedOn bodyEnd (some header) →
      Encodes graph targets (.loop span cond body) header (some exit)
  | ret {targets : Option JumpTargets} {span : Span} {current exit : Nat} :
      graph.Leads current exit →
      graph.outgoing exit = [] →
      Encodes graph targets (.ret span) current none
  | brk {targets : JumpTargets} {span : Span} {current : Nat} :
      graph.Leads current targets.exit →
      Encodes graph (some targets) (.brk span) current none
  | cont {targets : JumpTargets} {span : Span} {current : Nat} :
      graph.Leads current targets.header →
      Encodes graph (some targets) (.cont span) current none

end FlowGraph

namespace Draft

/-- What a draft contains is left alone until the graph is finished. -/
structure Persists (draft : Draft) (graph : FlowGraph) : Prop where
  out : ∀ node, draft.out node ≠ [] → graph.outgoing node = draft.out node
  exit : ∀ exit, draft.exit = some exit → graph.outgoing exit = []

section Persists

variable {draft after : Draft} {graph : FlowGraph} {current : Nat}

theorem Persists.of_grows (persists : after.Persists graph) (grows : draft.Grows current after)
    (sound : draft.Sound) (empty : draft.out current = []) : draft.Persists graph := by
  constructor
  · intro node leaves
    have bound : node < draft.size := by
      by_contra outside
      exact leaves (sound.out_eq_nil (Nat.le_of_not_lt outside))
    have other : node ≠ current := by
      intro same
      rw [same] at leaves
      exact leaves empty
    have kept := grows.out_eq bound other
    rw [← kept] at leaves ⊢
    exact persists.out node leaves
  · intro exit found
    exact persists.exit exit (grows.exit exit found)

theorem Persists.of_lowers {result : Option Nat × Draft} (persists : result.2.Persists graph)
    (lowers : draft.Lowers current result) (sound : draft.Sound) (ready : draft.Ready current) :
    draft.Persists graph :=
  persists.of_grows lowers.grows sound ready.empty

theorem Persists.performs {target : Nat} {action : Action} {pos : Nat}
    (persists : (draft.addEdge current target action pos).Persists graph)
    (empty : draft.out current = []) : graph.Performs current action target := by
  have out : (draft.addEdge current target action pos).out current =
      [{ id := draft.edges.length, source := current, target, action, pos }] := by
    rw [out_addEdge, if_pos rfl, empty, List.nil_append]
  have final := persists.out current (by simp [out])
  exact ⟨_, final.trans out, rfl, rfl⟩

theorem Persists.branches {cond : Expr} {pos : Nat}
    (persists : ((draft.extend current (.assume cond true) pos).2.extend current
      (.assume cond false) pos).2.Persists graph)
    (empty : draft.out current = []) :
    graph.Branches current cond draft.size (draft.size + 1) := by
  have once : (draft.extend current (.assume cond true) pos).2.out current =
      [{ id := draft.edges.length, source := current, target := draft.size,
         action := .assume cond true, pos }] := by
    rw [out_extend, if_pos rfl, empty, List.nil_append]
  have out := persists.out current (by simp [out_extend])
  rw [out_extend, if_pos rfl, once, size_extend] at out
  exact ⟨_, _, out, ⟨rfl, rfl⟩, rfl, rfl⟩

theorem Persists.ledOn {finish : Option Nat} {target : Nat} {description : String}
    (persists : (draft.addBlankFrom finish target description).Persists graph)
    (sound : draft.Sound) (ready : ∀ node, finish = some node → draft.Ready node) :
    draft.Persists graph ∧ graph.LedOn finish (some target) := by
  cases finish with
  | none => exact ⟨persists, by simp [FlowGraph.LedOn]⟩
  | some node =>
    have empty := (ready node rfl).empty
    refine ⟨persists.of_grows (.addEdge ..) sound empty, ?_⟩
    intro other same
    cases same
    exact ⟨target, rfl, description, persists.performs empty⟩

theorem Persists.leadsToExit {pos : Nat} (persists : (draft.addReturn current pos).Persists graph)
    (empty : draft.out current = []) :
    ∃ exit, graph.Leads current exit ∧ graph.outgoing exit = [] := by
  unfold addReturn at persists
  split at persists
  · rename_i exit found
    exact ⟨exit, ⟨_, persists.performs empty⟩, persists.exit exit found⟩
  · exact ⟨draft.size, ⟨_, persists.performs empty⟩, persists.exit draft.size rfl⟩

/-- Both branches are led on to the node where they meet, if any, and left alone from then on. -/
theorem Forks.persists_join {forked afterYes afterNo : Draft} {yes no : Nat}
    {yesEnd noEnd : Option Nat} (forks : draft.Forks current forked yes no)
    (yesLowers : forked.Lowers yes (yesEnd, afterYes))
    (noLowers : afterYes.Lowers no (noEnd, afterNo))
    (persists : (afterNo.join yesEnd noEnd).2.Persists graph) :
    (afterYes.Persists graph ∧ graph.LedOn yesEnd (afterNo.join yesEnd noEnd).1) ∧
      afterNo.Persists graph ∧ graph.LedOn noEnd (afterNo.join yesEnd noEnd).1 := by
  have noReady := yesLowers.grows.ready forks.rightReady forks.different.symm
  by_cases neither : (yesEnd.isNone && noEnd.isNone) = true
  · have noPersists : afterNo.Persists graph := by rwa [Draft.join, if_pos neither] at persists
    have yesPersists := noPersists.of_lowers noLowers yesLowers.sound noReady
    rw [Bool.and_eq_true, Option.isNone_iff_eq_none, Option.isNone_iff_eq_none] at neither
    rw [neither.1, neither.2]
    exact ⟨⟨yesPersists, by simp [FlowGraph.LedOn]⟩, noPersists, by simp [FlowGraph.LedOn]⟩
  · rw [Draft.join, if_neg neither] at persists ⊢
    obtain ⟨yesMeets, meetSound, noMeets⟩ := forks.meet yesLowers noLowers
    obtain ⟨persistsYes, noLed⟩ := persists.ledOn meetSound noMeets
    obtain ⟨persistsJoin, yesLed⟩ := persistsYes.ledOn noLowers.sound.addNode yesMeets
    have noPersists := persistsJoin.of_grows (.addNode afterNo.size afterNo) noLowers.sound
      (noLowers.sound.out_eq_nil (Nat.le_refl _))
    exact ⟨⟨noPersists.of_lowers noLowers yesLowers.sound noReady, yesLed⟩, noPersists, noLed⟩

end Persists

/-- The part of the graph that an accepted statement has added stands for the statement. -/
theorem Passage.encodes {targets : Option JumpTargets} {stmt : Stmt} {draft after : Draft}
    {current : Nat} {finish : Option Nat} {graph : FlowGraph}
    (passage : Passage False targets stmt draft current finish after)
    (persists : after.Persists graph) : graph.Encodes targets stmt current finish := by
  induction passage with
  | label _ _ induction => exact induction persists
  | blockEnd _ _ => exact .blockEnd
  | blockNext firstPassage restPassage first rest =>
    have firstLowers := firstPassage.lowers
    refine .blockNext (first ?_) (rest persists)
    exact persists.of_lowers restPassage.lowers firstLowers.sound (firstLowers.finish _ rfl).1
  | blockStop _ first => exact .blockStop (first persists)
  | action _ ready performs => exact .action performs (persists.performs ready.empty)
  | branchOpen forks ready yesPassage yes =>
    have yesLowers := yesPassage.lowers
    obtain ⟨yesPersists, yesLed⟩ := persists.ledOn yesLowers.sound
      fun node found => (yesLowers.finish node found).1
    have forkPersists := yesPersists.of_lowers yesLowers forks.sound forks.leftReady
    exact .branchOpen (forkPersists.branches ready.empty) (yes yesPersists) yesLed
  | branch forks ready _ yesPassage noPassage yes no =>
    have yesLowers := yesPassage.lowers
    obtain ⟨⟨yesPersists, yesLed⟩, noPersists, noLed⟩ :=
      forks.persists_join yesLowers noPassage.lowers persists
    have forkPersists := yesPersists.of_lowers yesLowers forks.sound forks.leftReady
    exact .branch (forkPersists.branches ready.empty) (yes yesPersists) yesLed (no noPersists) noLed
  | @loop _ span cond _ _ _ _ _ sound ready bodyPassage body =>
    obtain ⟨enters, forks⟩ := forks_loop sound ready cond span.pos
    have bodyLowers := bodyPassage.lowers
    have header := (enters.finish _ rfl).1
    obtain ⟨bodyPersists, bodyLed⟩ := persists.ledOn bodyLowers.sound
      fun node found => (bodyLowers.finish node found).1
    have forkPersists := bodyPersists.of_lowers bodyLowers forks.sound forks.leftReady
    have branches := forkPersists.branches header.empty
    have enterPersists := forkPersists.of_grows forks.grows enters.sound header.empty
    rw [size_extend] at branches
    exact .enter ⟨_, enterPersists.performs ready.empty⟩
      (.loop branches (body bodyPersists) bodyLed)
  | ret _ ready =>
    obtain ⟨exit, leads, isExit⟩ := persists.leadsToExit ready.empty
    exact .ret leads isExit
  | brk _ ready _ _ _ => exact .brk ⟨_, persists.performs ready.empty⟩
  | cont _ ready _ _ _ => exact .cont ⟨_, persists.performs ready.empty⟩
  | stray _ admitted => exact admitted.elim

end Draft

namespace FlowGraph

/-- Control that is at a node without edges, or gets to one at once, as after a return. -/
def Ends (graph : FlowGraph) (node : Nat) : Prop :=
  graph.outgoing node = [] ∨ ∃ exit, graph.Leads node exit ∧ graph.outgoing exit = []

theorem outgoing_ofDraft (name : String) (entry : Nat) (last : Option Nat) (draft : Draft)
    (node : Nat) :
    (ofDraft name entry last draft).outgoing node = (finished last draft).out node := by
  rw [outgoing_eq, ofDraft_eq]
  rfl

theorem finished_persists (name : String) {last : Option Nat} {draft : Draft} {current : Nat}
    {before : Draft} (lowers : before.Lowers current (last, draft)) :
    draft.Persists (ofDraft name 0 last draft) ∧
      ∀ node, last = some node → (ofDraft name 0 last draft).Ends node := by
  have outgoing := outgoing_ofDraft name 0 last draft
  have sound := finished_sound lowers
  have whole : (finished last draft).Persists (ofDraft name 0 last draft) := by
    refine ⟨fun node _ => outgoing node, ?_⟩
    intro exit found
    rw [outgoing]
    exact (sound.exit exit found).2.2
  cases last with
  | none => exact ⟨whole, by simp⟩
  | some last =>
    have ready := (lowers.finish last rfl).1
    cases found : draft.exit with
    | none =>
      have same : finished (some last) draft = draft := by
        simp [finished, found]
      rw [same] at whole outgoing
      refine ⟨whole, ?_⟩
      intro node isLast
      cases isLast
      exact .inl ((outgoing last).trans ready.empty)
    | some exit =>
      have added : finished (some last) draft = draft.addEdge last exit (.blank "return") := by
        simp [finished, found]
      rw [added] at whole
      refine ⟨whole.of_grows (.addEdge ..) lowers.sound ready.empty, ?_⟩
      intro node isLast
      cases isLast
      exact .inr ⟨exit, ⟨_, whole.performs ready.empty⟩, whole.exit exit found⟩

/-- The graph of an accepted program contains the program, and its end ends every execution. -/
theorem build_encodes {name : String} {program : Stmt} {graph : FlowGraph}
    (built : (build name program).1 = .ok graph) :
    ∃ last, graph.Encodes none program graph.entry last ∧
      ∀ node, last = some node → graph.Ends node := by
  obtain ⟨accepted, rfl, _⟩ := build_ok_iff.mp built
  obtain ⟨persists, ends⟩ := finished_persists name (lowering_lowers program)
  exact ⟨(lowering program).1, (lowering_passage accepted).encodes persists, ends⟩

end FlowGraph

end Reachability
