import Mathlib
import Reachability.Proofs.Execution.Direct
import Reachability.Proofs.FlowGraph.Encoding

/-!
# Where edges come from

Statements that follow a jump in the same block are neither surveyed nor lowered;
all others are live.  Every edge of a graph is blank, performs a live statement or
belongs to the condition of one, and in that case the edge with the opposite
assumption leaves the same node.  The expressions along the edges have therefore
passed the survey.
-/

namespace Reachability

namespace Stmt

mutual

/-- The statements that are lowered, blocks apart. -/
def live : Stmt → List Stmt
  | block _ body => liveAll body
  | branch span cond yes no => branch span cond yes no :: (live yes ++ live no)
  | loop span cond body => loop span cond body :: live body
  | missing => []
  | other => [other]

def liveAll : List Stmt → List Stmt
  | [] => []
  | first :: rest => live first ++ if fallsThrough first then liveAll rest else []

end

/-- The expressions that a statement evaluates itself. -/
def exprs : Stmt → List Expr
  | assign _ _ value => [value]
  | call _ _ _ args => args
  | assume _ cond | branch _ cond _ _ | loop _ cond _ => [cond]
  | _ => []

mutual

theorem live_subset_all (stmt : Stmt) : stmt.live ⊆ stmt.all := by
  cases stmt with
  | block span body =>
    simp only [live, all, nested, if_true]
    exact List.subset_cons_of_subset _ (liveAll_subset_all body)
  | branch span cond yes no =>
    simp only [live, all, nested, if_true]
    apply List.cons_subset_cons
    apply List.append_subset.mpr
    constructor
    · exact List.subset_append_of_subset_left _ (live_subset_all yes)
    · exact List.subset_append_of_subset_right _ (live_subset_all no)
  | loop span cond body =>
    simp only [live, all, nested, if_true]
    exact List.cons_subset_cons _ (live_subset_all body)
  | missing => exact List.nil_subset _
  | _ => exact List.Subset.refl _

theorem liveAll_subset_all (body : List Stmt) :
    liveAll body ⊆ nestedAll (fun _ => true) body := by
  cases body with
  | nil => exact List.nil_subset _
  | cons first rest =>
    simp only [liveAll, nestedAll]
    apply List.append_subset.mpr
    constructor
    · exact List.subset_append_of_subset_left _ (live_subset_all first)
    · split
      · exact List.subset_append_of_subset_right _ (liveAll_subset_all rest)
      · exact List.nil_subset _

end

/-- What is wrong with a statement wherever it stands, the statements nested in it apart. -/
def ownDefect? : Stmt → Option Defect
  | assign _ var value => if var = "" then some .assignmentWithoutVariable else value.defect?
  | call _ _ callee args =>
    if callee = "" then some .callWithoutCallee else args.findSome? Expr.defect?
  | assume _ cond | branch _ cond _ _ | loop _ cond _ => cond.defect?
  | _ => none

theorem ownDefect?_exprs {stmt : Stmt} (accepted : stmt.ownDefect? = none) :
    ∀ expr ∈ stmt.exprs, expr.defect? = none := by
  cases stmt with
  | assign span var value | call span result callee args =>
    simp only [ownDefect?] at accepted
    split at accepted
    · cases accepted
    · simpa [exprs] using accepted
  | assume | branch | loop => simpa [exprs, ownDefect?] using accepted
  | _ => simp [exprs]

mutual

theorem survey_live (stmt : Stmt) {inLoop : Bool} (accepted : (stmt.survey inLoop).error = none) :
    ∀ part ∈ stmt.live, part.ownDefect? = none := by
  cases stmt with
  | block span body =>
    simp only [survey] at accepted
    exact surveyAll_live body accepted
  | assign | call | assume =>
    simp only [survey, Survey.error_ofDefect] at accepted
    simpa [live, ownDefect?] using accepted
  | branch span cond yes no =>
    simp only [survey, Survey.error_andThen, Survey.error_ofDefect] at accepted
    obtain ⟨condAccepted, yesAccepted, noAccepted⟩ := accepted
    simp only [live, List.forall_mem_cons, List.forall_mem_append]
    refine ⟨condAccepted, survey_live yes yesAccepted, ?_⟩
    split at noAccepted
    · rename_i isMissing
      cases no with
      | missing => simp [live]
      | _ => cases isMissing
    · exact survey_live no noAccepted
  | loop span cond body =>
    simp only [survey, Survey.error_andThen, Survey.error_ofDefect] at accepted
    simp only [live, List.forall_mem_cons]
    exact ⟨accepted.1, survey_live body accepted.2⟩
  | _ => simp [live, ownDefect?]

theorem surveyAll_live (body : List Stmt) {inLoop : Bool}
    (accepted : (surveyAll inLoop body).error = none) :
    ∀ part ∈ liveAll body, part.ownDefect? = none := by
  cases body with
  | nil => simp [liveAll]
  | cons first rest =>
    simp only [surveyAll, Survey.error_andThen] at accepted
    obtain ⟨firstAccepted, restAccepted⟩ := accepted
    simp only [liveAll, List.forall_mem_append]
    refine ⟨survey_live first firstAccepted, ?_⟩
    split
    · rename_i falls
      rw [if_pos falls] at restAccepted
      exact surveyAll_live rest restAccepted
    · simp

end

end Stmt

def Action.exprs : Action → List Expr
  | assign _ value => [value]
  | assume cond _ => [cond]
  | call _ _ args => args
  | blank _ => []

/-- The reason why there is an edge.  The two edges of a condition are there together. -/
inductive Edge.Origin (stmts : List Stmt) (edges : List Edge) (edge : Edge) : Prop where
  | blank {description : String} (isBlank : edge.action = .blank description)
  | action {stmt : Stmt} (member : stmt ∈ stmts) (performs : stmt.action? = some edge.action)
  | condition {stmt : Stmt} {cond : Expr} {truth : Bool} {twin : Edge} (member : stmt ∈ stmts)
      (decides : stmt.condition? = some cond) (assumes : edge.action = .assume cond truth)
      (present : twin ∈ edges) (alike : twin.source = edge.source)
      (opposite : twin.action = .assume cond (!truth))

theorem Edge.Origin.mono {stmts : List Stmt} {edges more : List Edge} {edge : Edge}
    (origin : edge.Origin stmts edges) (kept : edges ⊆ more) : edge.Origin stmts more := by
  cases origin with
  | blank isBlank => exact .blank isBlank
  | action member performs => exact .action member performs
  | condition member decides assumes present alike opposite =>
    exact .condition member decides assumes (kept present) alike opposite

namespace Draft

/-- Every edge comes from one of the given statements. -/
def Traced (stmts : List Stmt) (draft : Draft) : Prop :=
  ∀ edge ∈ draft.edges, edge.Origin stmts draft.edges

variable {stmts : List Stmt} {draft : Draft} {source target pos : Nat} {action : Action}

theorem Traced.label (traced : draft.Traced stmts) (node : Nat) (label : String) :
    (draft.label node label).Traced stmts := by
  unfold Traced
  rw [(draft.size_label node label).2.1]
  exact traced

theorem Traced.addEdge (traced : draft.Traced stmts)
    (origin : ∀ edge : Edge, edge.action = action → edge.Origin stmts []) :
    (draft.addEdge source target action pos).Traced stmts := by
  intro edge member
  rcases List.mem_append.mp member with old | new
  · exact (traced edge old).mono (List.subset_append_left _ _)
  · rw [List.mem_singleton] at new
    apply (origin edge (congrArg Edge.action new)).mono
    exact List.nil_subset _

theorem Traced.addBlank {description : String} (traced : draft.Traced stmts) :
    (draft.addEdge source target (.blank description) pos).Traced stmts :=
  traced.addEdge fun _ isBlank => .blank isBlank

/-- The edge of a statement that becomes a single one. -/
theorem Traced.perform {stmt : Stmt} (traced : draft.Traced stmts) (member : stmt ∈ stmts)
    (performs : stmt.action? = some action) : (draft.extend source action pos).2.Traced stmts := by
  have added : draft.addNode.2.Traced stmts := traced
  apply added.addEdge
  intro edge isAction
  exact .action member (isAction ▸ performs)

theorem Traced.decide {stmt : Stmt} {cond : Expr} (traced : draft.Traced stmts)
    (member : stmt ∈ stmts) (decides : stmt.condition? = some cond) :
    (draft.fork source cond pos).Traced stmts := by
  intro edge isEdge
  rw [edges_fork] at isEdge ⊢
  rcases List.mem_append.mp isEdge with old | new
  · exact (traced edge old).mono (List.subset_append_left _ _)
  · rcases List.mem_cons.mp new with first | last
    · apply Edge.Origin.condition member decides (congrArg Edge.action first)
      · apply List.mem_append_right
        exact List.mem_cons_of_mem _ List.mem_cons_self
      · rw [first]
      · rfl
    · rw [List.mem_singleton] at last
      apply Edge.Origin.condition member decides (congrArg Edge.action last)
      · apply List.mem_append_right
        exact List.mem_cons_self
      · rw [last]
      · rfl

theorem Traced.addBlankFrom (traced : draft.Traced stmts) (finish : Option Nat) (target : Nat)
    (description : String) : (draft.addBlankFrom finish target description).Traced stmts := by
  cases finish with
  | none => exact traced
  | some node => exact traced.addBlank

theorem Traced.join (traced : draft.Traced stmts) (first second : Option Nat) :
    (draft.join first second).2.Traced stmts := by
  unfold Draft.join
  split
  · exact traced
  · have added : draft.addNode.2.Traced stmts := traced
    exact (added.addBlankFrom first _ _).addBlankFrom second _ _

theorem Traced.addReturn (traced : draft.Traced stmts) :
    (draft.addReturn source pos).Traced stmts := by
  unfold Draft.addReturn
  split
  · exact traced.addBlank
  · have added : { draft.addNode.2 with exit := some draft.size }.Traced stmts := traced
    exact added.addBlank

/-- Lowering adds edges of live statements only. -/
theorem Passage.traced {targets : Option JumpTargets} {stmt : Stmt} {after : Draft} {current : Nat}
    {finish : Option Nat} (passage : Passage False targets stmt draft current finish after)
    (listed : stmt.live ⊆ stmts) (traced : draft.Traced stmts) : after.Traced stmts := by
  induction passage with
  | label text _ induction => exact induction listed (traced.label _ text)
  | blockEnd _ _ => exact traced
  | blockNext firstPassage _ first rest =>
    simp only [Stmt.live, Stmt.liveAll, ← firstPassage.arrives, Option.isSome_some, if_true,
      List.append_subset] at listed
    exact rest listed.2 (first listed.1 traced)
  | blockStop _ first =>
    simp only [Stmt.live, Stmt.liveAll, List.append_subset] at listed
    exact first listed.1 traced
  | @action _ stmt _ _ _ _ _ _ performs =>
    cases stmt with
    | assign | call | assume | skip => exact traced.perform (listed List.mem_cons_self) performs
    | _ => cases performs
  | branchOpen _ _ _ yes =>
    simp only [Stmt.live, List.cons_subset, List.append_subset] at listed
    apply Traced.addBlankFrom
    exact yes listed.2.1 (traced.decide listed.1 rfl)
  | branch _ _ _ _ _ yes no =>
    simp only [Stmt.live, List.cons_subset, List.append_subset] at listed
    exact (no listed.2.2 (yes listed.2.1 (traced.decide listed.1 rfl))).join _ _
  | loop _ _ _ body =>
    simp only [Stmt.live, List.cons_subset] at listed
    apply Traced.addBlankFrom
    exact body listed.2 (Traced.decide traced.addBlank listed.1 rfl)
  | ret _ _ => exact traced.addReturn
  | brk _ _ _ _ _ | cont _ _ _ _ _ => exact traced.addBlank
  | stray _ admitted => exact admitted.elim

end Draft

namespace FlowGraph

variable {name : String} {program : Stmt} {graph : FlowGraph}

theorem build_origin (built : (build name program).1 = .ok graph) :
    ∀ edge ∈ graph.edges, edge.Origin program.live graph.edges := by
  obtain ⟨accepted, isLowered, _⟩ := build_ok_iff.mp built
  have start : ({} : Draft).addNode.2.Traced program.live := by
    intro edge member
    cases member
  have lowered : (lowering program).2.Traced program.live :=
    (lowering_passage accepted).traced (List.Subset.refl _) start
  rw [isLowered, edges_lowered]
  unfold finished
  split
  · exact lowered.addBlank
  · exact lowered

/-- What is evaluated along an edge stands in a live statement and has passed the survey. -/
theorem build_exprs (built : (build name program).1 = .ok graph) {edge : Edge}
    (member : edge ∈ graph.edges) {expr : Expr} (evaluated : expr ∈ edge.action.exprs) :
    expr.defect? = none ∧ ∃ stmt ∈ program.live, expr ∈ stmt.exprs := by
  obtain ⟨accepted, _, _⟩ := build_ok_iff.mp built
  have found : ∃ stmt ∈ program.live, expr ∈ stmt.exprs := by
    cases build_origin built edge member with
    | blank isBlank =>
      rw [isBlank] at evaluated
      cases evaluated
    | @action stmt isLive performs =>
      refine ⟨stmt, isLive, ?_⟩
      cases stmt with
      | assign | call | assume =>
        rw [← Option.some.inj performs] at evaluated
        exact evaluated
      | skip =>
        rw [← Option.some.inj performs] at evaluated
        cases evaluated
      | _ => cases performs
    | @condition stmt cond truth twin isLive decides assumes =>
      refine ⟨stmt, isLive, ?_⟩
      rw [assumes] at evaluated
      cases stmt with
      | branch | loop =>
        cases Option.some.inj decides
        exact evaluated
      | _ => cases decides
  obtain ⟨stmt, isLive, isPart⟩ := found
  have sound := program.survey_live accepted stmt isLive
  exact ⟨Stmt.ownDefect?_exprs sound expr isPart, stmt, isLive, isPart⟩

theorem build_written (built : (build name program).1 = .ok graph) {edge : Edge}
    (member : edge ∈ graph.edges) {var : String} (written : edge.action.written? = some var) :
    var ≠ "" := by
  obtain ⟨accepted, _, _⟩ := build_ok_iff.mp built
  cases build_origin built edge member with
  | blank isBlank =>
    rw [isBlank] at written
    cases written
  | @action stmt isLive performs =>
    have sound := program.survey_live accepted stmt isLive
    cases stmt with
    | assign span other value =>
      rw [← Option.some.inj performs] at written
      cases written
      intro unnamed
      simp only [Stmt.ownDefect?, if_pos unnamed] at sound
      cases sound
    | call span result callee args =>
      rw [← Option.some.inj performs] at written
      simp only [Action.written?] at written
      split at written
      · cases written
      · rename_i named
        cases written
        exact named
    | assume | skip =>
      rw [← Option.some.inj performs] at written
      cases written
    | _ => cases performs
  | condition _ _ assumes =>
    rw [assumes] at written
    cases written

end FlowGraph

end Reachability
