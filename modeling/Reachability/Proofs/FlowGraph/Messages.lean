import Mathlib
import Reachability.Proofs.FlowGraph.Origins
import Reachability.Proofs.FlowGraph.WellFormed

/-!
# Messages about unsupported constructs

A tree without a control-flow graph is refused because of one statement, which
the message quotes.  The text of a conditional or a loop has notes in place of
what is missing in it, so a message about one can always be written.  An
assignment, a call or an assumption writes its expressions out without such
notes, and a message about one that lacks an expression or an operand cannot be
written at all.
-/

namespace Reachability

/-- Whether neither the expression nor any of its operands is missing. -/
def Expr.complete : Expr → Bool
  | unary _ _ operand => operand.complete
  | binary _ _ left right => left.complete && right.complete
  | missing => false
  | literal .. | var .. | nondet .. | foreign .. => true

theorem Expr.text?_eq_none_iff {expr : Expr} : expr.text? = none ↔ expr.complete = false := by
  induction expr with
  | literal | var | nondet | foreign | missing => simp [text?, complete]
  | unary pos op operand induction => simp [text?, complete, induction]
  | binary pos op left right leftInduction rightInduction =>
    simp only [text?, complete, Option.bind_eq_none_iff, Option.map_eq_none_iff,
      Bool.and_eq_false_iff, ← leftInduction, ← rightInduction]
    cases left.text? <;> simp

theorem mapM_text?_eq_none_iff {args : List Expr} :
    args.mapM Expr.text? = none ↔ ∃ arg ∈ args, arg.complete = false := by
  induction args with
  | nil => simp
  | cons arg args induction =>
    rw [List.mapM_cons]
    cases found : arg.text? with
    | none => simp [Expr.text?_eq_none_iff.mp found]
    | some text =>
      have complete : arg.complete ≠ false := by
        rw [Ne, ← Expr.text?_eq_none_iff, found]
        simp
      rw [List.exists_mem_cons_iff, or_iff_right complete, ← induction]
      cases args.mapM Expr.text? <;> simp

namespace Stmt

/-- The expressions that a statement writes out without notes on what is missing. -/
def plainExprs : Stmt → List Expr
  | assign _ _ value => [value]
  | call _ _ _ args => args
  | assume _ cond => [cond]
  | _ => []

/-- What the survey may find wrong with a statement itself. -/
inductive Faulty : Stmt → Defect → Prop where
  | own {stmt : Stmt} {defect : Defect} (found : stmt.ownDefect? = some defect) : Faulty stmt defect
  | brk (span : Span) : Faulty (.brk span) .breakOutsideLoop
  | cont (span : Span) : Faulty (.cont span) .continueOutsideLoop
  | foreign (span : Span) (kind text : String) :
      Faulty (.foreign span kind text) (.unknownStatement kind)
  | missing : Faulty .missing .missingStatement

/-- Only expressions can make the text of a faulty statement fail: it is no block. -/
theorem Faulty.text?_eq_none_iff {stmt : Stmt} {defect : Defect} (faulty : Faulty stmt defect) :
    stmt.isMissing = false ∧ stmt.text? = none ↔
      ∃ expr ∈ stmt.plainExprs, expr.complete = false := by
  cases stmt with
  | assign span var value
  | assume span cond => simp [isMissing, text?, plainExprs, Expr.text?_eq_none_iff]
  | call span result callee args =>
    simp [isMissing, text?, plainExprs, callText?, mapM_text?_eq_none_iff]
  | branch span cond yes no =>
    simp only [text?, plainExprs]
    split <;> simp
  | loop | ret | brk | cont | skip | foreign | missing => simp [isMissing, text?, plainExprs]
  | block span body =>
    cases faulty with
    | own found => cases found

end Stmt

/-- The message of a refusal fails only because of an expression that is written out. -/
theorem Unsupported.message?_eq_none_iff {error : Unsupported}
    (faulty : error.stmt.Faulty error.defect) :
    error.message? = none ↔ ∃ expr ∈ error.stmt.plainExprs, expr.complete = false := by
  rw [← faulty.text?_eq_none_iff]
  unfold Unsupported.message?
  cases error.stmt.isMissing <;> simp

namespace Survey

variable {error : Unsupported} {first second : Survey}

theorem error_andThen_some (found : (first.andThen second).error = some error) :
    first.error = some error ∨ second.error = some error := by
  unfold andThen at found
  cases isError : first.error with
  | none =>
    simp only [isError, Option.isSome_none, Bool.false_eq_true, if_false] at found
    exact .inr found
  | some other =>
    simp only [isError, Option.isSome_some, if_true] at found
    exact .inl found

theorem error_ofDefect_some {stmt : Stmt} {defect : Option Defect}
    (found : (ofDefect stmt defect).error = some error) :
    error.stmt = stmt ∧ defect = some error.defect := by
  simp only [ofDefect, Option.map_eq_some_iff] at found
  obtain ⟨reason, isReason, rfl⟩ := found
  exact ⟨rfl, isReason⟩

end Survey

namespace Stmt

/-- A refusal names a missing statement or one of the statements listed, and what is wrong with
it. -/
def Reports (stmts : List Stmt) (error : Unsupported) : Prop :=
  (error.stmt = .missing ∨ error.stmt ∈ stmts) ∧ error.stmt.Faulty error.defect

variable {error : Unsupported}

theorem Reports.mono {stmts more : List Stmt} (reports : Reports stmts error)
    (listed : stmts ⊆ more) : Reports more error :=
  ⟨reports.1.imp_right fun member => listed member, reports.2⟩

theorem reports_of_faulty {stmt : Stmt} {defect? : Option Defect}
    (found : (Survey.ofDefect stmt defect?).error = some error)
    (faulty : ∀ defect, defect? = some defect → Faulty stmt defect) : Reports [stmt] error := by
  obtain ⟨rfl, isDefect⟩ := Survey.error_ofDefect_some found
  exact ⟨.inr (List.mem_singleton_self _), faulty _ isDefect⟩

theorem reports_own {stmt : Stmt}
    (found : (Survey.ofDefect stmt stmt.ownDefect?).error = some error) :
    Reports [stmt] error :=
  reports_of_faulty found fun _ => .own

mutual

theorem survey_reports (stmt : Stmt) {inLoop : Bool}
    (refused : (stmt.survey inLoop).error = some error) : Reports stmt.live error := by
  cases stmt with
  | block span body => exact surveyAll_reports body refused
  | assign | call | assume => exact reports_own refused
  | branch span cond yes no =>
    simp only [survey] at refused
    simp only [live]
    rcases Survey.error_andThen_some refused with ofCond | ofRest
    · exact (reports_own ofCond).mono (by simp)
    · rcases Survey.error_andThen_some ofRest with ofYes | ofNo
      · exact (survey_reports yes ofYes).mono (by simp)
      · split at ofNo
        · cases ofNo
        · exact (survey_reports no ofNo).mono (by simp)
  | loop span cond body =>
    simp only [survey] at refused
    simp only [live]
    rcases Survey.error_andThen_some refused with ofCond | ofBody
    · exact (reports_own ofCond).mono (by simp)
    · exact (survey_reports body ofBody).mono (by simp)
  | brk span =>
    refine reports_of_faulty refused fun defect isDefect => ?_
    split at isDefect
    · cases isDefect
    · cases isDefect
      exact .brk span
  | cont span =>
    refine reports_of_faulty refused fun defect isDefect => ?_
    split at isDefect
    · cases isDefect
    · cases isDefect
      exact .cont span
  | foreign span kind text =>
    refine reports_of_faulty refused fun defect isDefect => ?_
    cases isDefect
    exact .foreign span kind text
  | missing =>
    obtain ⟨isMissing, isDefect⟩ := Survey.error_ofDefect_some refused
    refine ⟨.inl isMissing, ?_⟩
    rw [isMissing, ← Option.some.inj isDefect]
    exact .missing
  | ret | skip => cases refused

theorem surveyAll_reports (body : List Stmt) {inLoop : Bool}
    (refused : (surveyAll inLoop body).error = some error) : Reports (liveAll body) error := by
  cases body with
  | nil => cases refused
  | cons first rest =>
    simp only [surveyAll] at refused
    simp only [liveAll]
    rcases Survey.error_andThen_some refused with ofFirst | ofRest
    · exact (survey_reports first ofFirst).mono (by simp)
    · split at ofRest
      · rename_i falls
        rw [if_pos falls]
        exact (surveyAll_reports rest ofRest).mono (by simp)
      · split at ofRest <;> cases ofRest

end

end Stmt

namespace FlowGraph

/-- A tree without a graph is refused for an unsupported construct, and the refusal names a
statement and what is wrong with it.  Its message can be written unless the statement is an
assignment, a call or an assumption with an expression that is missing or lacks an operand. -/
theorem refusals_reported (name : String) (program : Stmt) :
    (∃ graph, (build name program).1 = .ok graph) ∨
      ∃ error, (build name program).1 = .error (.unsupported error) ∧
        (error.stmt = .missing ∨ error.stmt ∈ program.live) ∧
        error.stmt.Faulty error.defect ∧
        ((BuildError.unsupported error).message? = none ↔
          ∃ expr ∈ error.stmt.plainExprs, expr.complete = false) := by
  cases refused : (program.survey false).error with
  | none =>
    exact .inl ⟨_, build_ok_iff.mpr ⟨refused, rfl, lowered_faultless name program⟩⟩
  | some error =>
    obtain ⟨named, faulty⟩ := program.survey_reports refused
    refine .inr ⟨error, ?_, named, faulty, Unsupported.message?_eq_none_iff faulty⟩
    unfold build
    dsimp only
    rw [refused]

/-- The refusal of an assignment without a value has no message. -/
theorem assignsMissing_unreported :
    ∃ error, (build "test" (.assign {} "x" .missing)).1 = .error (.unsupported error) ∧
      error.defect = .missingExpression ∧ (BuildError.unsupported error).message? = none :=
  ⟨⟨.assign {} "x" .missing, .missingExpression⟩, rfl, rfl, rfl⟩

end FlowGraph

end Reachability
