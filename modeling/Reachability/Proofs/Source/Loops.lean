import Mathlib
import Reachability.Proofs.Source.Effects
import Reachability.Proofs.Source.Headers

/-!
# Loops in lowered functions

The statement that a loop runs after each round becomes the end of its body.
This keeps the effect of the loop: a body that would jump over the statement is
refused.  So executing a lowered function has the effect of its source, in which
every round that is not left runs the statement once.
-/

namespace Reachability

namespace Stmt

variable (target : String) (inputs : Inputs)

/-- Whether a statement controls no other statement and is no jump in a loop. -/
def isPlain : Stmt → Bool
  | assign .. | call .. | assume .. | skip _ | ret _ => true
  | _ => false

theorem runs_neverRepeats {body : List Stmt} (plain : body.all isPlain = true) :
    (runs target inputs body).NeverRepeats := by
  induction body with
  | nil =>
    rintro machine after ⟨repeated, _⟩
    cases repeated
  | cons first rest induction =>
    rw [List.all_cons, Bool.and_eq_true] at plain
    rw [runs]
    refine .andThen ?_ (induction plain.2)
    intro machine after executed
    cases first with
    | assign | call | assume | skip | ret => cases executed
    | _ => cases plain.1

end Stmt

namespace Source

/-- Whether a statement neither has statements inside nor is a jump in a loop. -/
def SourceStmt.isElementary : SourceStmt → Bool
  | block .. | branch .. | loop .. | jump .. => false
  | _ => true

theorem Follows.leave_eq {scopes inside : Scopes} {names : List (Nat × String)}
    {found : List Use × Bindings} (inner : Follows scopes.enter (names, inside) found) :
    inside.leave = inside.endScope scopes := by
  have blocks : inside.leave.blocks = scopes.blocks := inner.framed
  rw [Scopes.endScope, ← blocks]
  rfl

namespace Lowering

variable (lowering : Lowering) (target : String) (inputs : Inputs) {scopes after : Scopes}
  {result : List Stmt}

section

variable {scopes after : Scopes} {pos : Nat} {name : String} {declared : Bool} {result : List Stmt}

theorem call_plain {fn : SourceExpr} {args : List SourceExpr} {spread : Bool}
    (lowered : lowering.call scopes pos name declared fn args spread = .ok (result, after)) :
    result.all Stmt.isPlain = true := by
  cases fn with
  | name fnPos called =>
    unfold call at lowered
    dsimp only at lowered
    split at lowered
    · cases lowered
    obtain ⟨values, _, rest⟩ := bind_eq_ok.mp lowered
    repeat' split at rest
    all_goals
      cases rest
      try rfl
  | _ => cases lowered

theorem assignment_plain {source : SourceExpr}
    (lowered : lowering.assignment scopes pos name declared source = .ok (result, after)) :
    result.all Stmt.isPlain = true := by
  unfold assignment at lowered
  extract_lets plain at lowered
  have ofPlain : plain = .ok (result, after) → result.all Stmt.isPlain = true := by
    intro plainLowered
    obtain ⟨value, _, rest⟩ := bind_eq_ok.mp plainLowered
    dsimp only at rest
    generalize (receiver scopes name declared).1 = received at rest
    cases rest
    split <;> rfl
  split at lowered
  · split at lowered
    · exact ofPlain lowered
    · exact lowering.call_plain lowered
  · exact ofPlain lowered

theorem declarations_plain {pairs : List (String × SourceExpr)}
    (lowered : lowering.declarations pos scopes pairs = .ok (result, after)) :
    result.all Stmt.isPlain = true := by
  induction pairs generalizing scopes result with
  | nil =>
    cases lowered
    rfl
  | cons pair rest induction =>
    obtain ⟨first, between, others, firstLowered, othersLowered, rfl⟩ := inTurn_eq_ok lowered
    rw [List.all_append, lowering.assignment_plain firstLowered, induction othersLowered]
    rfl

theorem zeroDeclarations_plain (pos : Nat) (scopes : Scopes) (names : List String) :
    (lowering.zeroDeclarations pos scopes names).1.all Stmt.isPlain = true := by
  induction names generalizing scopes with
  | nil => rfl
  | cons name rest induction =>
    unfold zeroDeclarations
    dsimp only
    rw [List.all_append, induction]
    split <;> rfl

theorem varSpecs_plain {specs : List VarSpec}
    (lowered : lowering.varSpecs pos scopes specs = .ok (result, after)) :
    result.all Stmt.isPlain = true := by
  induction specs generalizing scopes result with
  | nil =>
    cases lowered
    rfl
  | cons spec rest induction =>
    obtain ⟨first, between, others, firstLowered, othersLowered, rfl⟩ := inTurn_eq_ok lowered
    rw [List.all_append, induction othersLowered, Bool.and_true]
    split at firstLowered
    · have plain := lowering.zeroDeclarations_plain pos scopes spec.names
      rw [Except.ok.injEq] at firstLowered
      rwa [firstLowered] at plain
    · split at firstLowered
      · exact lowering.declarations_plain firstLowered
      · cases firstLowered

theorem stmt_plain {source : SourceStmt} (elementary : source.isElementary = true)
    (lowered : lowering.stmt scopes source = .ok (result, after)) :
    result.all Stmt.isPlain = true := by
  cases source with
  | block | branch | loop | jump => cases elementary
  | empty =>
    cases lowered
    rfl
  | assign op left right =>
    obtain ⟨_, _, _, _, _, ⟨_, received⟩ | ⟨_, _, _, _, rfl, _⟩⟩ := lowering.assign_eq_ok lowered
    · exact lowering.assignment_plain received
    · rfl
  | step op operand =>
    cases operand with
    | name pos name =>
      cases lowered
      rfl
    | _ => cases lowered
  | vars pos specs => exact lowering.varSpecs_plain lowered
  | expr value =>
    cases value with
    | call fn args spread =>
      rw [stmt] at lowered
      exact lowering.call_plain lowered
    | _ => cases lowered
  | ret pos results =>
    rw [stmt] at lowered
    obtain ⟨values, _, finished⟩ := bind_eq_ok.mp lowered
    cases finished
    rfl
  | decl | other => cases lowered

end

theorem elementary_neverRepeats (scopes : Scopes) {source : SourceStmt}
    (elementary : source.isElementary = true) :
    (lowering.elementary target inputs scopes source).NeverRepeats := by
  rintro machine after ⟨result, behind, lowered, ran⟩
  exact Stmt.runs_neverRepeats target inputs (lowering.stmt_plain elementary lowered)
    machine after ran

theorem elementary_of_ok {source : SourceStmt}
    (lowered : lowering.stmt scopes source = .ok (result, after)) :
    lowering.elementary target inputs scopes source = Stmt.runs target inputs result := by
  ext machine exit after
  constructor
  · rintro ⟨_, _, found, ran⟩
    rw [lowered] at found
    cases found
    exact ran
  · intro ran
    exact ⟨result, _, lowered, ran⟩

mutual

theorem effect_neverRepeats (source : SourceStmt) (scopes : Scopes) (headed : source.headed = true)
    (passed : source.continues = false) :
    (lowering.effect target inputs scopes source).NeverRepeats := by
  cases source with
  | block pos body => exact effects_neverRepeat body scopes.enter headed passed
  | branch pos init cond bodyPos body orElse =>
    simp only [SourceStmt.headed, Bool.and_eq_true] at headed
    simp only [SourceStmt.continues, Bool.or_eq_false_iff] at passed
    rw [effect]
    refine (effects_neverRepeat init _ headed.1.1 passed.1.1).andThen (.choice ?_ ?_)
    · exact effects_neverRepeat body _ headed.1.2 passed.1.2
    · exact effects_neverRepeat orElse _ headed.2 passed.2
  | loop pos init cond post bodyPos body =>
    simp only [SourceStmt.headed, Bool.and_eq_true, Bool.not_eq_true'] at headed
    rw [effect]
    exact (effects_neverRepeat init _ headed.1.1.2 headed.1.1.1).andThen .loop
  | jump pos keyword label =>
    have another : keyword ≠ "continue" := of_decide_eq_false passed
    rw [effect, if_neg another]
    rintro machine after ⟨repeated, _⟩
    cases repeated
  | _ => exact lowering.elementary_neverRepeats target inputs scopes rfl

theorem effects_neverRepeat (sources : List SourceStmt) (scopes : Scopes)
    (headed : SourceStmt.headedAll sources = true)
    (passed : SourceStmt.continuesAll sources = false) :
    (lowering.effects target inputs scopes sources).NeverRepeats := by
  cases sources with
  | nil =>
    rintro machine after ⟨repeated, _⟩
    cases repeated
  | cons first rest =>
    rw [SourceStmt.headedAll, Bool.and_eq_true] at headed
    rw [SourceStmt.continuesAll, Bool.or_eq_false_iff] at passed
    rw [effects]
    exact (effect_neverRepeats first scopes headed.1 passed.1).andThen
      (effects_neverRepeat rest _ headed.2 passed.2)

end

theorem otherwise_block (span : Span) (body : List Stmt) :
    (Stmt.block span body).otherwise target inputs = Stmt.runs target inputs body := by
  rw [← Stmt.executes_block target inputs span]
  ext machine exit after
  exact or_iff_left fun missing => nomatch missing.1

theorem otherwise_alternative {sources : List SourceStmt}
    (lowered : lowering.stmts scopes sources = .ok (result, after)) :
    (alternative sources result).otherwise target inputs = Stmt.runs target inputs result := by
  unfold alternative
  split
  · cases lowered
    ext machine exit after
    constructor
    · rintro (executed | ⟨_, ended⟩)
      · cases executed
      · exact ended
    · intro ended
      exact .inr ⟨rfl, ended⟩
  · rw [stmts] at lowered
    obtain ⟨one, between, others, blockLowered, nothing, whole⟩ := inTurn_eq_ok lowered
    rw [stmt] at blockLowered
    obtain ⟨⟨inner, inside⟩, _, finished⟩ := bind_eq_ok.mp blockLowered
    cases finished
    cases nothing
    cases whole
    rw [Stmt.runs_singleton, Stmt.executes_block, otherwise_block]
  · exact otherwise_block target inputs {} result

theorem behind_of_ok {sources : List SourceStmt}
    (lowered : lowering.stmts scopes sources = .ok (result, after)) :
    lowering.behind scopes sources = after := by
  rw [behind, lowered]

theorem condition_of_ok (cond : Option SourceExpr) {value : Expr}
    (lowered : cond.elim (.ok (.ofBool true)) (lowering.expr scopes) = .ok value) :
    lowering.condition scopes cond = value := by
  cases cond with
  | none =>
    cases lowered
    rfl
  | some source =>
    rw [Option.elim_some] at lowered
    rw [condition, lowered]
    rfl

mutual

theorem stmt_runs (source : SourceStmt) {scopes after : Scopes} {bindings : Bindings}
    (agrees : Agrees scopes bindings) (headed : source.headed = true) {result : List Stmt}
    (lowered : lowering.stmt scopes source = .ok (result, after)) :
    Stmt.runs target inputs result = lowering.effect target inputs scopes source := by
  cases source with
  | block pos body =>
    rw [stmt] at lowered
    obtain ⟨⟨inner, inside⟩, bodyLowered, finished⟩ := bind_eq_ok.mp lowered
    cases finished
    rw [effect, Stmt.runs_singleton, Stmt.executes_block]
    exact stmts_runs body agrees.enter headed bodyLowered
  | branch pos init cond bodyPos body orElse =>
    obtain ⟨first, header, value, yes, inside, no, behind, initLowered, condLowered, bodyLowered,
      elseLowered, noElse, rfl, rfl⟩ := lowering.branch_eq_ok lowered
    simp only [SourceStmt.headed, Bool.and_eq_true] at headed
    have inInit := lowering.stmts_follow init agrees.enter initLowered
    have inBody := lowering.stmts_follow body inInit.agrees.enter bodyLowered
    rw [effect, Stmt.runs_append, Stmt.runs_singleton, Stmt.executes_branch, Stmt.executes_block,
      lowering.otherwise_alternative target inputs elseLowered, lowering.behind_of_ok initLowered,
      lowering.behind_of_ok bodyLowered, ← inBody.leave_eq,
      lowering.condition_of_ok (some cond) condLowered,
      stmts_runs init agrees.enter headed.1.1 initLowered,
      stmts_runs body inInit.agrees.enter headed.1.2 bodyLowered,
      stmts_runs orElse (inBody.leave inInit.agrees).agrees headed.2 elseLowered]
  | loop pos init cond post bodyPos body =>
    obtain ⟨first, header, value, rounds, inside, last, behind, initLowered, condLowered,
      bodyLowered, postLowered, passed, rfl, rfl⟩ := lowering.loop_eq_ok lowered
    simp only [SourceStmt.headed, Bool.and_eq_true] at headed
    have inInit := lowering.stmts_follow init agrees.enter initLowered
    have inBody := lowering.stmts_follow body inInit.agrees.enter bodyLowered
    have last : (lowering.effects target inputs header.enter body).NeverRepeats ∨
        lowering.effects target inputs inside.leave post = Effect.done := by
      by_cases empty : post = []
      · exact .inr (by rw [empty, effects])
      · exact .inl (lowering.effects_neverRepeat target inputs body _ headed.2 (passed empty))
    rw [effect, Stmt.runs_append, Stmt.runs_singleton, Stmt.executes_loop, Stmt.executes_block,
      Stmt.runs_append, lowering.behind_of_ok initLowered,
      lowering.behind_of_ok bodyLowered, ← inBody.leave_eq,
      lowering.condition_of_ok cond condLowered,
      stmts_runs init agrees.enter headed.1.1.2 initLowered,
      stmts_runs body inInit.agrees.enter headed.2 bodyLowered,
      stmts_runs post (inBody.leave inInit.agrees).agrees headed.1.2 postLowered,
      Effect.loop_andThen last]
  | jump pos keyword label =>
    rw [effect]
    obtain ⟨_, ⟨rfl, rfl⟩ | ⟨rfl, rfl⟩⟩ := lowering.jump_eq_ok lowered
    · rw [Stmt.runs_singleton, Stmt.executes_brk]
      rfl
    · rw [Stmt.runs_singleton, Stmt.executes_cont]
      rfl
  | _ => exact (lowering.elementary_of_ok target inputs lowered).symm

theorem stmts_runs (sources : List SourceStmt) {scopes after : Scopes} {bindings : Bindings}
    (agrees : Agrees scopes bindings) (headed : SourceStmt.headedAll sources = true)
    {result : List Stmt} (lowered : lowering.stmts scopes sources = .ok (result, after)) :
    Stmt.runs target inputs result = lowering.effects target inputs scopes sources := by
  cases sources with
  | nil =>
    cases lowered
    rfl
  | cons first rest =>
    rw [stmts] at lowered
    obtain ⟨one, between, others, firstLowered, othersLowered, rfl⟩ := inTurn_eq_ok lowered
    rw [SourceStmt.headedAll, Bool.and_eq_true] at headed
    have inFirst := lowering.stmt_follows first agrees firstLowered
    have found : lowering.behind scopes [first] = between := by
      rw [behind, stmts, firstLowered]
      rfl
    rw [effects, Stmt.runs_append, stmt_runs first agrees headed.1 firstLowered, found,
      stmts_runs rest inFirst.agrees headed.2 othersLowered]

end

end Lowering

namespace SourceFile

variable {name text : String} {file : SourceFile} {lowering : Lowering} {decl : FunctionDecl}
variable {function : Function}

end SourceFile

end Source

end Reachability
