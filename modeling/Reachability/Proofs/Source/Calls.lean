import Mathlib
import Reachability.Proofs.Source.Naming
import Reachability.Verification.Functions

/-!
# Calls in lowered functions

A call stands for itself in the lowered program, unless its function has a
meaning of its own: then it becomes an arbitrary value, an assumption or nothing.
So the calls of a function that has no such meaning are all kept, apart from those
written in types, and of a function that has one none is.
-/

namespace Reachability

namespace Stmt

/-- Whether a statement is itself a call of a function. -/
def isCallOf (name : String) : Stmt → Bool
  | call _ _ callee _ => callee = name
  | _ => false

/-- The number of statements in a program that call a function. -/
def callCount (name : String) (program : Stmt) : Nat := program.all.countP (isCallOf name)

def callCountAll (name : String) (body : List Stmt) : Nat :=
  (nestedAll (fun _ => true) body).countP (isCallOf name)

variable (name : String)

@[simp] theorem callCountAll_nil : callCountAll name [] = 0 := rfl

@[simp] theorem callCountAll_cons (first : Stmt) (rest : List Stmt) :
    callCountAll name (first :: rest) = first.callCount name + callCountAll name rest := by
  simp [callCountAll, callCount, all, nestedAll]

@[simp] theorem callCountAll_append (first second : List Stmt) :
    callCountAll name (first ++ second) = callCountAll name first + callCountAll name second := by
  induction first with
  | nil => simp
  | cons stmt rest induction => simp [induction, Nat.add_assoc]

@[simp] theorem callCount_block (span : Span) (body : List Stmt) :
    (block span body).callCount name = callCountAll name body := by
  simp [callCount, callCountAll, all, nested, isCallOf]

@[simp] theorem callCount_branch (span : Span) (cond : Expr) (yes no : Stmt) :
    (branch span cond yes no).callCount name = yes.callCount name + no.callCount name := by
  simp [callCount, all, nested, isCallOf]

@[simp] theorem callCount_loop (span : Span) (cond : Expr) (body : Stmt) :
    (loop span cond body).callCount name = body.callCount name := by
  simp [callCount, all, nested, isCallOf]

@[simp] theorem callCount_call (span : Span) (result callee : String) (args : List Expr) :
    (call span result callee args).callCount name = if callee = name then 1 else 0 := by
  by_cases same : callee = name <;> simp [callCount, all, nested, isCallOf, same]

@[simp] theorem callCount_missing : missing.callCount name = 0 := rfl

@[simp] theorem callCount_assign (span : Span) (var : String) (value : Expr) :
    (assign span var value).callCount name = 0 := rfl

@[simp] theorem callCount_assume (span : Span) (cond : Expr) :
    (assume span cond).callCount name = 0 := rfl

@[simp] theorem callCount_skip (span : Span) : (skip span).callCount name = 0 := rfl

end Stmt

namespace Source

namespace SourceExpr

variable (target : String)

@[simp] theorem callsOfAll_append (first second : List SourceExpr) :
    callsOfAll target (first ++ second) = callsOfAll target first + callsOfAll target second := by
  induction first with
  | nil => simp [callsOfAll]
  | cons expr rest induction => simp [callsOfAll, induction, Nat.add_assoc]

@[simp] theorem callsOfAll_nil : callsOfAll target [] = 0 := by rw [callsOfAll]

@[simp] theorem callsOfAll_singleton (expr : SourceExpr) :
    callsOfAll target [expr] = expr.callsOf target := by
  simp [callsOfAll]

end SourceExpr

namespace SourceStmt

mutual

/-- The types that are written in a statement and in those inside it. -/
def types : SourceStmt → List SourceExpr
  | block _ body => typesAll body
  | empty | assign _ _ _ | step _ _ | decl _ _ | expr _ | jump _ _ _ | ret _ _ | other _ _ _ => []
  | vars _ specs => specs.flatMap fun spec => spec.type.toList
  | branch _ init _ _ body alternative => typesAll init ++ typesAll body ++ typesAll alternative
  | loop _ init _ post _ body => typesAll init ++ typesAll post ++ typesAll body

def typesAll : List SourceStmt → List SourceExpr
  | [] => []
  | first :: rest => first.types ++ typesAll rest

end

end SourceStmt

namespace FunctionDecl

/-- The number of calls of a function in a declaration, those in types included. -/
def callsOf (target : String) (decl : FunctionDecl) : Nat :=
  SourceExpr.callsOfAll target decl.types +
    ((decl.body.map fun body => SourceExpr.callsOfAll target (SourceStmt.exprsAll body.2)).getD 0)

/-- The number of calls of a function in the types of a declaration. -/
def callsInTypes (target : String) (decl : FunctionDecl) : Nat :=
  SourceExpr.callsOfAll target decl.types +
    ((decl.body.map fun body => SourceExpr.callsOfAll target (SourceStmt.typesAll body.2)).getD 0)

end FunctionDecl

namespace Lowering

variable (lowering : Lowering) {target : String} {scopes after : Scopes} {pos : Nat} {name : String}
variable {declared : Bool} {result : List Stmt}

/-- Whether the calls of a function have a meaning of their own. -/
def isSpecial (name : String) : Bool := lowering.isAssume name || lowering.isNondet name

/-- The calls of a function in a lowered part of the source: if they have a meaning of their own
there are none, and otherwise there are those of the source that are not written in types. -/
structure Keeps (target : String) (exprs types : List SourceExpr) (calls : Nat) : Prop where
  none : lowering.isSpecial target = true → calls = 0
  all : lowering.isSpecial target = false →
    calls + SourceExpr.callsOfAll target types = SourceExpr.callsOfAll target exprs

variable {lowering}

theorem isNondet_eq (name : String) : lowering.isNondet name =
    decide (lowering.nondetPrefix ≠ "" ∧ lowering.nondetPrefix.toList <+: name.toList) := by
  rw [Bool.eq_iff_iff]
  simp [isNondet, String.startsWith_string_iff]

theorem isNondet_of_not_special (ordinary : lowering.isSpecial name = false) :
    lowering.isNondet name = false := by
  rw [isSpecial, Bool.or_eq_false_iff] at ordinary
  exact ordinary.2

theorem Keeps.nothing {exprs types : List SourceExpr}
    (same : lowering.isNondet target = false →
      SourceExpr.callsOfAll target types = SourceExpr.callsOfAll target exprs) :
    lowering.Keeps target exprs types 0 := by
  constructor
  · intro _
    rfl
  · intro ordinary
    rw [Nat.zero_add]
    exact same (isNondet_of_not_special ordinary)

theorem Keeps.append {exprs types moreExprs moreTypes : List SourceExpr} {calls more : Nat}
    (first : lowering.Keeps target exprs types calls)
    (second : lowering.Keeps target moreExprs moreTypes more) :
    lowering.Keeps target (exprs ++ moreExprs) (types ++ moreTypes) (calls + more) := by
  constructor
  · intro special
    rw [first.none special, second.none special]
  · intro ordinary
    have inFirst := first.all ordinary
    have inSecond := second.all ordinary
    rw [SourceExpr.callsOfAll_append, SourceExpr.callsOfAll_append]
    omega

variable (lowering)

theorem expr_calls (ordinary : lowering.isNondet target = false) {source : SourceExpr}
    {value : Expr}
    (lowered : lowering.expr scopes source = .ok value) : source.callsOf target = 0 := by
  fun_induction lowering.expr scopes source generalizing value with
  | case1 pos inner induction => exact induction lowered
  | case2 | case5 | case6 | case7 => rw [SourceExpr.callsOf]
  | case8 pos op operand literal negated =>
    cases operand with
    | literal => rw [SourceExpr.callsOf, SourceExpr.callsOf]
    | _ => simp [negatedLiteral?] at negated
  | case9 pos op operand notNegated induction =>
    obtain ⟨operandValue, operandLowered, _⟩ := bind_eq_ok.mp lowered
    exact induction operandLowered
  | case10 op left right operator known inLeft inRight =>
    obtain ⟨leftValue, leftLowered, rest⟩ := bind_eq_ok.mp lowered
    obtain ⟨rightValue, rightLowered, _⟩ := bind_eq_ok.mp rest
    rw [SourceExpr.callsOf, inLeft leftLowered, inRight rightLowered]
  | case12 pos called spread arbitrary =>
    have different : called ≠ target := by
      rintro rfl
      rw [ordinary] at arbitrary
      cases arbitrary
    simp [SourceExpr.callsOf, different]
  | _ => cases lowered

theorem exprs_calls (ordinary : lowering.isNondet target = false) {sources : List SourceExpr}
    {values : List Expr} (lowered : sources.mapM (lowering.expr scopes) = .ok values) :
    SourceExpr.callsOfAll target sources = 0 := by
  induction sources generalizing values with
  | nil => rw [SourceExpr.callsOfAll]
  | cons source rest induction =>
    rw [List.mapM_cons] at lowered
    obtain ⟨value, valueLowered, more⟩ := bind_eq_ok.mp lowered
    obtain ⟨others, othersLowered, _⟩ := bind_eq_ok.mp more
    rw [SourceExpr.callsOfAll, lowering.expr_calls ordinary valueLowered,
      induction othersLowered]

theorem expr_keeps {source : SourceExpr} {value : Expr}
    (lowered : lowering.expr scopes source = .ok value) :
    lowering.Keeps target [source] [] 0 := by
  apply Keeps.nothing
  intro ordinary
  rw [SourceExpr.callsOfAll_singleton, lowering.expr_calls ordinary lowered]
  rfl

/-- A call becomes itself exactly if it has no meaning of its own.  The result of a call that is an
arbitrary value is received elsewhere. -/
theorem call_keeps {fnPos : Nat} {called : String} {args : List SourceExpr} {spread : Bool}
    (direct : name = "" ∨ lowering.isNondet called = false)
    (lowered :
      lowering.call scopes pos name declared (.name fnPos called) args spread =
        .ok (result, after)) :
    lowering.Keeps target [.call (.name fnPos called) args spread] []
      (Stmt.callCountAll target result) := by
  unfold call at lowered
  dsimp only at lowered
  split at lowered
  · cases lowered
  obtain ⟨values, argsLowered, rest⟩ := bind_eq_ok.mp lowered
  have counted : Stmt.callCountAll target result =
      if called = target ∧ lowering.isSpecial called = false then 1 else 0 := by
    split at rest
    · rename_i assumes
      have special : lowering.isSpecial called = true := by simp [isSpecial, assumes]
      split at rest
      · split at rest
        · cases rest
          simp [special]
        · cases rest
      · cases rest
    · rename_i notAssumes
      split at rest
      · rename_i arbitrary
        rw [Bool.and_eq_true] at arbitrary
        have special : lowering.isSpecial called = true := by simp [isSpecial, arbitrary.1]
        cases rest
        simp [special]
      · rename_i kept
        have definite : lowering.isNondet called = false := by
          rcases direct with unnamed | definite
          · simpa [receiver, unnamed] using kept
          · exact definite
        have ordinary : lowering.isSpecial called = false := by
          simp [isSpecial, notAssumes, definite]
        cases rest
        simp [ordinary]
  rw [counted]
  constructor
  · intro special
    rw [if_neg]
    rintro ⟨rfl, ordinary⟩
    rw [special] at ordinary
    cases ordinary
  · intro ordinary
    have inArguments := lowering.exprs_calls (isNondet_of_not_special ordinary) argsLowered
    by_cases same : called = target
    · subst same
      simp [SourceExpr.callsOf, inArguments, ordinary]
    · simp [SourceExpr.callsOf, inArguments, same]

theorem assignment_keeps {source : SourceExpr}
    (lowered : lowering.assignment scopes pos name declared source = .ok (result, after)) :
    lowering.Keeps target [source] [] (Stmt.callCountAll target result) := by
  unfold assignment at lowered
  extract_lets plain at lowered
  have plainKeeps : plain = .ok (result, after) →
      lowering.Keeps target [source] [] (Stmt.callCountAll target result) := by
    intro plainLowered
    obtain ⟨value, valueLowered, rest⟩ := bind_eq_ok.mp plainLowered
    have none : Stmt.callCountAll target result = 0 := by
      dsimp only at rest
      generalize (receiver scopes name declared).1 = received at rest
      cases rest
      split <;> simp
    rw [none]
    exact lowering.expr_keeps valueLowered
  split at lowered
  · split at lowered
    · exact plainKeeps lowered
    · rename_i definite
      rw [Bool.not_eq_true] at definite
      exact lowering.call_keeps (.inr definite) lowered
  · exact plainKeeps lowered

theorem declarations_keep (target : String) {pairs : List (String × SourceExpr)}
    (lowered : lowering.declarations pos scopes pairs = .ok (result, after)) :
    lowering.Keeps target (pairs.map Prod.snd) [] (Stmt.callCountAll target result) := by
  induction pairs generalizing scopes result with
  | nil =>
    cases lowered
    exact .nothing fun _ => rfl
  | cons pair rest induction =>
    obtain ⟨first, between, others, firstLowered, othersLowered, rfl⟩ := inTurn_eq_ok lowered
    rw [Stmt.callCountAll_append]
    exact (lowering.assignment_keeps firstLowered).append (induction othersLowered)

theorem callCountAll_zeroDeclarations (target : String) (pos : Nat) (scopes : Scopes)
    (names : List String) :
    Stmt.callCountAll target (lowering.zeroDeclarations pos scopes names).1 = 0 := by
  induction names generalizing scopes with
  | nil => rfl
  | cons name rest induction =>
    unfold zeroDeclarations
    dsimp only
    rw [Stmt.callCountAll_append, induction, Nat.add_zero]
    split <;> simp

/-- The types of a declaration are not lowered, so the calls in them are lost. -/
theorem varSpecs_keep {specs : List VarSpec}
    (lowered : lowering.varSpecs pos scopes specs = .ok (result, after)) :
    lowering.Keeps target (specs.flatMap fun spec => spec.type.toList ++ spec.values)
      (specs.flatMap fun spec => spec.type.toList) (Stmt.callCountAll target result) := by
  induction specs generalizing scopes result with
  | nil =>
    cases lowered
    exact .nothing fun _ => rfl
  | cons spec rest induction =>
    obtain ⟨first, between, others, firstLowered, othersLowered, rfl⟩ := inTurn_eq_ok lowered
    have inType : lowering.Keeps target spec.type.toList spec.type.toList 0 := .nothing fun _ => rfl
    have inValues : lowering.Keeps target spec.values [] (Stmt.callCountAll target first) := by
      split at firstLowered
      · rename_i noValues
        rw [List.isEmpty_iff] at noValues
        rw [Except.ok.injEq] at firstLowered
        have none : Stmt.callCountAll target first = 0 := by
          have counted := lowering.callCountAll_zeroDeclarations target pos scopes spec.names
          rwa [firstLowered] at counted
        rw [none, noValues]
        exact .nothing fun _ => rfl
      · split at firstLowered
        · rename_i sameLength
          have keeps := lowering.declarations_keep target firstLowered
          rwa [List.map_snd_zip (Nat.le_of_eq sameLength)] at keeps
        · cases firstLowered
    have whole := (inType.append inValues).append (induction othersLowered)
    rw [Stmt.callCountAll_append]
    simpa using whole

theorem callCount_alternative {sources : List SourceStmt} {lowered : List Stmt}
    (empty : sources = [] → lowered = []) :
    (alternative sources lowered).callCount target = Stmt.callCountAll target lowered := by
  unfold alternative
  split
  · rw [empty rfl]
    rfl
  · simp
  · simp

mutual

theorem stmt_keeps (source : SourceStmt) {scopes after : Scopes} {result : List Stmt}
    (lowered : lowering.stmt scopes source = .ok (result, after)) :
    lowering.Keeps target source.exprs source.types (Stmt.callCountAll target result) := by
  cases source with
  | block pos body =>
    rw [stmt] at lowered
    obtain ⟨⟨inner, inside⟩, bodyLowered, finished⟩ := bind_eq_ok.mp lowered
    cases finished
    rw [SourceStmt.exprs, SourceStmt.types]
    simpa using stmts_keep body bodyLowered
  | empty =>
    cases lowered
    exact .nothing fun _ => rfl
  | assign op left right =>
    obtain ⟨pos, name, value, rfl, rfl, received⟩ := lowering.assign_eq_ok lowered
    rw [SourceStmt.exprs, SourceStmt.types]
    have inName : lowering.Keeps target [.name pos name] [] 0 := .nothing fun _ => rfl
    rcases received with ⟨_, received⟩ | ⟨_, operator, operand, valueLowered, rfl, rfl⟩
    · simpa using inName.append (lowering.assignment_keeps received)
    · exact inName.append (lowering.expr_keeps valueLowered)
  | step op operand =>
    cases operand with
    | name pos name =>
      cases lowered
      exact .nothing fun _ => rfl
    | _ => cases lowered
  | vars pos specs =>
    rw [SourceStmt.exprs, SourceStmt.types]
    exact lowering.varSpecs_keep lowered
  | decl pos parts | other pos kind parts => cases lowered
  | expr value =>
    cases value with
    | call fn args spread =>
      cases fn with
      | name fnPos called =>
        rw [stmt] at lowered
        rw [SourceStmt.exprs, SourceStmt.types]
        exact lowering.call_keeps (.inl rfl) lowered
      | _ => cases lowered
    | _ => cases lowered
  | branch pos init cond bodyPos body orElse =>
    obtain ⟨first, header, value, yes, inside, no, behind, initLowered, condLowered, bodyLowered,
      elseLowered, noElse, rfl, rfl⟩ := lowering.branch_eq_ok lowered
    have whole := (((stmts_keep init initLowered).append (lowering.expr_keeps condLowered)).append
      (stmts_keep body bodyLowered)).append (stmts_keep orElse elseLowered)
    rw [SourceStmt.exprs, SourceStmt.types]
    simpa [callCount_alternative noElse, Nat.add_assoc] using whole
  | loop pos init cond post bodyPos body =>
    obtain ⟨first, header, value, rounds, inside, last, behind, initLowered, condLowered,
      bodyLowered, postLowered, _, rfl, rfl⟩ := lowering.loop_eq_ok lowered
    have inCond : lowering.Keeps target cond.toList [] 0 := by
      cases cond with
      | none => exact .nothing fun _ => rfl
      | some source => exact lowering.expr_keeps condLowered
    have whole := (((stmts_keep init initLowered).append inCond).append
      (stmts_keep post postLowered)).append (stmts_keep body bodyLowered)
    rw [SourceStmt.exprs, SourceStmt.types]
    simpa [Nat.add_assoc, Nat.add_comm, Nat.add_left_comm] using whole
  | jump pos keyword label =>
    obtain ⟨_, ⟨_, rfl⟩ | ⟨_, rfl⟩⟩ := lowering.jump_eq_ok lowered
    · exact .nothing fun _ => rfl
    · exact .nothing fun _ => rfl
  | ret pos results =>
    rw [stmt] at lowered
    obtain ⟨values, resultsLowered, finished⟩ := bind_eq_ok.mp lowered
    cases finished
    apply Keeps.nothing
    intro ordinary
    rw [SourceStmt.exprs, SourceStmt.types, lowering.exprs_calls ordinary resultsLowered]
    rfl

theorem stmts_keep (sources : List SourceStmt) {scopes after : Scopes} {result : List Stmt}
    (lowered : lowering.stmts scopes sources = .ok (result, after)) :
    lowering.Keeps target (SourceStmt.exprsAll sources) (SourceStmt.typesAll sources)
      (Stmt.callCountAll target result) := by
  cases sources with
  | nil =>
    cases lowered
    exact .nothing fun _ => rfl
  | cons first rest =>
    rw [stmts] at lowered
    obtain ⟨one, between, others, firstLowered, othersLowered, rfl⟩ := inTurn_eq_ok lowered
    rw [SourceStmt.exprsAll, SourceStmt.typesAll, Stmt.callCountAll_append]
    exact (stmt_keeps first firstLowered).append (stmts_keep rest othersLowered)

end

end Lowering

namespace SourceFile

variable {file : SourceFile} {decl : FunctionDecl} {function : Function}

theorem lower_keeps {lowering : Lowering} (target : String)
    (accepted : file.lower lowering decl = .ok function) :
    (lowering.isSpecial target = true → function.body.callCount target = 0) ∧
      (lowering.isSpecial target = false →
        function.body.callCount target + decl.callsInTypes target = decl.callsOf target) := by
  obtain ⟨pos, sources, result, behind, found, lowered, body⟩ := lower_eq_ok accepted
  have inBody : lowering.Keeps target _ _ _ := lowering.stmts_keep sources lowered
  rw [body, Stmt.callCount_block]
  refine ⟨inBody.none, ?_⟩
  intro ordinary
  have counted := inBody.all ordinary
  simp only [FunctionDecl.callsInTypes, FunctionDecl.callsOf, found, Option.map_some,
    Option.getD_some]
  omega

/-- The calls of the target function in a lowered function are all those in the source that are not
written in types, unless the configuration gives its calls another meaning: then none is left. -/
theorem target_calls_kept {spec : AnalysisSpec} {labels : List (Nat × String)}
    (accepted : file.lower (.ofSpec spec labels) decl = .ok function) :
    ((Lowering.ofSpec spec labels).isSpecial spec.targetFunction = true →
        function.body.callCount spec.targetFunction = 0) ∧
      ((Lowering.ofSpec spec labels).isSpecial spec.targetFunction = false →
        function.body.callCount spec.targetFunction + decl.callsInTypes spec.targetFunction =
          decl.callsOf spec.targetFunction) :=
  lower_keeps spec.targetFunction accepted

/-- A function that calls the target for the values of two variables and after each round of a loop,
next to calls that are arbitrary values or assumptions. -/
def callsOften : FunctionDecl :=
  { pos := 1, name := "callsOften", receiver := none, params := ["n"], types := [.name 2 "int"]
    body := some (9, [
      .assign ":=" [.name 10 "x"] [.call (.name 11 "__VERIFIER_nondet_int") [] false],
      .expr (.call (.name 12 "__VERIFIER_assume")
        [.binary ">" (.name 13 "x") (.name 14 "n")] false),
      .loop 20 [.assign ":=" [.name 21 "y"] [.call (.name 22 "reach_error") [.name 23 "x"] false]]
        none [.expr (.call (.name 24 "reach_error") [] false)] 25
        [.vars 26 [⟨["u", "v"], some (.name 27 "int"),
          [.name 28 "x", .call (.name 29 "reach_error") [] false]⟩], .jump 30 "break" none]]) }

theorem callsOften_accepted :
    ∃ function, (single callsOften).lower (.ofSpec {} []) callsOften = .ok function := by
  apply Exists.intro
  simp only [lower, callsOften, Lowering.body, Lowering.stmts, Lowering.stmt, Lowering.assignment,
    Lowering.call, Lowering.varSpecs, Lowering.expr, Lowering.isNondet_eq]
  rfl

theorem target_calls_kept_callsOften :
    ∃ function, (single callsOften).lower (.ofSpec {} []) callsOften = .ok function ∧
      (Lowering.ofSpec {} []).isSpecial "reach_error" = false ∧
      function.body.callCount "reach_error" = 3 := by
  obtain ⟨function, accepted⟩ := callsOften_accepted
  have ordinary : (Lowering.ofSpec {} []).isSpecial "reach_error" = false := by
    rw [Lowering.isSpecial, Lowering.isNondet_eq]
    rfl
  exact ⟨function, accepted, ordinary, (target_calls_kept accepted).2 ordinary⟩

/-- A valid configuration in which the calls of the target function are arbitrary values. -/
def arbitraryTarget : Config := { analysis := { nondetPrefix := "reach" } }

/-- A function that does nothing but call the target function. -/
def callsTarget : FunctionDecl :=
  { pos := 1, name := "callsTarget", receiver := none, params := [], types := []
    body := some (2, [.expr (.call (.name 3 "reach_error") [] false)]) }

theorem callsTarget_lost :
    arbitraryTarget.validate = .ok () ∧
      ∃ function,
        (single callsTarget).lower
          (.ofSpec arbitraryTarget.analysis []) callsTarget = .ok function ∧
        callsTarget.callsOf arbitraryTarget.analysis.targetFunction = 1 ∧
        function.body.callCount arbitraryTarget.analysis.targetFunction = 0 ∧
        function.body.callsFunction arbitraryTarget.analysis.targetFunction = false := by
  refine ⟨rfl, { name := "callsTarget", pos := 1, body := .block ⟨2, ""⟩ [.skip ⟨3, ""⟩] }, ?_, ?_⟩
  · simp only [lower, callsTarget, Lowering.body, Lowering.stmts, Lowering.stmt, Lowering.call,
      Lowering.isNondet_eq]
    rfl
  · decide

end SourceFile

end Source

end Reachability
