import Mathlib
import Reachability.Proofs.Source.Scoping

/-!
# Names of variables in lowered functions

Lowering keeps a stack of blocks with the names that it gives.  Next to the
rules of scopes, the names on the stack are those of the visible variables, and
the variables that the lowered function mentions are the occurrences in the
source, each under the name of its variable.  There are two exceptions: words
for truth values become constants, and a value in a line of declarations sees
the variables further left in the line already.
-/

namespace Reachability

/-- The variables in an expression with their places, from left to right. -/
def Expr.mentions : Expr → List (Nat × String)
  | .var pos name => [(pos, name)]
  | .unary _ _ operand => operand.mentions
  | .binary _ _ left right => left.mentions ++ right.mentions
  | _ => []

namespace Stmt

mutual

/-- The variables that a program reads and assigns, with their places, in the order of the text.
What a statement reads stands in front of what it assigns. -/
def mentions : Stmt → List (Nat × String)
  | block _ body => mentionsAll body
  | assign span var value => value.mentions ++ [(span.pos, var)]
  | branch _ cond yes no => cond.mentions ++ yes.mentions ++ no.mentions
  | loop _ cond body => cond.mentions ++ body.mentions
  | call span result _ args =>
    args.flatMap Expr.mentions ++ if result = "" then [] else [(span.pos, result)]
  | assume _ cond => cond.mentions
  | _ => []

def mentionsAll : List Stmt → List (Nat × String)
  | [] => []
  | first :: rest => first.mentions ++ mentionsAll rest

end

@[simp] theorem mentionsAll_singleton (stmt : Stmt) : mentionsAll [stmt] = stmt.mentions := by
  simp [mentionsAll]

@[simp] theorem mentionsAll_append (first second : List Stmt) :
    mentionsAll (first ++ second) = mentionsAll first ++ mentionsAll second := by
  induction first with
  | nil => rfl
  | cons stmt rest induction => simp [mentionsAll, induction]

end Stmt

namespace Source

theorem bind_eq_ok {ε α β : Type} {first : Except ε α} {next : α → Except ε β} {result : β} :
    (first >>= next) = .ok result ↔ ∃ value, first = .ok value ∧ next value = .ok result := by
  cases first with
  | error error | ok value => simp [bind, Except.bind]

theorem Lowering.inTurn_eq_ok {first : Result} {second : Scopes → Result} {result : List Stmt}
    {after : Scopes} (lowered : inTurn first second = .ok (result, after)) :
    ∃ ahead between behind, first = .ok (ahead, between) ∧ second between = .ok (behind, after) ∧
      result = ahead ++ behind := by
  obtain ⟨⟨ahead, between⟩, isFirst, more⟩ := bind_eq_ok.mp lowered
  obtain ⟨⟨behind, _⟩, isSecond, finished⟩ := bind_eq_ok.mp more
  cases finished
  exact ⟨ahead, between, behind, isFirst, isSecond, rfl⟩

def Variable.lowered : Variable → String
  | own name number => if number = 0 then name else name ++ "#" ++ toString number
  | outer name => name

theorem Bindings.lowered_find_ne_empty (bindings : Bindings) {name : String} (named : name ≠ "") :
    (bindings.find name).lowered ≠ "" := by
  unfold find
  split
  · rw [Variable.lowered]
    split
    · exact named
    · simp
  · exact named

namespace Use

/-- What the lowered program mentions for occurrences. -/
def mentions (uses : List Use) : List (Nat × String) :=
  (uses.filter fun use => !use.truth).map fun use => (use.pos, use.taken.lowered)

@[simp] theorem mentions_append (first second : List Use) :
    mentions (first ++ second) = mentions first ++ mentions second := by
  simp [mentions]

end Use

/-- The names of the visible variables in the order of the stack. -/
def Bindings.names (bindings : Bindings) : List (String × String) :=
  bindings.visible.map fun (name, number) => (name, (Variable.own name number).lowered)

theorem Bindings.lookup_names (bindings : Bindings) (name : String) :
    (bindings.names.lookup name).getD name = (bindings.find name).lowered := by
  unfold names find
  induction bindings.visible with
  | nil => rfl
  | cons entry rest induction =>
    obtain ⟨other, number⟩ := entry
    rw [List.map_cons, List.lookup_cons, List.lookup_cons]
    by_cases same : name = other
    · simp [same]
    · rw [beq_false_of_ne same]
      exact induction

theorem Bindings.find_declare (bindings : Bindings) (name : String) :
    (bindings.declare name).find name = .own name (bindings.declared.count name) := by
  simp [find, declare]

/-- The stack of lowering fits the bindings at a point. -/
structure Agrees (scopes : Scopes) (bindings : Bindings) : Prop where
  declared : scopes.declared = bindings.declared
  names : scopes.blocks.flatten = bindings.names

namespace Agrees

variable {scopes : Scopes} {bindings : Bindings}

theorem enter (agrees : Agrees scopes bindings) : Agrees scopes.enter bindings := by
  constructor
  · exact agrees.declared
  · exact agrees.names

theorem resolve (agrees : Agrees scopes bindings) (name : String) :
    scopes.resolve name = (bindings.find name).lowered := by
  have flattened : ∀ blocks : List (List (String × String)),
      (blocks.findSome? fun block => block.lookup name) = blocks.flatten.lookup name := by
    intro blocks
    induction blocks with
    | nil => rfl
    | cons block rest induction =>
      rw [List.findSome?_cons, List.flatten_cons, List.lookup_append, induction]
      cases block.lookup name with
      | none => rfl
      | some found => rfl
  unfold Scopes.resolve
  rw [flattened, agrees.names]
  exact bindings.lookup_names name

theorem nextName (agrees : Agrees scopes bindings) (name : String) :
    scopes.nextName name = (Variable.own name (bindings.declared.count name)).lowered := by
  rw [Scopes.nextName, agrees.declared]
  rfl

theorem declare (agrees : Agrees scopes bindings) (name : String) :
    Agrees (scopes.declare name) (bindings.declare name) := by
  constructor
  · exact congrArg (name :: ·) agrees.declared
  · have fits := agrees.names
    unfold Scopes.declare Bindings.declare Bindings.names
    rw [agrees.nextName]
    cases found : scopes.blocks with
    | nil | cons block rest =>
      rw [found] at fits
      simpa [Bindings.names] using fits

end Agrees

theorem drop_blocks_declare (scopes : Scopes) (name : String) :
    (scopes.declare name).blocks.drop 1 = scopes.blocks.drop 1 := by
  unfold Scopes.declare
  cases scopes.blocks with
  | nil => rfl
  | cons block rest => rfl

/-- A part of a function has been lowered as the rules of scopes have it: it mentions its
occurrences, and the stack behind it fits the bindings behind it.  Only the innermost block has
changed. -/
structure Follows (scopes : Scopes) (lowered : List (Nat × String) × Scopes)
    (found : List Use × Bindings) : Prop where
  mentions : lowered.1 = Use.mentions found.1
  agrees : Agrees lowered.2 found.2
  framed : lowered.2.blocks.drop 1 = scopes.blocks.drop 1

namespace Follows

variable {scopes after : Scopes} {names : List (Nat × String)} {uses : List Use}
variable {bindings behind : Bindings}

theorem keep (agrees : Agrees scopes bindings) (mentions : names = Use.mentions uses) :
    Follows scopes (names, scopes) (uses, bindings) := by
  constructor
  · exact mentions
  · exact agrees
  · rfl

theorem append {first second : List (Nat × String) × Scopes}
    {firstFound found : List Use × Bindings}
    (firstFollows : Follows scopes first firstFound) (follows : Follows first.2 second found) :
    Follows scopes (first.1 ++ second.1, second.2) (firstFound.1 ++ found.1, found.2) := by
  constructor
  · rw [Use.mentions_append, ← firstFollows.mentions, ← follows.mentions]
  · exact follows.agrees
  · exact follows.framed.trans firstFollows.framed

theorem leave (inner : Follows scopes.enter (names, after) (uses, behind))
    (agrees : Agrees scopes bindings) :
    Follows scopes (names, after.leave) (uses, behind.endScope bindings) := by
  have blocks : after.leave.blocks = scopes.blocks := inner.framed
  constructor
  · exact inner.mentions
  · constructor
    · exact inner.agrees.declared
    · rw [blocks]
      exact agrees.names
  · rw [blocks]

end Follows

namespace Lowering

variable (lowering : Lowering) {scopes after : Scopes} {before now bindings : Bindings}
variable {pos : Nat} {name : String} {declared : Bool} {source : SourceExpr} {value : Expr}
  {result : List Stmt}

section

variable {result : List Stmt} {bodyPos : Nat} {init body orElse post : List SourceStmt}

theorem assign_eq_ok {op : String} {left right : List SourceExpr}
    (lowered : lowering.stmt scopes (.assign op left right) = .ok (result, after)) :
    ∃ pos name value, left = [.name pos name] ∧ right = [value] ∧
      ((op = "=" || op = ":=") = true ∧
          lowering.assignment scopes pos name (op = ":=") value = .ok (result, after) ∨
        ¬(op = "=" || op = ":=") = true ∧
          ∃ operator operand, lowering.expr scopes value = .ok operand ∧
            result = [lowering.update scopes pos operator pos name operand] ∧ after = scopes) := by
  match left, right with
  | [.name pos name], [value] =>
    rw [stmt] at lowered
    refine ⟨pos, name, value, rfl, rfl, ?_⟩
    split at lowered
    · rename_i plain
      exact .inl ⟨plain, lowered⟩
    · rename_i changing
      split at lowered
      · obtain ⟨operand, valueLowered, finished⟩ := bind_eq_ok.mp lowered
        cases finished
        exact .inr ⟨changing, _, operand, valueLowered, rfl, rfl⟩
      · cases lowered
  | [.literal ..], [_] | [.paren ..], [_] | [.unary ..], [_] | [.binary ..], [_] | [.call ..], [_]
  | [.channel ..], [_] | [.other ..], [_] => cases lowered
  | [], _ | _ :: _ :: _, _ | [_], [] | [_], _ :: _ :: _ => cases lowered

theorem branch_eq_ok {cond : SourceExpr}
    (lowered :
      lowering.stmt scopes (.branch pos init cond bodyPos body orElse) = .ok (result, after)) :
    ∃ first header value yes inside no behind,
      lowering.stmts scopes.enter init = .ok (first, header) ∧
      lowering.expr header cond = .ok value ∧
      lowering.stmts header.enter body = .ok (yes, inside) ∧
      lowering.stmts inside.leave orElse = .ok (no, behind) ∧
      (orElse = [] → no = []) ∧
      result = first ++ [.branch (lowering.spanAt pos) value (.block (lowering.spanAt bodyPos) yes)
        (alternative orElse no)] ∧
      after = behind.leave := by
  rw [stmt] at lowered
  obtain ⟨⟨first, header⟩, initLowered, afterInit⟩ := bind_eq_ok.mp lowered
  obtain ⟨value, condLowered, afterCond⟩ := bind_eq_ok.mp afterInit
  obtain ⟨⟨yes, inside⟩, bodyLowered, afterBody⟩ := bind_eq_ok.mp afterCond
  obtain ⟨⟨no, behind⟩, elseLowered, finished⟩ := bind_eq_ok.mp afterBody
  cases finished
  refine ⟨_, _, _, _, _, _, _, initLowered, condLowered, bodyLowered, elseLowered, ?_, rfl, rfl⟩
  rintro rfl
  cases elseLowered
  rfl

/-- A loop without a condition has a constant one.  A body that continues the loop is refused if
there is a last statement. -/
theorem loop_eq_ok {cond : Option SourceExpr}
    (lowered : lowering.stmt scopes (.loop pos init cond post bodyPos body) = .ok (result, after)) :
    ∃ first header value rounds inside last behind,
      lowering.stmts scopes.enter init = .ok (first, header) ∧
      cond.elim (.ok (.ofBool true)) (lowering.expr header) = .ok value ∧
      lowering.stmts header.enter body = .ok (rounds, inside) ∧
      lowering.stmts inside.leave post = .ok (last, behind) ∧
      (post ≠ [] → SourceStmt.continuesAll body = false) ∧
      result = first ++ [.loop (lowering.spanAt pos) value
        (.block (lowering.spanAt bodyPos) (rounds ++ last))] ∧
      after = behind.leave := by
  rw [stmt] at lowered
  obtain ⟨⟨first, header⟩, initLowered, afterInit⟩ := bind_eq_ok.mp lowered
  obtain ⟨value, condLowered, afterCond⟩ := bind_eq_ok.mp afterInit
  obtain ⟨⟨rounds, inside⟩, bodyLowered, afterBody⟩ := bind_eq_ok.mp afterCond
  dsimp only at afterBody
  split at afterBody
  · cases afterBody
  rename_i accepted
  obtain ⟨⟨last, behind⟩, postLowered, finished⟩ := bind_eq_ok.mp afterBody
  cases finished
  refine ⟨_, _, value, _, _, _, _, initLowered, ?_, bodyLowered, postLowered, ?_, rfl, rfl⟩
  · cases cond with
    | none | some source => exact condLowered
  · simpa using accepted

theorem jump_eq_ok {keyword : String} {label : Option String}
    (lowered : lowering.stmt scopes (.jump pos keyword label) = .ok (result, after)) :
    after = scopes ∧
      (keyword = "break" ∧ result = [.brk (lowering.spanAt pos)] ∨
        keyword = "continue" ∧ result = [.cont (lowering.spanAt pos)]) := by
  rw [stmt] at lowered
  split at lowered
  · cases lowered
  · split at lowered
    · cases lowered
      exact ⟨rfl, .inl ⟨‹_›, rfl⟩⟩
    · split at lowered
      · cases lowered
        exact ⟨rfl, .inr ⟨‹_›, rfl⟩⟩
      · cases lowered

end

@[simp] theorem pos_spanAt : (lowering.spanAt pos).pos = pos := rfl

/-- An expression is lowered with the variables visible behind those further left in its line. -/
theorem expr_mentions (agrees : Agrees scopes now) (before : Bindings)
    (lowered : lowering.expr scopes source = .ok value) :
    value.mentions = Use.mentions (source.uses before now) := by
  fun_induction lowering.expr scopes source generalizing value with
  | case1 pos inner induction => exact induction lowered
  | case2 | case5 | case6 | case12 =>
    cases lowered
    rfl
  | case7 pos name notTrue notFalse =>
    cases lowered
    simp [Expr.mentions, SourceExpr.uses, Use.mentions, Use.taken, notTrue, notFalse,
      agrees.resolve]
  | case8 pos op operand literal negated =>
    cases lowered
    cases operand with
    | literal => rfl
    | _ => simp [negatedLiteral?] at negated
  | case9 pos op operand notNegated induction =>
    obtain ⟨operandValue, operandLowered, finished⟩ := bind_eq_ok.mp lowered
    have inOperand := induction operandLowered
    split at finished
    · cases finished
      exact inOperand
    · cases finished
      exact inOperand
    · cases finished
      exact inOperand
    · cases finished
  | case10 op left right operator known inLeft inRight =>
    obtain ⟨leftValue, leftLowered, rest⟩ := bind_eq_ok.mp lowered
    obtain ⟨rightValue, rightLowered, finished⟩ := bind_eq_ok.mp rest
    cases finished
    rw [Expr.mentions, SourceExpr.uses, Use.mentions_append, inLeft leftLowered,
      inRight rightLowered]
  | _ => cases lowered

theorem exprs_mentions (agrees : Agrees scopes now) (before : Bindings) {sources : List SourceExpr}
    {values : List Expr} (lowered : sources.mapM (lowering.expr scopes) = .ok values) :
    values.flatMap Expr.mentions = Use.mentions (sources.flatMap (SourceExpr.uses before now)) := by
  induction sources generalizing values with
  | nil =>
    cases lowered
    rfl
  | cons source rest induction =>
    rw [List.mapM_cons] at lowered
    obtain ⟨value, valueLowered, more⟩ := bind_eq_ok.mp lowered
    obtain ⟨others, othersLowered, finished⟩ := bind_eq_ok.mp more
    cases finished
    rw [List.flatMap_cons, List.flatMap_cons, Use.mentions_append, induction othersLowered,
      lowering.expr_mentions agrees before valueLowered]

theorem condition_mentions (agrees : Agrees scopes now) (before : Bindings)
    {cond : Option SourceExpr}
    (lowered : cond.elim (.ok (.ofBool true)) (lowering.expr scopes) = .ok value) :
    value.mentions = Use.mentions (cond.toList.flatMap (SourceExpr.uses before now)) := by
  cases cond with
  | none =>
    cases lowered
    rfl
  | some source =>
    rw [Option.toList_some, List.flatMap_singleton]
    exact lowering.expr_mentions agrees before lowered

/-- A call inside an expression has no arguments, so it can be seen as a value too. -/
theorem value_mentions (agrees : Agrees scopes now) (before : Bindings)
    (lowered : lowering.expr scopes source = .ok value) :
    value.mentions = Use.mentions (valueUses before now source) := by
  have mentions := lowering.expr_mentions agrees before lowered
  unfold valueUses
  split
  · rename_i fn args spread
    cases args with
    | nil => exact mentions
    | cons arg rest => cases fn <;> cases lowered
  · exact mentions

theorem dropped_of_expr (before now : Bindings)
    (lowered : lowering.expr scopes source = .ok value) :
    (if (!lowering.hasEffect source) = true then [] else valueUses before now source) = [] := by
  split
  · rfl
  · rename_i effect
    unfold hasEffect at effect
    split at effect
    · rename_i args spread
      cases args with
      | nil => rfl
      | cons arg rest => cases lowered
    · exact absurd rfl effect

/-- What receives a value is the variable that its name stands for behind the declaration. -/
theorem receiver_of_named (agrees : Agrees scopes bindings)
    (named : ¬(name = "_" || name = "") = true) (declared : Bool) :
    (receiver scopes name declared).1 =
      ((if declared then bindings.declare name else bindings).find name).lowered := by
  unfold receiver
  rw [if_neg named]
  cases declared with
  | false => exact agrees.resolve name
  | true =>
    rw [if_pos rfl, if_pos rfl, Bindings.find_declare]
    exact agrees.nextName name

theorem receiver_eq_empty (agrees : Agrees scopes bindings) (name : String) (declared : Bool) :
    (receiver scopes name declared).1 = "" ↔ (name = "_" || name = "") = true := by
  constructor
  · intro empty
    by_contra named
    rw [receiver_of_named agrees named] at empty
    apply Bindings.lowered_find_ne_empty _ _ empty
    intro nothing
    exact named (by simp [nothing])
  · intro blank
    unfold receiver
    rw [if_pos blank]

theorem receiver_follows (agrees : Agrees scopes bindings) (pos : Nat) (name : String)
    (declared : Bool) :
    Follows scopes
      (if (receiver scopes name declared).1 = "" then []
        else [(pos, (receiver scopes name declared).1)], (receiver scopes name declared).2)
      (receiverUse bindings pos name declared) := by
  by_cases blank : (name = "_" || name = "") = true
  · rw [if_pos ((receiver_eq_empty agrees name declared).mpr blank)]
    unfold receiver receiverUse
    rw [if_pos blank, if_pos blank]
    exact .keep agrees rfl
  · rw [if_neg (mt (receiver_eq_empty agrees name declared).mp blank),
      receiver_of_named agrees blank]
    unfold receiver receiverUse
    rw [if_neg blank, if_neg blank]
    cases declared with
    | false => exact .keep agrees rfl
    | true =>
      constructor
      · rfl
      · exact agrees.declare name
      · exact drop_blocks_declare scopes name

theorem call_follows (agrees : Agrees scopes now) (before : Bindings) {fn : SourceExpr}
    {args : List SourceExpr} {spread : Bool}
    (lowered : lowering.call scopes pos name declared fn args spread = .ok (result, after)) :
    Follows scopes (Stmt.mentionsAll result, after)
      (lowering.assignmentUses before now pos name declared (.call fn args spread)) := by
  cases fn with
  | name fnPos called =>
    unfold call at lowered
    dsimp only at lowered
    split at lowered
    · cases lowered
    obtain ⟨values, argsLowered, rest⟩ := bind_eq_ok.mp lowered
    have arguments := lowering.exprs_mentions agrees before argsLowered
    have received := receiver_follows agrees pos name declared
    have whole := (Follows.keep agrees arguments).append received
    have blank := receiver_eq_empty agrees name declared
    unfold assignmentUses
    dsimp only [valueUses, hasEffect]
    generalize (receiver scopes name declared).1 = target at *
    generalize (receiver scopes name declared).2 = behind at *
    split at rest
    · rename_i assumes
      split at rest
      · split at rest
        · rename_i noTarget
          cases rest
          simpa [assumes, noTarget, Stmt.mentions] using whole
        · cases rest
      · cases rest
    · rename_i notAssumes
      split at rest
      · rename_i arbitrary
        cases rest
        rw [Bool.and_eq_true, decide_eq_true_eq] at arbitrary
        rw [if_pos arbitrary.2] at received
        simpa [notAssumes, arbitrary.1, blank.mp arbitrary.2, Stmt.mentions] using received
      · rename_i kept
        cases rest
        rw [if_neg]
        · simpa [Stmt.mentions] using whole
        · intro dropped
          apply kept
          rw [Bool.and_eq_true] at dropped ⊢
          exact ⟨by simpa [notAssumes] using dropped.2, decide_eq_true (blank.mpr dropped.1)⟩
  | _ => cases lowered

theorem assignment_follows (agrees : Agrees scopes now) (before : Bindings)
    (lowered : lowering.assignment scopes pos name declared source = .ok (result, after)) :
    Follows scopes (Stmt.mentionsAll result, after)
      (lowering.assignmentUses before now pos name declared source) := by
  unfold assignment at lowered
  extract_lets plain at lowered
  have plainFollows : plain = .ok (result, after) → Follows scopes (Stmt.mentionsAll result, after)
      (lowering.assignmentUses before now pos name declared source) := by
    intro plainLowered
    obtain ⟨value, valueLowered, rest⟩ := bind_eq_ok.mp plainLowered
    have inValue := lowering.value_mentions agrees before valueLowered
    have received := receiver_follows agrees pos name declared
    have blank := receiver_eq_empty agrees name declared
    dsimp only at rest
    unfold assignmentUses
    dsimp only
    generalize (receiver scopes name declared).1 = target at *
    generalize (receiver scopes name declared).2 = behind at *
    cases rest
    by_cases noTarget : target = ""
    · rw [if_pos noTarget] at received ⊢
      rw [blank.mp noTarget, Bool.true_and, lowering.dropped_of_expr before now valueLowered]
      exact received
    · rw [if_neg noTarget] at received ⊢
      have kept : ¬((name = "_" || name = "") && !lowering.hasEffect source) = true := by
        intro dropped
        rw [Bool.and_eq_true] at dropped
        exact noTarget (blank.mpr dropped.1)
      rw [if_neg kept]
      simpa [Stmt.mentions] using (Follows.keep agrees inValue).append received
  split at lowered
  · split at lowered
    · exact plainFollows lowered
    · exact lowering.call_follows agrees before lowered
  · exact plainFollows lowered

/-- The values of a line are lowered one after the other, each behind the variables in front of
it. -/
theorem declarations_follow (agrees : Agrees scopes now) (before : Bindings)
    {pairs : List (String × SourceExpr)}
    (lowered : lowering.declarations pos scopes pairs = .ok (result, after)) :
    Follows scopes (Stmt.mentionsAll result, after) (lowering.lineUses before pos now pairs) := by
  induction pairs generalizing scopes now result with
  | nil =>
    cases lowered
    exact .keep agrees rfl
  | cons pair rest induction =>
    obtain ⟨name, value⟩ := pair
    obtain ⟨first, between, others, firstLowered, othersLowered, rfl⟩ := inTurn_eq_ok lowered
    have inFirst := lowering.assignment_follows agrees before firstLowered
    rw [Stmt.mentionsAll_append]
    exact inFirst.append (induction inFirst.agrees othersLowered)

theorem zeroDeclarations_follow (agrees : Agrees scopes bindings) (pos : Nat)
    (names : List String) :
    Follows scopes
      (Stmt.mentionsAll (lowering.zeroDeclarations pos scopes names).1,
        (lowering.zeroDeclarations pos scopes names).2)
      (zeroUses pos bindings names) := by
  induction names generalizing scopes bindings with
  | nil => exact .keep agrees rfl
  | cons name rest induction =>
    have received := receiver_follows agrees pos name true
    have whole := received.append (induction received.agrees)
    unfold zeroDeclarations zeroUses
    dsimp only at whole ⊢
    generalize (receiver scopes name true).1 = target at *
    generalize (receiver scopes name true).2 = behind at *
    rw [Stmt.mentionsAll_append]
    split
    · rename_i noTarget
      rw [if_pos noTarget] at whole
      exact whole
    · rename_i named
      rw [if_neg named] at whole
      simpa [Stmt.mentions, Expr.mentions] using whole

theorem varSpecs_follow (agrees : Agrees scopes bindings) {specs : List VarSpec}
    (lowered : lowering.varSpecs pos scopes specs = .ok (result, after)) :
    Follows scopes (Stmt.mentionsAll result, after) (lowering.specUses pos bindings specs) := by
  induction specs generalizing scopes bindings result with
  | nil =>
    cases lowered
    exact .keep agrees rfl
  | cons spec rest induction =>
    obtain ⟨first, between, others, firstLowered, othersLowered, rfl⟩ := inTurn_eq_ok lowered
    rw [Stmt.mentionsAll_append]
    unfold specUses
    dsimp only
    split at firstLowered
    · rename_i noValues
      rw [if_pos noValues]
      have inFirst := lowering.zeroDeclarations_follow agrees pos spec.names
      rw [Except.ok.injEq] at firstLowered
      rw [firstLowered] at inFirst
      exact inFirst.append (induction inFirst.agrees othersLowered)
    · rename_i values
      rw [if_neg values]
      split at firstLowered
      · have inFirst := lowering.declarations_follow agrees bindings firstLowered
        exact inFirst.append (induction inFirst.agrees othersLowered)
      · cases firstLowered

theorem mentions_update (agrees : Agrees scopes bindings) (op : Operator) (name : String)
    {values : List Use} (inValue : value.mentions = Use.mentions values) :
    (lowering.update scopes pos op pos name value).mentions =
      Use.mentions (updateUses bindings pos name values) := by
  unfold update updateUses
  dsimp only [Stmt.mentions, Expr.mentions]
  rw [agrees.resolve, inValue]
  simp [Use.mentions, Use.taken]

theorem mentions_alternative {sources : List SourceStmt} {lowered : List Stmt}
    (empty : sources = [] → lowered = []) :
    (alternative sources lowered).mentions = Stmt.mentionsAll lowered := by
  unfold alternative
  split
  · rw [empty rfl]
    rfl
  · rw [Stmt.mentionsAll_singleton]
  · rfl

mutual

/-- A statement mentions its occurrences, and leaves the stack as the rules of scopes have it. -/
theorem stmt_follows (source : SourceStmt) {scopes after : Scopes} {bindings : Bindings}
    (agrees : Agrees scopes bindings) {result : List Stmt}
    (lowered : lowering.stmt scopes source = .ok (result, after)) :
    Follows scopes (Stmt.mentionsAll result, after) (lowering.stmtUses bindings source) := by
  cases source with
  | block pos body =>
    rw [stmt] at lowered
    obtain ⟨⟨inner, inside⟩, bodyLowered, finished⟩ := bind_eq_ok.mp lowered
    cases finished
    have inBody := stmts_follow body agrees.enter bodyLowered
    rw [stmtUses, Stmt.mentionsAll_singleton, Stmt.mentions]
    exact inBody.leave agrees
  | empty =>
    cases lowered
    exact .keep agrees rfl
  | assign op left right =>
    obtain ⟨pos, name, value, rfl, rfl, received⟩ := lowering.assign_eq_ok lowered
    rw [stmtUses, assignUses]
    rcases received with ⟨plain, received⟩ | ⟨changing, operator, operand, valueLowered, rfl, rfl⟩
    · rw [if_pos plain]
      exact lowering.assignment_follows agrees bindings received
    · rw [if_neg changing, Stmt.mentionsAll_singleton]
      apply Follows.keep agrees
      apply lowering.mentions_update agrees
      exact lowering.expr_mentions agrees bindings valueLowered
  | step op operand =>
    cases operand with
    | name pos name =>
      cases lowered
      rw [stmtUses, Stmt.mentionsAll_singleton]
      exact .keep agrees (lowering.mentions_update agrees _ name rfl)
    | _ => cases lowered
  | vars pos specs =>
    rw [stmtUses]
    exact lowering.varSpecs_follow agrees lowered
  | decl pos parts | other pos kind parts => cases lowered
  | expr value =>
    cases value with
    | call fn args spread =>
      rw [stmtUses]
      exact lowering.call_follows agrees bindings lowered
    | _ => cases lowered
  | branch pos init cond bodyPos body orElse =>
    obtain ⟨first, header, value, yes, inside, no, behind, initLowered, condLowered, bodyLowered,
      elseLowered, noElse, rfl, rfl⟩ := lowering.branch_eq_ok lowered
    have inInit := stmts_follow init agrees.enter initLowered
    have inCond := Follows.keep inInit.agrees
      (lowering.expr_mentions inInit.agrees (lowering.stmtsUses bindings init).2 condLowered)
    have inBody := (stmts_follow body inInit.agrees.enter bodyLowered).leave inInit.agrees
    have inElse := stmts_follow orElse inBody.agrees elseLowered
    have whole := (((inInit.append inCond).append inBody).append inElse).leave agrees
    rw [stmtUses]
    simpa [Stmt.mentions, mentions_alternative noElse] using whole
  | loop pos init cond post bodyPos body =>
    obtain ⟨first, header, value, rounds, inside, last, behind, initLowered, condLowered,
      bodyLowered, postLowered, _, rfl, rfl⟩ := lowering.loop_eq_ok lowered
    have inInit := stmts_follow init agrees.enter initLowered
    have inCond := Follows.keep inInit.agrees
      (lowering.condition_mentions inInit.agrees (lowering.stmtsUses bindings init).2 condLowered)
    have inBody := (stmts_follow body inInit.agrees.enter bodyLowered).leave inInit.agrees
    have inPost := stmts_follow post inBody.agrees postLowered
    have whole := (((inInit.append inCond).append inBody).append inPost).leave agrees
    rw [stmtUses]
    simpa [Stmt.mentions] using whole
  | jump pos keyword label =>
    obtain ⟨rfl, ⟨_, rfl⟩ | ⟨_, rfl⟩⟩ := lowering.jump_eq_ok lowered
    · exact .keep agrees rfl
    · exact .keep agrees rfl
  | ret pos results =>
    rw [stmt] at lowered
    obtain ⟨values, resultsLowered, finished⟩ := bind_eq_ok.mp lowered
    cases finished
    exact .keep agrees rfl

theorem stmts_follow (sources : List SourceStmt) {scopes after : Scopes} {bindings : Bindings}
    (agrees : Agrees scopes bindings) {result : List Stmt}
    (lowered : lowering.stmts scopes sources = .ok (result, after)) :
    Follows scopes (Stmt.mentionsAll result, after) (lowering.stmtsUses bindings sources) := by
  cases sources with
  | nil =>
    cases lowered
    exact .keep agrees rfl
  | cons first rest =>
    rw [stmts] at lowered
    obtain ⟨one, between, others, firstLowered, othersLowered, rfl⟩ := inTurn_eq_ok lowered
    have inFirst := stmt_follows first agrees firstLowered
    rw [stmtsUses, Stmt.mentionsAll_append]
    exact inFirst.append (stmts_follow rest inFirst.agrees othersLowered)

end

/-- The scopes around the body of a function. -/
def parameterScopes (params : List String) : Scopes :=
  params.foldl (fun scopes name => (receiver scopes name true).2) { blocks := [[]] }

theorem parameters_agree (params : List String) :
    Agrees (parameterScopes params) (parameterBindings params) := by
  unfold parameterScopes parameterBindings
  have start : Agrees { blocks := [[]] } {} := ⟨rfl, rfl⟩
  generalize ({ blocks := [[]] } : Scopes) = scopes at *
  generalize ({} : Bindings) = bindings at *
  induction params generalizing scopes bindings with
  | nil => exact start
  | cons name rest induction => exact induction _ _ (receiver_follows start 0 name true).agrees

end Lowering

namespace SourceFile

variable {file : SourceFile} {lowering : Lowering} {decl : FunctionDecl} {function : Function}

theorem lower_eq_ok (accepted : file.lower lowering decl = .ok function) :
    ∃ pos sources result behind, decl.body = some (pos, sources) ∧
      lowering.stmts (Lowering.parameterScopes decl.params).enter sources = .ok (result, behind) ∧
      function.body = .block (lowering.spanAt pos) result := by
  unfold lower at accepted
  split at accepted
  · cases accepted
  · rename_i pos sources found
    split at accepted
    · rename_i program lowered
      cases accepted
      obtain ⟨⟨result, behind⟩, stmtsLowered, finished⟩ := bind_eq_ok.mp lowered
      cases finished
      exact ⟨pos, sources, result, behind, found, stmtsLowered, rfl⟩
    · cases accepted

theorem mentions_of_lower (accepted : file.lower lowering decl = .ok function) :
    function.body.mentions =
      (lowering.variableUses decl).map fun use => (use.pos, use.taken.lowered) := by
  obtain ⟨pos, sources, result, behind, found, lowered, body⟩ := lower_eq_ok accepted
  have agrees := (Lowering.parameters_agree decl.params).enter
  rw [body, Lowering.variableUses, Lowering.functionUses, found]
  exact (lowering.stmts_follow sources agrees lowered).mentions

theorem variableUses_settled (apart : decl.LinesApart) : Settled (lowering.variableUses decl) := by
  intro use member
  have used := (List.mem_filter.mp member).1
  unfold Lowering.functionUses at used
  split at used
  · cases used
  · rename_i pos sources found
    exact lowering.stmtsUses_settled sources _ (apart _ found) use used

/-- Each occurrence in a lowered function has the name of the variable that it is taken for.  If no
value of a line names a variable further left in the line, this is the variable that the occurrence
stands for. -/
theorem names_follow_scopes (accepted : file.lower lowering decl = .ok function) :
    function.body.mentions =
        ((lowering.variableUses decl).map fun use => (use.pos, use.taken.lowered)) ∧
      (decl.LinesApart →
        function.body.mentions =
          (lowering.variableUses decl).map fun use => (use.pos, use.bound.lowered)) := by
  have mentions := mentions_of_lower accepted
  refine ⟨mentions, ?_⟩
  intro apart
  rw [mentions]
  apply List.map_congr_left
  intro use member
  rw [variableUses_settled apart use member]

/-- A conditional whose first statement hides a parameter, a loop with a variable of its own in each
round, and a line of two variables. -/
def hidesOften : FunctionDecl :=
  { pos := 1, name := "hidesOften", receiver := none, params := ["n", "sum"], types := []
    body := some (9, [
      .branch 10 [.assign ":=" [.name 11 "n"] [.binary "+" (.name 12 "n") (.literal 13 .int "1")]]
        (.binary ">" (.name 14 "n") (.literal 15 .int "5")) 16
        [.assign "=" [.name 17 "sum"] [.name 18 "n"]]
        [.branch 20 [.assign ":=" [.name 21 "k"] [.name 22 "n"]]
          (.binary "==" (.name 23 "k") (.literal 24 .int "0")) 25
          [.vars 26 [⟨["n", "m"], none, [.name 27 "k", .name 28 "sum"]⟩], .step "--" (.name 29 "n")]
          [.block 30 [.assign "+=" [.name 31 "sum"] [.name 32 "k"]]]],
      .loop 40 [.assign ":=" [.name 41 "i"] [.literal 42 .int "0"]]
        (some (.binary "<" (.name 43 "i") (.name 44 "n"))) [.step "++" (.name 45 "i")] 46
        [.assign ":=" [.name 47 "i"] [.binary "*" (.name 48 "i") (.literal 49 .int "2")],
          .assign "+=" [.name 50 "sum"] [.name 51 "i"]]]) }

/-- A line in which the second value names the first variable, which hides another one. -/
def hidesInLine : FunctionDecl :=
  { pos := 1, name := "hidesInLine", receiver := none, params := [], types := []
    body := some (13, [
      .assign ":=" [.name 16 "a"] [.literal 21 .int "1"],
      .block 24 [
        .vars 28 [⟨["a", "b"], none, [.literal 39 .int "2", .name 42 "a"]⟩],
        .branch 46 [] (.binary "==" (.name 49 "b") (.name 54 "a")) 56
          [.expr (.call (.name 61 "reach_error") [] false)] []],
      .step "++" (.name 84 "a")]) }

def single (decl : FunctionDecl) : SourceFile :=
  { name := "single", text := "", lexemes := [], functions := [decl] }

theorem hidesOften_accepted :
    ∃ function, (single hidesOften).lower {} hidesOften = .ok function :=
  ⟨_, rfl⟩

theorem hidesOften_linesApart : hidesOften.LinesApart := by
  rintro _ ⟨⟩
  decide

theorem names_follow_scopes_hidesOften :
    ∃ function, (single hidesOften).lower {} hidesOften = .ok function ∧ hidesOften.LinesApart ∧
      function.body.mentions =
        (({} : Lowering).variableUses hidesOften).map fun use => (use.pos, use.bound.lowered) := by
  obtain ⟨function, accepted⟩ := hidesOften_accepted
  have follows := names_follow_scopes accepted
  exact ⟨function, accepted, hidesOften_linesApart, follows.2 hidesOften_linesApart⟩

/-- The second value of the line stands for the variable declared first, but has another name. -/
theorem hidesInLine_misnamed :
    ∃ function, (single hidesInLine).lower {} hidesInLine = .ok function ∧
      ∃ first ∈ (({} : Lowering).variableUses hidesInLine).zip function.body.mentions,
        ∃ second ∈ (({} : Lowering).variableUses hidesInLine).zip function.body.mentions,
          first.1.pos = 16 ∧ second.1.pos = 42 ∧ first.1.bound = second.1.bound ∧
            first.2.2 ≠ second.2.2 := by
  refine ⟨_, rfl, ?_⟩
  decide

end SourceFile

end Source

end Reachability
