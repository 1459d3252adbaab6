import Mathlib
import Reachability.Source.Function

/-!
# Scopes of variables

The variables that the names in a function stand for.  The scope of a variable
begins behind the line or the short declaration that declares it, and ends with
the innermost block, conditional or loop around that.  The rules are stated
apart from the lowering: they give no names and keep no stack of blocks.
-/

namespace Reachability.Source

/-- A variable that a function uses.  Those that it declares are told apart by the number of earlier
declarations of the same name in it.  The others are declared around its parameters, which holds for
the receiver of a method too. -/
inductive Variable where
  | own (name : String) (number : Nat)
  | outer (name : String)
deriving DecidableEq, Repr

/-- The names that a function has declared in front of a point, and those of them whose scopes
include the point, with the numbers of their declarations, the latest first. -/
structure Bindings where
  declared : List String := []
  visible : List (String × Nat) := []
deriving DecidableEq, Repr

namespace Bindings

def find (bindings : Bindings) (name : String) : Variable :=
  match bindings.visible.lookup name with
  | some number => .own name number
  | none => .outer name

def declare (bindings : Bindings) (name : String) : Bindings :=
  { declared := name :: bindings.declared
    visible := (name, bindings.declared.count name) :: bindings.visible }

/-- The bindings behind the end of a scope, which end the visibility of what was declared in it. -/
def endScope (inside outside : Bindings) : Bindings := { inside with visible := outside.visible }

end Bindings

/-- An occurrence of the name of a variable. -/
structure Use where
  pos : Nat
  name : String
  /-- The bindings at the occurrence. -/
  bindings : Bindings
  /-- The bindings with the variables further left in the same line of declarations too, for an
  occurrence in a value of such a line. -/
  leftward : Bindings := bindings
  /-- Whether the occurrence is a word for a truth value in an expression. -/
  truth : Bool := false
deriving DecidableEq, Repr

/-- The variable that an occurrence stands for. -/
def Use.bound (use : Use) : Variable := use.bindings.find use.name

/-- The variable that an occurrence would stand for if the scope of each variable of a line began in
front of the next one. -/
def Use.taken (use : Use) : Variable := use.leftward.find use.name

/-- The occurrences in an expression.  A value in a line of declarations is in front of the scopes
of all variables of the line: `before` are the bindings in front of the line and `now` those behind
the variables further left.  Elsewhere both are the same.  The name of a called function is not that
of a variable, and a call inside an expression has no arguments. -/
def SourceExpr.uses (before now : Bindings) : SourceExpr → List Use
  | .name pos text =>
    [{ pos, name := text, bindings := before, leftward := now
       truth := text = "true" || text = "false" }]
  | .paren _ inner => inner.uses before now
  | .unary _ _ operand => operand.uses before now
  | .binary _ left right => left.uses before now ++ right.uses before now
  | .literal .. | .call .. | .channel .. | .other .. => []

namespace Lowering

variable (lowering : Lowering)

/-- The occurrences in a value; a call may have arguments there. -/
def valueUses (before now : Bindings) : SourceExpr → List Use
  | .call _ args _ => args.flatMap (SourceExpr.uses before now)
  | value => value.uses before now

/-- Whether a value stays in the program if no variable receives it.  Calls do unless their results
are arbitrary. -/
def hasEffect : SourceExpr → Bool
  | .call (.name _ called) _ _ => lowering.isAssume called || !lowering.isNondet called
  | _ => false

/-- The occurrence of a name that receives a value, and the bindings behind it.  The blank name is
none. -/
def receiverUse (bindings : Bindings) (pos : Nat) (name : String) (declared : Bool) :
    List Use × Bindings :=
  if name = "_" || name = "" then ([], bindings)
  else
    let behind := if declared then bindings.declare name else bindings
    ([{ pos, name, bindings := behind }], behind)

/-- The occurrences in a value that stays, and that of the name that receives it. -/
def assignmentUses (before now : Bindings) (pos : Nat) (name : String) (declared : Bool)
    (value : SourceExpr) : List Use × Bindings :=
  let dropped := (name = "_" || name = "") && !lowering.hasEffect value
  let received := receiverUse now pos name declared
  ((if dropped then [] else valueUses before now value) ++ received.1, received.2)

/-- The occurrences in a line of declarations.  Its values are all in front of the scopes of its
variables. -/
def lineUses (before : Bindings) (pos : Nat) :
    Bindings → List (String × SourceExpr) → List Use × Bindings
  | now, [] => ([], now)
  | now, (name, value) :: rest =>
    let first := lowering.assignmentUses before now pos name true value
    let more := lineUses before pos first.2 rest
    (first.1 ++ more.1, more.2)

def zeroUses (pos : Nat) : Bindings → List String → List Use × Bindings
  | bindings, [] => ([], bindings)
  | bindings, name :: rest =>
    let first := receiverUse bindings pos name true
    let more := zeroUses pos first.2 rest
    (first.1 ++ more.1, more.2)

def specUses (pos : Nat) : Bindings → List VarSpec → List Use × Bindings
  | bindings, [] => ([], bindings)
  | bindings, spec :: rest =>
    let first :=
      if spec.values.isEmpty then zeroUses pos bindings spec.names
      else lowering.lineUses bindings pos bindings (spec.names.zip spec.values)
    let more := specUses pos first.2 rest
    (first.1 ++ more.1, more.2)

/-- The occurrences in the change of a variable, which is read first. -/
def updateUses (bindings : Bindings) (pos : Nat) (name : String) (values : List Use) : List Use :=
  let use : Use := { pos, name, bindings }
  use :: values ++ [use]

/-- The occurrences in an assignment to one variable, which may declare or change it. -/
def assignUses (bindings : Bindings) (op : String) :
    List SourceExpr → List SourceExpr → List Use × Bindings
  | [.name pos name], [value] =>
    if op = "=" || op = ":=" then
      lowering.assignmentUses bindings bindings pos name (op = ":=") value
    else (updateUses bindings pos name (value.uses bindings bindings), bindings)
  | _, _ => ([], bindings)

mutual

/-- The occurrences in a statement in the order in which it reads and assigns them, and the bindings
behind it.  What has no counterpart in the lowered program is left out, such as the results of a
function. -/
def stmtUses (bindings : Bindings) : SourceStmt → List Use × Bindings
  | .block _ body =>
    let inside := stmtsUses bindings body
    (inside.1, inside.2.endScope bindings)
  | .assign op left right => lowering.assignUses bindings op left right
  | .step _ (.name pos name) => (updateUses bindings pos name [], bindings)
  | .vars pos specs => lowering.specUses pos bindings specs
  | .expr value => lowering.assignmentUses bindings bindings value.pos "" false value
  | .branch _ init cond _ body alternative =>
    let header := stmtsUses bindings init
    let yes := stmtsUses header.2 body
    let no := stmtsUses (yes.2.endScope header.2) alternative
    (header.1 ++ cond.uses header.2 header.2 ++ yes.1 ++ no.1, no.2.endScope bindings)
  | .loop _ init cond post _ body =>
    let header := stmtsUses bindings init
    let rounds := stmtsUses header.2 body
    let last := stmtsUses (rounds.2.endScope header.2) post
    (header.1 ++ cond.toList.flatMap (SourceExpr.uses header.2 header.2) ++ rounds.1 ++ last.1,
      last.2.endScope bindings)
  | _ => ([], bindings)

def stmtsUses (bindings : Bindings) : List SourceStmt → List Use × Bindings
  | [] => ([], bindings)
  | first :: rest =>
    let first := stmtUses bindings first
    let more := stmtsUses first.2 rest
    (first.1 ++ more.1, more.2)

end

/-- The bindings at the start of a body: the parameters and results are visible. -/
def parameterBindings (params : List String) : Bindings :=
  params.foldl (fun bindings name => (receiverUse bindings 0 name true).2) {}

/-- The occurrences of names in the body of a function. -/
def functionUses (decl : FunctionDecl) : List Use :=
  match decl.body with
  | none => []
  | some (_, body) => (lowering.stmtsUses (parameterBindings decl.params) body).1

/-- The occurrences without the words for truth values, which are constants in the lowered
program. -/
def variableUses (decl : FunctionDecl) : List Use :=
  (lowering.functionUses decl).filter fun use => !use.truth

end Lowering

def SourceExpr.names (value : SourceExpr) : List String :=
  (Lowering.valueUses {} {} value).map Use.name

/-- No value in the line names a variable further left in it. -/
def VarSpec.apart (spec : VarSpec) : Bool :=
  decide ((spec.names.zip spec.values).Pairwise fun left right => left.1 ∉ right.2.names)

namespace SourceStmt

mutual

/-- No line of declarations in the statement has a value that names a variable further left in
it. -/
def linesApart : SourceStmt → Bool
  | block _ body => linesApartAll body
  | vars _ specs => specs.all VarSpec.apart
  | branch _ init _ _ body alternative =>
    linesApartAll init && linesApartAll body && linesApartAll alternative
  | loop _ init _ post _ body => linesApartAll init && linesApartAll body && linesApartAll post
  | _ => true

def linesApartAll : List SourceStmt → Bool
  | [] => true
  | first :: rest => first.linesApart && linesApartAll rest

end

end SourceStmt

/-- No line of declarations in a function has a value that names a variable further left in it. -/
def FunctionDecl.LinesApart (decl : FunctionDecl) : Prop :=
  ∀ body ∈ decl.body, SourceStmt.linesApartAll body.2 = true

/-- All occurrences are taken for the variables that they stand for. -/
def Settled (uses : List Use) : Prop := ∀ use ∈ uses, use.taken = use.bound

theorem Settled.append {first second : List Use} (firstSettled : Settled first)
    (settled : Settled second) : Settled (first ++ second) :=
  List.forall_mem_append.mpr ⟨firstSettled, settled⟩

theorem Bindings.find_declare_of_ne (bindings : Bindings) {name other : String}
    (different : name ≠ other) : (bindings.declare other).find name = bindings.find name := by
  unfold find declare
  dsimp only
  rw [List.lookup_cons, beq_false_of_ne different]

theorem SourceExpr.uses_settled {before now : Bindings} (source : SourceExpr)
    (same : ∀ name ∈ (source.uses {} {}).map Use.name, now.find name = before.find name) :
    Settled (source.uses before now) := by
  induction source using SourceExpr.uses.induct with
  | case1 pos text =>
    intro use member
    rw [List.mem_singleton.mp member]
    exact same text (by simp [uses])
  | case2 pos inner induction | case3 pos op operand induction => exact induction same
  | case4 op left right inLeft inRight =>
    rw [uses, List.map_append, List.forall_mem_append] at same
    exact (inLeft same.1).append (inRight same.2)
  | _ => exact List.forall_mem_nil _

theorem SourceExpr.uses_self_settled (bindings : Bindings) (source : SourceExpr) :
    Settled (source.uses bindings bindings) :=
  source.uses_settled fun _ _ => rfl

namespace Lowering

variable (lowering : Lowering)

theorem valueUses_settled {before now : Bindings} (source : SourceExpr)
    (same : ∀ name ∈ source.names, now.find name = before.find name) :
    Settled (valueUses before now source) := by
  unfold SourceExpr.names at same
  cases source with
  | call fn args spread =>
    intro use member
    obtain ⟨arg, isArg, inArg⟩ := List.mem_flatMap.mp member
    apply SourceExpr.uses_settled arg _ use inArg
    intro name named
    apply same name
    rw [valueUses, List.map_flatMap, List.mem_flatMap]
    exact ⟨arg, isArg, named⟩
  | _ => exact SourceExpr.uses_settled _ same

theorem receiverUse_settled (bindings : Bindings) (pos : Nat) (name : String) (declared : Bool) :
    Settled (receiverUse bindings pos name declared).1 := by
  unfold receiverUse
  split
  · exact List.forall_mem_nil _
  · intro use member
    rw [List.mem_singleton.mp member]
    rfl

theorem assignmentUses_settled {before now : Bindings} (pos : Nat) (name : String) (declared : Bool)
    {source : SourceExpr} (same : ∀ name ∈ source.names, now.find name = before.find name) :
    Settled (lowering.assignmentUses before now pos name declared source).1 := by
  unfold assignmentUses
  apply Settled.append
  · split
    · exact List.forall_mem_nil _
    · exact valueUses_settled source same
  · exact receiverUse_settled now pos name declared

theorem lineUses_settled {before now : Bindings} (pos : Nat) {pairs : List (String × SourceExpr)}
    (apart : pairs.Pairwise fun left right => left.1 ∉ right.2.names)
    (same : ∀ pair ∈ pairs, ∀ name ∈ pair.2.names, now.find name = before.find name) :
    Settled (lowering.lineUses before pos now pairs).1 := by
  induction pairs generalizing now with
  | nil => exact List.forall_mem_nil _
  | cons pair rest induction =>
    obtain ⟨name, value⟩ := pair
    rw [List.pairwise_cons] at apart
    rw [List.forall_mem_cons] at same
    apply Settled.append
    · exact lowering.assignmentUses_settled pos name true same.1
    · apply induction apart.2
      intro other member named isNamed
      have different : named ≠ name := by
        rintro rfl
        exact apart.1 other member isNamed
      rw [← same.2 other member named isNamed]
      dsimp only [assignmentUses, receiverUse]
      split
      · rfl
      · exact now.find_declare_of_ne different

theorem zeroUses_settled (pos : Nat) (bindings : Bindings) (names : List String) :
    Settled (zeroUses pos bindings names).1 := by
  induction names generalizing bindings with
  | nil => exact List.forall_mem_nil _
  | cons name rest induction =>
    exact (receiverUse_settled bindings pos name true).append (induction _)

theorem specUses_settled (pos : Nat) (bindings : Bindings) {specs : List VarSpec}
    (apart : ∀ spec ∈ specs, spec.apart = true) :
    Settled (lowering.specUses pos bindings specs).1 := by
  induction specs generalizing bindings with
  | nil => exact List.forall_mem_nil _
  | cons spec rest induction =>
    rw [List.forall_mem_cons] at apart
    apply Settled.append
    · split
      · exact zeroUses_settled pos bindings spec.names
      · exact lowering.lineUses_settled pos (of_decide_eq_true apart.1) fun _ _ _ _ => rfl
    · exact induction _ apart.2

theorem updateUses_settled (bindings : Bindings) (pos : Nat) (name : String) {values : List Use}
    (settled : Settled values) : Settled (updateUses bindings pos name values) := by
  have own : Settled [{ pos, name, bindings }] := by
    intro use member
    rw [List.mem_singleton.mp member]
    rfl
  exact (own.append settled).append own

mutual

theorem stmtUses_settled (source : SourceStmt) (bindings : Bindings)
    (apart : source.linesApart = true) : Settled (lowering.stmtUses bindings source).1 := by
  cases source with
  | block pos body => exact stmtsUses_settled body bindings apart
  | assign op left right =>
    rw [stmtUses, assignUses.eq_def]
    split
    · split
      · exact lowering.assignmentUses_settled _ _ _ fun _ _ => rfl
      · exact updateUses_settled bindings _ _ (SourceExpr.uses_self_settled bindings _)
    · exact List.forall_mem_nil _
  | step op operand =>
    cases operand with
    | name pos name => exact updateUses_settled bindings pos name (List.forall_mem_nil _)
    | _ => exact List.forall_mem_nil _
  | vars pos specs => exact lowering.specUses_settled pos bindings (List.all_eq_true.mp apart)
  | expr value => exact lowering.assignmentUses_settled value.pos "" false fun _ _ => rfl
  | branch pos init cond bodyPos body orElse =>
    rw [SourceStmt.linesApart, Bool.and_eq_true, Bool.and_eq_true] at apart
    obtain ⟨⟨initApart, bodyApart⟩, elseApart⟩ := apart
    rw [stmtUses]
    apply Settled.append
    · apply Settled.append
      · apply Settled.append
        · exact stmtsUses_settled init bindings initApart
        · exact cond.uses_self_settled _
      · exact stmtsUses_settled body _ bodyApart
    · exact stmtsUses_settled orElse _ elseApart
  | loop pos init cond post bodyPos body =>
    rw [SourceStmt.linesApart, Bool.and_eq_true, Bool.and_eq_true] at apart
    obtain ⟨⟨initApart, bodyApart⟩, postApart⟩ := apart
    rw [stmtUses]
    apply Settled.append
    · apply Settled.append
      · apply Settled.append
        · exact stmtsUses_settled init bindings initApart
        · intro use member
          obtain ⟨source, _, inSource⟩ := List.mem_flatMap.mp member
          exact source.uses_self_settled _ use inSource
      · exact stmtsUses_settled body _ bodyApart
    · exact stmtsUses_settled post _ postApart
  | _ => exact List.forall_mem_nil _

theorem stmtsUses_settled (sources : List SourceStmt) (bindings : Bindings)
    (apart : SourceStmt.linesApartAll sources = true) :
    Settled (lowering.stmtsUses bindings sources).1 := by
  cases sources with
  | nil => exact List.forall_mem_nil _
  | cons first rest =>
    rw [SourceStmt.linesApartAll, Bool.and_eq_true] at apart
    rw [stmtsUses]
    exact (stmtUses_settled first bindings apart.1).append (stmtsUses_settled rest _ apart.2)

end

end Lowering

end Reachability.Source
