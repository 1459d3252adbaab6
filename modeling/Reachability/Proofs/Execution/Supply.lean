import Mathlib
import Reachability.Execution.Inputs
import Reachability.Proofs.Execution.Agreement
import Reachability.Proofs.FlowGraph.Origins
import Reachability.Proofs.Interval.Inclusion

/-!
# Values supplied for a path

Inputs for a path supply one value for each nondeterministic value that is
written along its edges, and for each result of a call.  A replay draws them in
the same order, but a logical operator may skip its right operand and with it
values that have been supplied.  Until then the number of values drawn is the
number of values written, and every edge receives the value chosen for it.
-/

namespace Reachability

/-- The number of values drawn before and after `count` of them have been written: not more are
drawn, and not less if nothing is skipped. -/
structure Drawn (before count : Nat) (Whole : Prop) (after : Nat) : Prop where
  atMost : after ≤ before + count
  exactly : Whole → after = before + count

namespace Drawn

variable {before middle after first second : Nat} {Whole Rest : Prop}

theorem refl : Drawn before 0 Whole before :=
  ⟨Nat.le_refl _, fun _ => rfl⟩

theorem trans (early : Drawn before first Whole middle) (late : Drawn middle second Rest after) :
    Drawn before (first + second) (Whole ∧ Rest) after := by
  have atMost := early.atMost
  have atMostLate := late.atMost
  constructor
  · omega
  · intro whole
    rw [late.exactly whole.2, early.exactly whole.1, Nat.add_assoc]

theorem mono (drawn : Drawn before first Whole after) (weaker : Rest → Whole) :
    Drawn before first Rest after :=
  ⟨drawn.atMost, fun rest => drawn.exactly (weaker rest)⟩

end Drawn

namespace Expr

def isNondet : Expr → Bool
  | nondet .. => true
  | _ => false

/-- The number of nondeterministic values written in an expression. -/
def drawCount (expr : Expr) : Nat := expr.parts.countP isNondet

/-- Whether every value written in an expression is drawn when it is evaluated.  Logical operators
may skip their right operand. -/
def eager (expr : Expr) : Bool :=
  expr.parts.all fun part =>
    match part with
    | .binary _ .and _ right | .binary _ .or _ right => right.drawCount == 0
    | _ => true

variable {draw : Nat → Int64} {env : Env} {next after pos : Nat} {value : Int64} {op : Operator}
  {operand left right : Expr}

theorem drawCount_unary : (unary pos op operand).drawCount = operand.drawCount := by
  simp [drawCount, parts, isNondet]

theorem drawCount_binary :
    (binary pos op left right).drawCount = left.drawCount + right.drawCount := by
  simp [drawCount, parts, isNondet]

theorem eager_unary : (unary pos op operand).eager = operand.eager := by
  simp [eager, parts]

theorem eager_binary (isEager : (binary pos op left right).eager = true) :
    (left.eager = true ∧ right.eager = true) ∧ (op = .and ∨ op = .or → right.drawCount = 0) := by
  simp only [eager, parts, List.all_cons, List.all_append, Bool.and_eq_true] at isEager ⊢
  refine ⟨isEager.2, ?_⟩
  rintro (rfl | rfl)
  · exact beq_iff_eq.mp isEager.1
  · exact beq_iff_eq.mp isEager.1

theorem eval_drawn {expr : Expr} (evaluated : expr.eval draw env next = .ok (value, after)) :
    Drawn next expr.drawCount (expr.eager = true) after := by
  induction expr generalizing next after value with
  | literal | var =>
    cases evaluated
    exact .refl
  | nondet pos source =>
    cases evaluated
    exact ⟨Nat.le_refl _, fun _ => rfl⟩
  | unary pos op operand induction =>
    obtain ⟨x, operandValue, _⟩ := eval_unary evaluated
    rw [drawCount_unary, eager_unary]
    exact induction operandValue
  | binary pos op left right leftInduction rightInduction =>
    obtain ⟨x, middle, leftValue, result⟩ := eval_binary evaluated
    have rightDrawn : Drawn middle right.drawCount
        (right.eager = true ∧ (op = .and ∨ op = .or → right.drawCount = 0)) after := by
      cases result with
      | andFalse | orTrue =>
        constructor
        · exact Nat.le_add_right _ _
        · intro whole
          rw [whole.2 (by simp), Nat.add_zero]
      | andTrue _ rightValue | orFalse _ rightValue | strict rightValue =>
        exact (rightInduction rightValue).mono And.left
    rw [drawCount_binary]
    apply ((leftInduction leftValue).trans rightDrawn).mono
    intro isEager
    obtain ⟨⟨leftEager, rightEager⟩, whole⟩ := eager_binary isEager
    exact ⟨leftEager, rightEager, whole⟩
  | foreign | missing => cases evaluated

end Expr

namespace Action

/-- The number of values that an action draws if it skips none, the result of a call included. -/
def drawCount : Action → Nat
  | assign _ value => value.drawCount
  | assume cond _ => cond.drawCount
  | call result _ args => (args.map Expr.drawCount).sum + if result = "" then 0 else 1
  | blank _ => 0

/-- The variable that receives the last value that an action draws, as it is. -/
def receives? : Action → Option String
  | assign var (.nondet _ _) => some var
  | call result _ _ => if result = "" then none else some result
  | _ => none

variable {action : Action} {var : String}

theorem receives?_cases (receives : action.receives? = some var) :
    (∃ pos source, action = .assign var (.nondet pos source)) ∨
      var ≠ "" ∧ ∃ callee args, action = .call var callee args := by
  cases action with
  | assign other value =>
    cases value with
    | nondet pos source =>
      cases receives
      exact .inl ⟨pos, source, rfl⟩
    | _ => cases receives
  | call result callee args =>
    simp only [receives?] at receives
    split at receives
    · cases receives
    · rename_i named
      cases receives
      exact .inr ⟨named, callee, args, rfl⟩
  | blank | assume => cases receives

theorem written?_of_receives (receives : action.receives? = some var) :
    action.written? = some var := by
  rcases receives?_cases receives with ⟨pos, source, rfl⟩ | ⟨named, callee, args, rfl⟩
  · rfl
  · exact if_neg named

theorem drawCount_pos (receives : action.receives? = some var) : 0 < action.drawCount := by
  rcases receives?_cases receives with ⟨pos, source, rfl⟩ | ⟨named, callee, args, rfl⟩
  · exact Nat.one_pos
  · simp [drawCount, named]

end Action

namespace Edge

/-- The number of values that are drawn along some edges if none is skipped. -/
def drawCount (edges : List Edge) : Nat := (edges.map fun edge => edge.action.drawCount).sum

/-- No value that is written along an edge can be skipped. -/
def Eager (edge : Edge) : Prop := ∀ expr ∈ edge.action.exprs, expr.eager = true

instance (edge : Edge) : Decidable edge.Eager :=
  inferInstanceAs (Decidable (∀ expr ∈ edge.action.exprs, expr.eager = true))

theorem drawCount_cons (edge : Edge) (rest : List Edge) :
    drawCount (edge :: rest) = edge.action.drawCount + drawCount rest :=
  List.sum_cons

theorem drawCount_take_pos {edges : List Edge} {index : Nat} {edge : Edge} {var : String}
    (isEdge : edges[index]? = some edge) (receives : edge.action.receives? = some var) :
    0 < drawCount (edges.take (index + 1)) := by
  induction index generalizing edges with
  | zero =>
    cases edges with
    | nil => cases isEdge
    | cons first rest =>
      cases isEdge
      rw [List.take_succ_cons, drawCount_cons]
      exact Nat.add_pos_left (Action.drawCount_pos receives) _
  | succ index induction =>
    cases edges with
    | nil => cases isEdge
    | cons first rest =>
      rw [List.take_succ_cons, drawCount_cons]
      exact Nat.add_pos_right _ (induction isEdge)

def writes (var : String) (edge : Edge) : Bool := edge.action.written? = some var

/-- The first edge after a given one that writes a variable; the number of edges if there is
none. -/
structure NextWrite (edges : List Edge) (index : Nat) (var : String) (next : Nat) : Prop where
  later : index < next
  bound : next ≤ edges.length
  kept : ∀ between edge, index < between → between < next → edges[between]? = some edge →
    edge.writes var = false
  written : ∀ edge, edges[next]? = some edge → edge.writes var = true

theorem nextWrite_findIdx {edges : List Edge} {index : Nat} (inside : index < edges.length)
    (var : String) :
    NextWrite edges index var (index + 1 + (edges.drop (index + 1)).findIdx (writes var)) := by
  have bound : (edges.drop (index + 1)).findIdx (writes var) ≤ edges.length - (index + 1) := by
    rw [← List.length_drop]
    exact List.findIdx_le_length
  constructor
  · omega
  · omega
  · intro between edge later early isEdge
    obtain ⟨offset, rfl⟩ := Nat.exists_eq_add_of_le (Nat.succ_le_of_lt later)
    rw [← List.getElem?_drop, List.getElem?_eq_some_iff] at isEdge
    obtain ⟨_, rfl⟩ := isEdge
    exact List.not_of_lt_findIdx (Nat.lt_of_add_lt_add_left early)
  · intro edge isEdge
    rw [← List.getElem?_drop, List.getElem?_eq_some_iff] at isEdge
    obtain ⟨_, rfl⟩ := isEdge
    exact List.findIdx_getElem

end Edge

namespace Machine

variable {inputs : Inputs} {target : String} {machine ready done : Machine} {edge : Edge}

theorem evalArgs_drawn {args : List Expr} (evaluated : machine.evalArgs inputs args = .ok done) :
    Drawn machine.drawn (args.map Expr.drawCount).sum (∀ arg ∈ args, arg.eager = true)
      done.drawn := by
  induction args generalizing machine with
  | nil =>
    cases evaluated
    exact .refl
  | cons arg rest induction =>
    simp only [evalArgs, bind, Except.bind] at evaluated
    cases first : arg.eval inputs.draw machine.env machine.drawn with
    | error error =>
      simp only [first] at evaluated
      cases evaluated
    | ok result =>
      simp only [first] at evaluated
      rw [List.map_cons, List.sum_cons]
      apply ((Expr.eval_drawn first).trans (induction evaluated)).mono
      exact List.forall_mem_cons.mp

theorem perform_assign {var : String} {value : Expr}
    (performed : machine.perform inputs target (.assign var value) = .ok done) :
    ∃ word drawn, value.eval inputs.draw machine.env machine.drawn = .ok (word, drawn) ∧
      done = { env := machine.env.insert var word, drawn } := by
  simp only [perform, bind, Except.bind] at performed
  cases evaluated : value.eval inputs.draw machine.env machine.drawn with
  | error error =>
    simp only [evaluated] at performed
    cases performed
  | ok result =>
    simp only [evaluated] at performed
    cases performed
    exact ⟨result.1, result.2, rfl, rfl⟩

theorem perform_call {result callee : String} {args : List Expr} (silent : callee ≠ target)
    (performed : machine.perform inputs target (.call result callee args) = .ok done) :
    ∃ called, machine.evalArgs inputs args = .ok called ∧
      done = if result = "" then called
        else { env := called.env.insert result (inputs.draw called.drawn)
               drawn := called.drawn + 1 } := by
  simp only [perform, bind, Except.bind, silent, false_or] at performed
  cases evaluated : machine.evalArgs inputs args with
  | error error =>
    simp only [evaluated] at performed
    cases performed
  | ok called =>
    simp only [evaluated] at performed
    refine ⟨called, rfl, ?_⟩
    split at performed
    · rename_i unused
      cases performed
      rw [if_pos unused]
    · rename_i used
      cases performed
      rw [if_neg used]

theorem step_drawn (enables : machine.enabled inputs edge = .ok (true, ready))
    (performed : ready.perform inputs target edge.action = .ok done)
    (silent : edge.action.calls target = false) :
    Drawn machine.drawn edge.action.drawCount edge.Eager done.drawn := by
  cases action : edge.action with
  | blank description =>
    rw [enabled_of_not_assume (by simp [action])] at enables
    rw [action] at performed
    cases enables
    cases performed
    exact .refl
  | assume cond truth =>
    obtain ⟨value, drawn, evaluated, _, rfl⟩ := enabled_assume action enables
    rw [action] at performed
    cases performed
    apply (Expr.eval_drawn evaluated).mono
    intro isEager
    apply isEager
    simp [action, Action.exprs]
  | assign var value =>
    rw [enabled_of_not_assume (by simp [action])] at enables
    rw [action] at performed
    cases enables
    obtain ⟨word, drawn, evaluated, rfl⟩ := perform_assign performed
    apply (Expr.eval_drawn evaluated).mono
    intro isEager
    apply isEager
    simp [action, Action.exprs]
  | call result callee args =>
    rw [enabled_of_not_assume (by simp [action])] at enables
    rw [action] at performed silent
    cases enables
    obtain ⟨called, evaluated, rfl⟩ := perform_call (by simpa [Action.calls] using silent) performed
    have argsDrawn : Drawn machine.drawn (args.map Expr.drawCount).sum edge.Eager called.drawn := by
      apply (evalArgs_drawn evaluated).mono
      intro isEager arg member
      apply isEager
      simpa [action, Action.exprs] using member
    simp only [Action.drawCount]
    split
    · exact argsDrawn
    · have resultDrawn : Drawn called.drawn 1 edge.Eager (called.drawn + 1) :=
        ⟨Nat.le_refl _, fun _ => rfl⟩
      apply (argsDrawn.trans resultDrawn).mono
      exact fun isEager => ⟨isEager, isEager⟩

theorem step_receives {var : String}
    (performed : ready.perform inputs target edge.action = .ok done)
    (silent : edge.action.calls target = false) (receives : edge.action.receives? = some var) :
    ∃ drawn, done.drawn = drawn + 1 ∧ done.env.value var = inputs.draw drawn := by
  rcases Action.receives?_cases receives with ⟨pos, source, assigns⟩ | ⟨named, callee, args, calls⟩
  · rw [assigns] at performed
    obtain ⟨word, drawn, evaluated, rfl⟩ := perform_assign performed
    cases evaluated
    exact ⟨ready.drawn, rfl, by simp [Env.value_insert]⟩
  · rw [calls] at performed silent
    obtain ⟨called, _, rfl⟩ := perform_call (by simpa [Action.calls] using silent) performed
    rw [if_neg named]
    exact ⟨called.drawn, rfl, by simp [Env.value_insert]⟩

/-- An execution along some edges, none of which calls the target. -/
inductive Follows (inputs : Inputs) (target : String) : Machine → List Edge → Machine → Prop where
  | stay {machine : Machine} : Follows inputs target machine [] machine
  | step {machine ready done after : Machine} {edge : Edge} {rest : List Edge}
      (enables : machine.enabled inputs edge = .ok (true, ready))
      (performed : ready.perform inputs target edge.action = .ok done)
      (silent : edge.action.calls target = false) (goes : Follows inputs target done rest after) :
      Follows inputs target machine (edge :: rest) after

namespace Follows

variable {edges : List Edge} {after : Machine}

theorem drawn (follows : Follows inputs target machine edges after) :
    Drawn machine.drawn (Edge.drawCount edges) (∀ edge ∈ edges, edge.Eager) after.drawn := by
  induction follows with
  | stay => exact .refl
  | step enables performed silent _ induction =>
    rw [Edge.drawCount_cons]
    apply ((step_drawn enables performed silent).trans induction).mono
    exact List.forall_mem_cons.mp

theorem receives {index : Nat} {var : String}
    (follows : Follows inputs target machine (edges.take (index + 1)) after)
    (isEdge : edges[index]? = some edge) (receives : edge.action.receives? = some var) :
    ∃ drawn, after.drawn = drawn + 1 ∧ after.env.value var = inputs.draw drawn := by
  induction index generalizing edges machine with
  | zero =>
    cases edges with
    | nil => cases isEdge
    | cons first rest =>
      cases isEdge
      rw [List.take_succ_cons, List.take_zero] at follows
      cases follows with
      | step _ performed silent goes =>
        cases goes
        exact step_receives performed silent receives
  | succ index induction =>
    cases edges with
    | nil => cases isEdge
    | cons first rest =>
      rw [List.take_succ_cons] at follows
      cases follows with
      | step _ _ _ goes => exact induction goes isEdge

end Follows

end Machine

namespace FlowGraph

variable {graph : FlowGraph} {target : String} {inputs : Inputs} {before : Option Edge}
  {edges trace : List Edge} {machine : Machine}

theorem follow_executes {edge : Edge} {rest : List Edge}
    (executed : trace.length <
      (graph.follow target inputs before (edge :: rest) machine trace).trace.length) :
    (∀ last, before = some last → last.target = edge.source) ∧
      ∃ ready, machine.enabled inputs edge = .ok (true, ready) ∧
        ∀ error, ready.perform inputs target edge.action = .error error →
          graph.follow target inputs before (edge :: rest) machine trace =
            ready.finish (edge :: trace) (.failed (.action edge error)) := by
  cases gap : before.filter fun last => last.target != edge.source with
  | some last => simp [follow, gap, Machine.finish] at executed
  | none =>
    refine ⟨by simpa using gap, ?_⟩
    cases enables : machine.enabled inputs edge with
    | error error => simp [follow, gap, enables, Machine.finish] at executed
    | ok result =>
      obtain ⟨taken, ready⟩ := result
      cases taken with
      | false => simp [follow, gap, enables, Machine.finish] at executed
      | true =>
        refine ⟨ready, rfl, ?_⟩
        intro error fails
        simp only [follow, gap, enables, fails]

/-- An execution along given edges that has executed one of them has gone along all edges before it;
it has failed there, called the target, or gone on with the values that it has then. -/
theorem follow_executed {index : Nat} {edge : Edge} (isEdge : edges[index]? = some edge)
    (executed : trace.length + index <
      (graph.follow target inputs before edges machine trace).trace.length) :
    (∃ error, (graph.follow target inputs before edges machine trace).ending =
        .failed (.action edge error)) ∨
      edge.action.calls target = true ∨
      ∃ after, Machine.Follows inputs target machine (edges.take (index + 1)) after ∧
        (graph.follow target inputs before (edges.take (index + 1)) machine trace).env =
          after.env := by
  induction edges generalizing before machine trace index with
  | nil => cases isEdge
  | cons first rest induction =>
    obtain ⟨connected, ready, enables, failing⟩ :=
      follow_executes (Nat.lt_of_le_of_lt (Nat.le_add_right _ index) executed)
    cases performed : ready.perform inputs target first.action with
    | error error =>
      rw [failing error performed] at executed ⊢
      simp only [Machine.finish, List.length_reverse, List.length_cons] at executed
      obtain rfl : index = 0 := by omega
      cases isEdge
      exact .inl ⟨error, rfl⟩
    | ok done =>
      rw [follow_cons connected enables performed] at executed ⊢
      cases calls : first.action.calls target with
      | true =>
        simp only [calls, if_true, Machine.finish, List.length_reverse,
          List.length_cons] at executed
        obtain rfl : index = 0 := by omega
        cases isEdge
        exact .inr (.inl calls)
      | false =>
        simp only [calls, Bool.false_eq_true, if_false] at executed ⊢
        rw [List.take_succ_cons, follow_cons connected enables performed, calls]
        cases index with
        | zero =>
          refine .inr (.inr ⟨done, .step enables performed calls .stay, ?_⟩)
          rw [List.take_zero, if_neg Bool.false_ne_true, follow_nil]
          rfl
        | succ index =>
          have later : (first :: trace).length + index <
              (graph.follow target inputs (some first) rest done
                (first :: trace)).trace.length := by
            rw [List.length_cons]
            omega
          rcases induction isEdge later with failed | reached | ⟨after, follows, sameEnv⟩
          · exact .inl failed
          · exact .inr (.inl reached)
          · exact .inr (.inr ⟨after, .step enables performed calls follows, sameEnv⟩)

end FlowGraph

/-- A member of an interval than which no other one is closer to zero. -/
structure Interval.Closest (interval : Interval) (word : Int64) : Prop where
  member : word ∈ interval
  least : ∀ other ∈ interval, word.toInt.natAbs ≤ other.toInt.natAbs

theorem Interval.closest_closestToZero {interval : Interval} (nonempty : interval.Nonempty) :
    interval.Closest interval.closestToZero := by
  have ordered := Int64.le_iff_toInt_le.mp nonempty
  unfold closestToZero
  split
  · rename_i zero
    exact ⟨zero, fun other _ => Nat.zero_le _⟩
  · rename_i nonzero
    rw [mem_iff, Int64.toInt_zero] at nonzero
    split
    · rename_i positive
      rw [Int64.lt_iff_toInt_lt, Int64.toInt_zero] at positive
      refine ⟨⟨Int64.le_refl _, nonempty⟩, ?_⟩
      intro other member
      rw [mem_iff] at member
      omega
    · rename_i notPositive
      rw [Int64.lt_iff_toInt_lt, Int64.toInt_zero] at notPositive
      refine ⟨⟨nonempty, Int64.le_refl _⟩, ?_⟩
      intro other member
      rw [mem_iff] at member
      omega

namespace Inputs

/-- The values that are chosen for what is drawn along an edge. -/
def supply (bounds : List Bounds) (edge : Edge) (later : List Edge) : List Int64 :=
  match edge.action.receives? with
  | some var =>
    List.replicate (edge.action.drawCount - 1) 0 ++ [choose (advance bounds) later var]
  | none => List.replicate edge.action.drawCount 0

def supplies : List Bounds → List Edge → List Int64
  | _, [] => []
  | bounds, edge :: later => supply bounds edge later ++ supplies (advance bounds) later

variable {bounds : List Bounds} {edge : Edge} {edges later : List Edge} {assigned : List String}

theorem length_supply : (supply bounds edge later).length = edge.action.drawCount := by
  unfold supply
  cases receives : edge.action.receives? with
  | none => exact List.length_replicate
  | some var =>
    have positive := Action.drawCount_pos receives
    simp only [List.length_append, List.length_replicate, List.length_singleton]
    omega

theorem drawZeros_nondet (inputs : Inputs) (expr : Expr) :
    (inputs.drawZeros expr).nondet = inputs.nondet ++ List.replicate expr.drawCount 0 := by
  have zeros : ∀ parts : List Expr, (parts.filterMap fun part =>
      match part with
      | .nondet .. => some (0 : Int64)
      | _ => none) = List.replicate (parts.countP Expr.isNondet) 0 := by
    intro parts
    induction parts with
    | nil => rfl
    | cons part rest induction =>
      cases part <;> simp [Expr.isNondet, induction, List.countP_cons, List.replicate_succ]
  exact congrArg (inputs.nondet ++ ·) (zeros expr.parts)

theorem foldl_drawZeros_nondet (read : Inputs → Expr → Inputs)
    (keeps : ∀ inputs expr, (read inputs expr).nondet = inputs.nondet) (inputs : Inputs)
    (args : List Expr) :
    (args.foldl (fun inputs arg => (read inputs arg).drawZeros arg) inputs).nondet =
      inputs.nondet ++ List.replicate (args.map Expr.drawCount).sum 0 := by
  induction args generalizing inputs with
  | nil => simp
  | cons arg rest induction =>
    rw [List.foldl_cons, induction, drawZeros_nondet, keeps, List.append_assoc,
      List.replicate_append_replicate, List.map_cons, List.sum_cons]

theorem forAction_nondet (inputs : Inputs) :
    (inputs.forAction bounds edge later assigned).nondet =
      inputs.nondet ++ supply bounds edge later := by
  unfold forAction supply
  cases action : edge.action with
  | blank description => simp [Action.receives?, Action.drawCount]
  | assume cond truth =>
    simp only [Action.receives?, Action.drawCount]
    rw [drawZeros_nondet]
    rfl
  | assign var value =>
    cases value with
    | nondet pos source => rfl
    | _ =>
      simp only [Action.receives?, Action.drawCount]
      rw [drawZeros_nondet]
      rfl
  | call result callee args =>
    have zeros := foldl_drawZeros_nondet
      (fun inputs arg => inputs.readBefore bounds (edge :: later) assigned arg)
      (fun _ _ => rfl) inputs args
    simp only [Action.receives?, Action.drawCount]
    split
    · exact zeros
    · simp only [drawFor, zeros, Nat.add_sub_cancel, List.append_assoc]

theorem along_nondet (inputs : Inputs) :
    (inputs.along bounds assigned edges).nondet = inputs.nondet ++ supplies bounds edges := by
  induction edges generalizing bounds assigned inputs with
  | nil => simp [along, supplies]
  | cons edge later induction =>
    simp only [along]
    rw [induction, forAction_nondet, List.append_assoc]
    rfl

theorem advance_eq_drop (several : 1 < bounds.length) : advance bounds = bounds.drop 1 := by
  match bounds with
  | _ :: _ :: _ => rfl

theorem getElem?_supplies {index : Nat} {var : String} (isEdge : edges[index]? = some edge)
    (receives : edge.action.receives? = some var) (long : index + 1 < bounds.length) :
    (supplies bounds edges)[Edge.drawCount (edges.take (index + 1)) - 1]? =
      some (choose (bounds.drop (index + 1)) (edges.drop (index + 1)) var) := by
  induction index generalizing bounds edges with
  | zero =>
    cases edges with
    | nil => cases isEdge
    | cons first later =>
      cases isEdge
      have positive := Action.drawCount_pos receives
      have single : Edge.drawCount [edge] = edge.action.drawCount := by
        simp [Edge.drawCount]
      have supplied : supply bounds edge later =
          List.replicate (edge.action.drawCount - 1) 0 ++
            [choose (bounds.drop 1) later var] := by
        simp only [supply, receives, advance_eq_drop long]
      simp only [List.take_succ_cons, List.take_zero, single, supplies]
      rw [List.getElem?_append_left (by rw [length_supply]; omega), supplied,
        List.getElem?_append_right (by simp)]
      simp
  | succ index induction =>
    cases edges with
    | nil => cases isEdge
    | cons first later =>
      have isLater : later[index]? = some edge := isEdge
      have positive := Edge.drawCount_take_pos isLater receives
      have shorter : index + 1 < (bounds.drop 1).length := by
        rw [List.length_drop]
        omega
      have rest := induction isLater shorter
      rw [List.drop_drop, Nat.add_comm 1] at rest
      rw [List.take_succ_cons, Edge.drawCount_cons, supplies, advance_eq_drop (by omega),
        List.getElem?_append_right (by rw [length_supply]; omega), length_supply,
        List.drop_succ_cons, ← rest]
      congr 1
      omega

/-- The value chosen for a variable is the one closest to zero at the state before the first edge
that writes it, or at the last state. -/
theorem choose_eq {var : String} (named : var ≠ "") (lengths : bounds.length = edges.length + 1) :
    choose bounds edges var =
      ((bounds.getD (edges.findIdx (Edge.writes var)) .unknown).get var).closestToZero := by
  have writes : (fun edge : Edge => decide (edge.action.written?.getD "" = var)) =
      Edge.writes var := by
    funext edge
    simp only [Edge.writes]
    cases edge.action.written? with
    | none => simp [named.symm]
    | some name => simp
  have last : bounds.length - 1 = edges.length := by omega
  simp only [choose, last, writes]
  cases found : edges.findIdx? (Edge.writes var) with
  | none => rw [List.findIdx?_eq_none_iff_findIdx_eq.mp found]
  | some index =>
    obtain ⟨inside, isIndex⟩ := List.findIdx?_eq_some_iff_findIdx_eq.mp found
    rw [isIndex]
    simp only [Nat.min_eq_left (Nat.le_of_lt inside)]

theorem ofPath_nondet (lengths : bounds.length = edges.length + 1) :
    (ofPath bounds edges).nondet = supplies bounds edges := by
  have several : bounds.isEmpty = false := by
    cases bounds with
    | nil => cases lengths
    | cons => rfl
  simp only [ofPath, several]
  exact along_nondet {}

theorem exists_supplied {index : Nat} {var : String} (lengths : bounds.length = edges.length + 1)
    (isEdge : edges[index]? = some edge) (receives : edge.action.receives? = some var)
    (named : var ≠ "") :
    ∃ next, Edge.NextWrite edges index var next ∧
      (ofPath bounds edges).nondet[Edge.drawCount (edges.take (index + 1)) - 1]? =
        some ((bounds.getD next .unknown).get var).closestToZero := by
  obtain ⟨inside, _⟩ := List.getElem?_eq_some_iff.mp isEdge
  refine ⟨_, Edge.nextWrite_findIdx inside var, ?_⟩
  have aligned : (bounds.drop (index + 1)).length = (edges.drop (index + 1)).length + 1 := by
    rw [List.length_drop, List.length_drop]
    omega
  rw [ofPath_nondet lengths, getElem?_supplies isEdge receives (by omega),
    choose_eq named aligned, List.getD_eq_getElem?_getD, List.getD_eq_getElem?_getD,
    List.getElem?_drop]

end Inputs

end Reachability
