import Mathlib
import Reachability.Execution.Run

/-!
# Direct execution of statements

Statement trees have a meaning without control-flow graphs: statements of a
block are executed in order, conditions decide by being zero or not, and jumps
leave the statements around them up to the innermost loop.  Expressions and
arguments are evaluated as along the edges of a graph.
-/

namespace Reachability

/-- How an execution ends as a whole. -/
inductive Finish where
  | terminated
  | reached
  | blocked
  | failed (error : EvalError)
deriving DecidableEq, Repr

/-- How the execution of one statement ends.  Control goes on after it, leaves or repeats the
innermost loop, or returns; otherwise the whole execution ends there. -/
inductive Exit where
  | next
  | brk
  | cont
  | ret
  | reached
  | blocked
  | failed (error : EvalError)
deriving DecidableEq, Repr

namespace Exit

/-- Whether control goes back to the condition of a loop whose body ends this way. -/
def repeats : Exit → Bool
  | next | cont => true
  | _ => false

/-- How a loop ends if its body ends without repeating it. -/
def leaving : Exit → Exit
  | brk => next
  | exit => exit

/-- How the whole execution ends, if it does so whatever comes after the statement. -/
def finish? : Exit → Option Finish
  | next | brk | cont => none
  | ret => some .terminated
  | reached => some .reached
  | blocked => some .blocked
  | failed error => some (.failed error)

/-- How the execution of a program ends.  Control that arrives at its end terminates it. -/
def outcome? : Exit → Option Finish
  | next => some .terminated
  | exit => exit.finish?

end Exit

/-- Direct execution.  Calls to the target end it once their arguments have been evaluated; other
calls draw a value for their result, if it is used. -/
inductive Stmt.Executes (target : String) (inputs : Inputs) :
    Stmt → Machine → Exit → Machine → Prop where
  | blockEnd {span : Span} {machine : Machine} :
      Executes target inputs (.block span []) machine .next machine
  | blockNext {span : Span} {first : Stmt} {rest : List Stmt} {machine middle after : Machine}
      {exit : Exit} :
      Executes target inputs first machine .next middle →
      Executes target inputs (.block span rest) middle exit after →
      Executes target inputs (.block span (first :: rest)) machine exit after
  | blockStop {span : Span} {first : Stmt} {rest : List Stmt} {machine after : Machine}
      {exit : Exit} :
      Executes target inputs first machine exit after →
      exit ≠ .next →
      Executes target inputs (.block span (first :: rest)) machine exit after
  | assign {span : Span} {var : String} {value : Expr} {machine : Machine} {word : Int64}
      {drawn : Nat} :
      value.eval inputs.draw machine.env machine.drawn = .ok (word, drawn) →
      Executes target inputs (.assign span var value) machine .next
        { env := machine.env.insert var word, drawn }
  | assignFails {span : Span} {var : String} {value : Expr} {machine : Machine}
      {error : EvalError} :
      value.eval inputs.draw machine.env machine.drawn = .error error →
      Executes target inputs (.assign span var value) machine (.failed error) machine
  | call {span : Span} {result callee : String} {args : List Expr} {machine ready : Machine} :
      machine.evalArgs inputs args = .ok ready →
      callee ≠ target →
      result ≠ "" →
      Executes target inputs (.call span result callee args) machine .next
        { env := ready.env.insert result (inputs.draw ready.drawn), drawn := ready.drawn + 1 }
  | callDrops {span : Span} {callee : String} {args : List Expr} {machine ready : Machine} :
      machine.evalArgs inputs args = .ok ready →
      callee ≠ target →
      Executes target inputs (.call span "" callee args) machine .next ready
  | callTarget {span : Span} {result : String} {args : List Expr} {machine ready : Machine} :
      machine.evalArgs inputs args = .ok ready →
      Executes target inputs (.call span result target args) machine .reached ready
  | callFails {span : Span} {result callee : String} {args : List Expr} {machine : Machine}
      {error : EvalError} :
      machine.evalArgs inputs args = .error error →
      Executes target inputs (.call span result callee args) machine (.failed error) machine
  | assume {span : Span} {cond : Expr} {machine : Machine} {word : Int64} {drawn : Nat} :
      cond.eval inputs.draw machine.env machine.drawn = .ok (word, drawn) →
      word ≠ 0 →
      Executes target inputs (.assume span cond) machine .next { machine with drawn }
  | assumeBlocks {span : Span} {cond : Expr} {machine : Machine} {drawn : Nat} :
      cond.eval inputs.draw machine.env machine.drawn = .ok (0, drawn) →
      Executes target inputs (.assume span cond) machine .blocked { machine with drawn }
  | assumeFails {span : Span} {cond : Expr} {machine : Machine} {error : EvalError} :
      cond.eval inputs.draw machine.env machine.drawn = .error error →
      Executes target inputs (.assume span cond) machine (.failed error) machine
  | skip {span : Span} {machine : Machine} :
      Executes target inputs (.skip span) machine .next machine
  | branchYes {span : Span} {cond : Expr} {yes no : Stmt} {machine after : Machine} {word : Int64}
      {drawn : Nat} {exit : Exit} :
      cond.eval inputs.draw machine.env machine.drawn = .ok (word, drawn) →
      word ≠ 0 →
      Executes target inputs yes { machine with drawn } exit after →
      Executes target inputs (.branch span cond yes no) machine exit after
  | branchNo {span : Span} {cond : Expr} {yes no : Stmt} {machine after : Machine} {drawn : Nat}
      {exit : Exit} :
      cond.eval inputs.draw machine.env machine.drawn = .ok (0, drawn) →
      Executes target inputs no { machine with drawn } exit after →
      Executes target inputs (.branch span cond yes no) machine exit after
  | branchOpen {span : Span} {cond : Expr} {yes : Stmt} {machine : Machine} {drawn : Nat} :
      cond.eval inputs.draw machine.env machine.drawn = .ok (0, drawn) →
      Executes target inputs (.branch span cond yes .missing) machine .next { machine with drawn }
  | branchFails {span : Span} {cond : Expr} {yes no : Stmt} {machine : Machine}
      {error : EvalError} :
      cond.eval inputs.draw machine.env machine.drawn = .error error →
      Executes target inputs (.branch span cond yes no) machine (.failed error) machine
  | loopDone {span : Span} {cond : Expr} {body : Stmt} {machine : Machine} {drawn : Nat} :
      cond.eval inputs.draw machine.env machine.drawn = .ok (0, drawn) →
      Executes target inputs (.loop span cond body) machine .next { machine with drawn }
  | loopAgain {span : Span} {cond : Expr} {body : Stmt} {machine middle after : Machine}
      {word : Int64} {drawn : Nat} {bodyExit exit : Exit} :
      cond.eval inputs.draw machine.env machine.drawn = .ok (word, drawn) →
      word ≠ 0 →
      Executes target inputs body { machine with drawn } bodyExit middle →
      bodyExit.repeats = true →
      Executes target inputs (.loop span cond body) middle exit after →
      Executes target inputs (.loop span cond body) machine exit after
  | loopLeave {span : Span} {cond : Expr} {body : Stmt} {machine after : Machine} {word : Int64}
      {drawn : Nat} {bodyExit : Exit} :
      cond.eval inputs.draw machine.env machine.drawn = .ok (word, drawn) →
      word ≠ 0 →
      Executes target inputs body { machine with drawn } bodyExit after →
      bodyExit.repeats = false →
      Executes target inputs (.loop span cond body) machine bodyExit.leaving after
  | loopFails {span : Span} {cond : Expr} {body : Stmt} {machine : Machine} {error : EvalError} :
      cond.eval inputs.draw machine.env machine.drawn = .error error →
      Executes target inputs (.loop span cond body) machine (.failed error) machine
  | ret {span : Span} {machine : Machine} :
      Executes target inputs (.ret span) machine .ret machine
  | brk {span : Span} {machine : Machine} :
      Executes target inputs (.brk span) machine .brk machine
  | cont {span : Span} {machine : Machine} :
      Executes target inputs (.cont span) machine .cont machine

namespace Stmt

/-- The direct execution of a program finishes in some way with some values. -/
def Finishes (target : String) (inputs : Inputs) (program : Stmt) (finish : Finish) (env : Env) :
    Prop :=
  ∃ exit after, program.Executes target inputs (.start inputs) exit after ∧
    exit.outcome? = some finish ∧ after.env = env

def condition? : Stmt → Option Expr
  | branch _ cond _ _ | loop _ cond _ => some cond
  | _ => none

end Stmt

def Expr.draws (expr : Expr) : Bool :=
  expr.parts.any fun part =>
    match part with
    | .nondet _ _ => true
    | _ => false

/-- No condition that decides between two ways contains a nondeterministic value. -/
def Stmt.Steady (program : Stmt) : Prop :=
  ∀ stmt ∈ program.all, ∀ cond ∈ stmt.condition?, cond.draws = false

namespace Expr

theorem draws_unary (pos : Nat) (op : Operator) (operand : Expr) :
    (unary pos op operand).draws = operand.draws := by
  simp [draws, parts]

theorem draws_binary (pos : Nat) (op : Operator) (left right : Expr) :
    (binary pos op left right).draws = (left.draws || right.draws) := by
  simp [draws, parts]

theorem drawn_eq_of_eval {draw : Nat → Int64} {env : Env} {expr : Expr} {next drawn : Nat}
    {word : Int64} (quiet : expr.draws = false)
    (evaluates : expr.eval draw env next = .ok (word, drawn)) : drawn = next := by
  induction expr generalizing next drawn word with
  | literal pos value | var pos name =>
    cases evaluates
    rfl
  | nondet pos source => cases quiet
  | unary pos op operand induction =>
    rw [draws_unary] at quiet
    unfold eval at evaluates
    cases inner : operand.eval draw env next with
    | error error => simp [inner, bind, Except.bind] at evaluates
    | ok result =>
      have same := induction quiet inner
      simp only [inner, bind, Except.bind] at evaluates
      split at evaluates <;> cases evaluates
      · exact same
      · exact same
  | binary pos op left right leftInduction rightInduction =>
    rw [draws_binary, Bool.or_eq_false_iff] at quiet
    unfold eval at evaluates
    cases first : left.eval draw env next with
    | error error => simp [first, bind, Except.bind] at evaluates
    | ok result =>
      have sameLeft := leftInduction quiet.1 first
      simp only [first, bind, Except.bind] at evaluates
      cases second : right.eval draw env result.2 with
      | error error =>
        simp only [second] at evaluates
        split at evaluates
        · split at evaluates <;> cases evaluates
          exact sameLeft
        · split at evaluates <;> cases evaluates
          exact sameLeft
        · cases evaluates
      | ok other =>
        have same := (rightInduction quiet.2 second).trans sameLeft
        simp only [second] at evaluates
        split at evaluates
        · split at evaluates <;> cases evaluates
          · exact sameLeft
          · exact same
        · split at evaluates <;> cases evaluates
          · exact sameLeft
          · exact same
        · split at evaluates <;> cases evaluates
          exact same
  | foreign kind text | missing => cases evaluates

end Expr

namespace Stmt

theorem Steady.block_cons {span : Span} {first : Stmt} {rest : List Stmt}
    (steady : (block span (first :: rest)).Steady) : first.Steady ∧ (block span rest).Steady := by
  unfold Steady at steady ⊢
  simp only [all, nested, nestedAll, if_true, List.mem_cons, List.mem_append,
    forall_eq_or_imp] at steady ⊢
  refine ⟨fun stmt member => steady.2 stmt (.inl member), ?_, ?_⟩
  · simp [condition?]
  · exact fun stmt member => steady.2 stmt (.inr member)

theorem Steady.branch_parts {span : Span} {cond : Expr} {yes no : Stmt}
    (steady : (branch span cond yes no).Steady) :
    cond.draws = false ∧ yes.Steady ∧ no.Steady := by
  unfold Steady at steady ⊢
  simp only [all, nested, if_true, List.mem_cons, List.mem_append, forall_eq_or_imp] at steady ⊢
  refine ⟨steady.1 cond rfl, ?_, ?_⟩
  · exact fun stmt member => steady.2 stmt (.inl member)
  · exact fun stmt member => steady.2 stmt (.inr member)

theorem Steady.loop_parts {span : Span} {cond : Expr} {body : Stmt}
    (steady : (loop span cond body).Steady) : cond.draws = false ∧ body.Steady := by
  unfold Steady at steady ⊢
  simp only [all, nested, if_true, List.mem_cons, forall_eq_or_imp] at steady ⊢
  exact ⟨steady.1 cond rfl, steady.2⟩

end Stmt

end Reachability
