import Mathlib
import Reachability.Proofs.Execution.Evaluation
import Reachability.Proofs.Execution.Steps
import Reachability.Proofs.FlowGraph.Edges

/-!
# Values drawn by executions

Whatever an execution does depends on the values it draws and not on how many
have been drawn before.  An execution that is told its edges can therefore be
repeated by one that chooses them, if the values are provided again.  Where a
condition does not hold, choosing evaluates it twice, once for each edge of the
branch, and the values it draws are provided twice.
-/

namespace Reachability

def Provides (draw : Nat → Int64) (next : Nat) (values : List Int64) : Prop :=
  ∀ index < values.length, draw (next + index) = values.getD index 0

section Provides

variable {draw : Nat → Int64} {next : Nat} {first second : List Int64}

theorem provides_append : Provides draw next (first ++ second) ↔
    Provides draw next first ∧ Provides draw (next + first.length) second := by
  unfold Provides
  constructor
  · intro provides
    constructor
    · intro index bound
      have value := provides index (by rw [List.length_append]; omega)
      rwa [List.getD_append _ _ _ _ bound] at value
    · intro index bound
      have value := provides (first.length + index) (by rw [List.length_append]; omega)
      rwa [List.getD_append_right _ _ _ _ (by omega), Nat.add_sub_cancel_left,
        ← Nat.add_assoc] at value
  · rintro ⟨early, late⟩ index bound
    rw [List.length_append] at bound
    by_cases inFirst : index < first.length
    · rw [List.getD_append _ _ _ _ inFirst]
      exact early index inFirst
    · have value := late (index - first.length) (by omega)
      rw [List.getD_append_right _ _ _ _ (by omega), ← value]
      congr 1
      omega

theorem provides_singleton {value : Int64} :
    Provides draw next [value] ↔ draw next = value := by
  unfold Provides
  constructor
  · intro provides
    exact provides 0 (by simp)
  · intro value index bound
    have zero : index = 0 := by
      rw [List.length_singleton] at bound
      omega
    rw [zero]
    exact value

end Provides

namespace Expr

variable {draw : Nat → Int64} {env : Env} {next after drawn : Nat} {value x : Int64}

theorem eval_binary_of {pos : Nat} {op : Operator} {left right : Expr}
    (leftValue : left.eval draw env next = .ok (x, drawn))
    (result : BinaryResult draw env right x drawn op value after) :
    (binary pos op left right).eval draw env next = .ok (value, after) := by
  unfold eval
  rw [leftValue]
  cases result with
  | andFalse zero => simp [bind, Except.bind, zero]
  | andTrue nonzero evaluated => simp [bind, Except.bind, nonzero, evaluated]
  | orTrue nonzero => simp [bind, Except.bind, nonzero]
  | orFalse zero evaluated => simp [bind, Except.bind, zero, evaluated]
  | strict evaluated applied =>
    cases op with
    | and | or => cases applied
    | arith | compare | not | neg | unknown => simp [bind, Except.bind, evaluated, applied]

/-- The value of an expression depends only on what it draws. -/
theorem exists_draws {expr : Expr} (evaluated : expr.eval draw env next = .ok (value, after)) :
    ∃ values, ∀ draw' next', Provides draw' next' values →
      expr.eval draw' env next' = .ok (value, next' + values.length) := by
  induction expr generalizing next after value with
  | literal pos word | var pos name =>
    cases evaluated
    exact ⟨[], fun _ _ _ => rfl⟩
  | nondet pos source =>
    cases evaluated
    refine ⟨[draw next], ?_⟩
    intro draw' next' provides
    rw [provides_singleton] at provides
    simp [eval, provides]
  | unary pos op operand induction =>
    obtain ⟨x, operandValue, result⟩ := eval_unary evaluated
    obtain ⟨values, repeats⟩ := induction operandValue
    refine ⟨values, ?_⟩
    intro draw' next' provides
    rcases result with ⟨rfl, rfl⟩ | ⟨rfl, rfl⟩
    · simp [eval, repeats draw' next' provides, bind, Except.bind]
    · simp [eval, repeats draw' next' provides, bind, Except.bind]
  | binary pos op left right leftInduction rightInduction =>
    obtain ⟨x, drawn, leftValue, result⟩ := eval_binary evaluated
    obtain ⟨leftValues, repeatsLeft⟩ := leftInduction leftValue
    have repeatsResult : ∃ values, ∀ draw' drawn', Provides draw' drawn' values →
        BinaryResult draw' env right x drawn' op value (drawn' + values.length) := by
      cases result with
      | andFalse zero => exact ⟨[], fun _ _ _ => .andFalse zero⟩
      | orTrue nonzero => exact ⟨[], fun _ _ _ => .orTrue nonzero⟩
      | andTrue nonzero rightValue =>
        obtain ⟨values, repeats⟩ := rightInduction rightValue
        exact ⟨values, fun _ _ provides => .andTrue nonzero (repeats _ _ provides)⟩
      | orFalse zero rightValue =>
        obtain ⟨values, repeats⟩ := rightInduction rightValue
        exact ⟨values, fun _ _ provides => .orFalse zero (repeats _ _ provides)⟩
      | strict rightValue applied =>
        obtain ⟨values, repeats⟩ := rightInduction rightValue
        exact ⟨values, fun _ _ provides => .strict (repeats _ _ provides) applied⟩
    obtain ⟨rightValues, repeatsRight⟩ := repeatsResult
    refine ⟨leftValues ++ rightValues, ?_⟩
    intro draw' next' provides
    rw [provides_append] at provides
    rw [List.length_append, ← Nat.add_assoc]
    exact eval_binary_of (repeatsLeft draw' next' provides.1) (repeatsRight _ _ provides.2)
  | foreign kind text | missing => cases evaluated

end Expr

namespace Machine

variable {inputs : Inputs} {machine ready done : Machine} {edge : Edge} {target : String}

theorem enabled_assume {cond : Expr} {truth taken : Bool}
    (assumes : edge.action = .assume cond truth)
    (enables : machine.enabled inputs edge = .ok (taken, ready)) :
    ∃ value drawn, cond.eval inputs.draw machine.env machine.drawn = .ok (value, drawn) ∧
      taken = ((value != 0) == truth) ∧ ready = { machine with drawn } := by
  unfold enabled at enables
  rw [assumes] at enables
  dsimp only at enables
  cases evaluated : cond.eval inputs.draw machine.env machine.drawn with
  | error error => simp [evaluated, bind, Except.bind] at enables
  | ok result =>
    simp only [evaluated, bind, Except.bind, pure, Except.pure] at enables
    cases enables
    exact ⟨result.1, result.2, rfl, rfl, rfl⟩

theorem enabled_assume_of {cond : Expr} {truth : Bool} (assumes : edge.action = .assume cond truth)
    {env : Env} {drawn after : Nat} {value : Int64}
    (evaluated : cond.eval inputs.draw env drawn = .ok (value, after)) :
    ({ env, drawn } : Machine).enabled inputs edge =
      .ok ((value != 0) == truth, { env, drawn := after }) := by
  unfold enabled
  rw [assumes]
  dsimp only
  rw [evaluated]
  rfl

theorem enabled_of_not_assume (passes : ∀ cond truth, edge.action ≠ .assume cond truth) :
    machine.enabled inputs edge = .ok (true, machine) := by
  unfold enabled
  split
  · exact absurd (by assumption) (passes _ _)
  · rfl

theorem exists_draws_enabled {taken : Bool}
    (enables : machine.enabled inputs edge = .ok (taken, ready)) :
    ∃ values, ∀ inputs' drawn, Provides inputs'.draw drawn values →
      ({ env := machine.env, drawn } : Machine).enabled inputs' edge =
        .ok (taken, { env := machine.env, drawn := drawn + values.length }) := by
  cases action : edge.action with
  | assume cond truth =>
    obtain ⟨value, _, evaluated, rfl, _⟩ := enabled_assume action enables
    obtain ⟨values, repeats⟩ := Expr.exists_draws evaluated
    exact ⟨values, fun inputs' drawn provides =>
      enabled_assume_of action (repeats inputs'.draw drawn provides)⟩
  | blank | assign | call =>
    have passes : ∀ cond truth, edge.action ≠ .assume cond truth := by simp [action]
    rw [enabled_of_not_assume passes] at enables
    cases enables
    exact ⟨[], fun _ _ _ => enabled_of_not_assume passes⟩

theorem exists_draws_evalArgs {args : List Expr}
    (evaluated : machine.evalArgs inputs args = .ok done) :
    done.env = machine.env ∧ ∃ values, ∀ inputs' drawn, Provides inputs'.draw drawn values →
      ({ env := machine.env, drawn } : Machine).evalArgs inputs' args =
        .ok { env := machine.env, drawn := drawn + values.length } := by
  induction args generalizing machine with
  | nil =>
    cases evaluated
    exact ⟨rfl, [], fun _ _ _ => rfl⟩
  | cons arg rest induction =>
    unfold evalArgs at evaluated
    cases first : arg.eval inputs.draw machine.env machine.drawn with
    | error error => simp [first, bind, Except.bind] at evaluated
    | ok result =>
      simp only [first, bind, Except.bind] at evaluated
      obtain ⟨sameEnv, values, repeats⟩ := induction evaluated
      obtain ⟨argValues, repeatsArg⟩ := Expr.exists_draws first
      refine ⟨sameEnv, argValues ++ values, ?_⟩
      intro inputs' drawn provides
      rw [provides_append] at provides
      unfold evalArgs
      rw [repeatsArg inputs'.draw drawn provides.1, List.length_append, ← Nat.add_assoc]
      exact repeats inputs' _ provides.2

theorem exists_draws_perform {action : Action}
    (performed : machine.perform inputs target action = .ok done) :
    ∃ values, ∀ inputs' drawn, Provides inputs'.draw drawn values →
      ({ env := machine.env, drawn } : Machine).perform inputs' target action =
        .ok { env := done.env, drawn := drawn + values.length } := by
  cases action with
  | blank description | assume cond truth =>
    cases performed
    exact ⟨[], fun _ _ _ => rfl⟩
  | assign var value =>
    simp only [perform] at performed ⊢
    cases evaluated : value.eval inputs.draw machine.env machine.drawn with
    | error error => simp [evaluated, bind, Except.bind] at performed
    | ok result =>
      simp only [evaluated, bind, Except.bind, pure, Except.pure] at performed
      cases performed
      obtain ⟨values, repeats⟩ := Expr.exists_draws evaluated
      refine ⟨values, ?_⟩
      intro inputs' drawn provides
      rw [repeats inputs'.draw drawn provides]
      rfl
  | call result callee args =>
    simp only [perform] at performed ⊢
    cases evaluated : machine.evalArgs inputs args with
    | error error => simp [evaluated, bind, Except.bind] at performed
    | ok called =>
      obtain ⟨sameEnv, values, repeats⟩ := exists_draws_evalArgs evaluated
      simp only [evaluated, bind, Except.bind, pure, Except.pure] at performed
      split at performed
      · rename_i unused
        cases performed
        refine ⟨values, ?_⟩
        intro inputs' drawn provides
        rw [repeats inputs' drawn provides, sameEnv]
        exact if_pos unused
      · rename_i used
        cases performed
        refine ⟨values ++ [inputs.draw called.drawn], ?_⟩
        intro inputs' drawn provides
        rw [provides_append, provides_singleton] at provides
        rw [repeats inputs' drawn provides.1]
        refine (if_neg used).trans ?_
        rw [provides.2, sameEnv, List.length_append, List.length_singleton, Nat.add_assoc]
        rfl

theorem choose_cons_true (enables : machine.enabled inputs edge = .ok (true, ready))
    (rest : List Edge) : machine.choose inputs (edge :: rest) = .ok (some edge, ready) := by
  unfold choose
  rw [enables]
  rfl

theorem choose_cons_false (enables : machine.enabled inputs edge = .ok (false, ready))
    (rest : List Edge) : machine.choose inputs (edge :: rest) = ready.choose inputs rest := by
  conv => lhs; unfold choose
  rw [enables]
  rfl

/-- An edge that is enabled is chosen at a branch, if a condition that does not hold finds its
values twice. -/
theorem exists_draws_choose {edges : List Edge} (branching : Edge.Branching edges)
    (member : edge ∈ edges) (enables : machine.enabled inputs edge = .ok (true, ready)) :
    ∃ values, ∀ inputs' drawn, Provides inputs'.draw drawn values →
      ({ env := machine.env, drawn } : Machine).choose inputs' edges =
        .ok (some edge, { env := machine.env, drawn := drawn + values.length }) := by
  have chosenFirst : ∀ rest, ∃ values, ∀ inputs' drawn, Provides inputs'.draw drawn values →
      ({ env := machine.env, drawn } : Machine).choose inputs' (edge :: rest) =
        .ok (some edge, { env := machine.env, drawn := drawn + values.length }) := by
    intro rest
    obtain ⟨values, repeats⟩ := exists_draws_enabled enables
    refine ⟨values, ?_⟩
    intro inputs' drawn provides
    exact choose_cons_true (repeats inputs' drawn provides) rest
  cases branching with
  | none => cases member
  | single =>
    rw [List.mem_singleton] at member
    subst member
    exact chosenFirst []
  | @fork first second cond holds fails =>
    rcases List.mem_cons.mp member with rfl | member
    · exact chosenFirst _
    · rw [List.mem_singleton] at member
      subst member
      obtain ⟨value, _, evaluated, isZero, _⟩ := enabled_assume fails enables
      obtain ⟨values, repeats⟩ := Expr.exists_draws evaluated
      have zero : (value != 0) = false := by
        cases nonzero : value != 0 with
        | false => rfl
        | true => simp [nonzero] at isZero
      refine ⟨values ++ values, ?_⟩
      intro inputs' drawn provides
      rw [provides_append] at provides
      have rejected := enabled_assume_of holds (repeats inputs'.draw drawn provides.1)
      have accepted := enabled_assume_of fails (repeats inputs'.draw _ provides.2)
      rw [zero] at rejected accepted
      rw [List.length_append, ← Nat.add_assoc]
      exact (choose_cons_false rejected _).trans (choose_cons_true accepted _)

end Machine

namespace FlowGraph

variable {graph : FlowGraph} {target : String} {inputs : Inputs} {before : Option Edge}
  {edge : Edge} {edges : List Edge} {machine : Machine} {trace : List Edge}

theorem follow_nil_ne_reached :
    (graph.follow target inputs before [] machine trace).ending ≠ .reached := by
  unfold follow
  split
  · dsimp only [Machine.finish]
    split <;> simp
  · simp [Machine.finish]

theorem follow_reached
    (reached : (graph.follow target inputs before (edge :: edges) machine
      trace).ending = .reached) :
    (∀ last, before = some last → last.target = edge.source) ∧
      ∃ ready done, machine.enabled inputs edge = .ok (true, ready) ∧
        ready.perform inputs target edge.action = .ok done ∧
        graph.follow target inputs before (edge :: edges) machine trace =
          if edge.action.calls target then done.finish (edge :: trace) .reached
          else graph.follow target inputs (some edge) edges done (edge :: trace) := by
  rw [follow] at reached ⊢
  split at reached
  · cases reached
  · rename_i connected
    refine ⟨by simpa using connected, ?_⟩
    split at reached
    · cases reached
    · cases reached
    · rename_i ready enables
      split at reached
      · cases reached
      · rename_i done performed
        exact ⟨ready, done, enables, performed, rfl⟩

theorem follow_trace
    (reached : (graph.follow target inputs before edges machine trace).ending = .reached)
    (once : ∀ edge ∈ edges.dropLast, edge.action.calls target = false) :
    (graph.follow target inputs before edges machine trace).trace = trace.reverse ++ edges := by
  induction edges generalizing before machine trace with
  | nil => exact absurd reached follow_nil_ne_reached
  | cons edge edges induction =>
    obtain ⟨_, ready, done, _, _, result⟩ := follow_reached reached
    rw [result] at reached ⊢
    split at reached
    · rename_i calls
      rw [if_pos calls]
      cases edges with
      | nil => simp [Machine.finish]
      | cons next later =>
        rw [once edge (by simp)] at calls
        cases calls
    · rename_i silent
      rw [if_neg silent, induction reached]
      · simp
      · intro other member
        apply once
        cases edges with
        | nil => cases member
        | cons next later => exact List.mem_cons_of_mem _ member

theorem walk_step {node steps : Nat} {ready done : Machine}
    (chooses : machine.choose inputs (graph.outgoing node) = .ok (some edge, ready))
    (performed : ready.perform inputs target edge.action = .ok done) :
    graph.walk target inputs (steps + 1) node machine trace =
      if edge.action.calls target then done.finish (edge :: trace) .reached
      else graph.walk target inputs steps edge.target done (edge :: trace) := by
  have leaves : graph.outgoing node ≠ [] := by
    intro isExit
    rw [isExit] at chooses
    cases chooses
  rw [walk_succ leaves, chooses]
  dsimp only
  rw [performed]

/-- An execution that has reached the target along given edges can be repeated by one that chooses
its edges, if the values it draws are provided. -/
theorem exists_draws_walk (branching : ∀ node, Edge.Branching (graph.outgoing node))
    (members : ∀ edge ∈ edges, edge ∈ graph.edges) {node : Nat}
    (starts : ∀ edge, edges.head? = some edge → edge.source = node)
    (reached : (graph.follow target inputs before edges machine trace).ending = .reached) :
    ∃ values, ∀ inputs' drawn, Provides inputs'.draw drawn values →
      ∀ steps, edges.length ≤ steps →
        graph.walk target inputs' steps node { env := machine.env, drawn } trace =
          graph.follow target inputs before edges machine trace := by
  induction edges generalizing before machine trace node with
  | nil => exact absurd reached follow_nil_ne_reached
  | cons edge edges induction =>
    obtain ⟨_, ready, done, enables, performed, result⟩ := follow_reached reached
    rw [List.forall_mem_cons] at members
    have leaving : edge ∈ graph.outgoing node :=
      mem_outgoing.mpr ⟨members.1, starts edge rfl⟩
    obtain ⟨chosen, chooses⟩ :=
      Machine.exists_draws_choose (branching node) leaving enables
    obtain ⟨used, performs⟩ := Machine.exists_draws_perform performed
    rw [Machine.enabled_env enables] at performs
    rw [result] at reached ⊢
    have repeats : ∀ later, ∀ inputs' drawn,
        Provides inputs'.draw drawn ((chosen ++ used) ++ later) → ∀ steps,
        graph.walk target inputs' (steps + 1) node { env := machine.env, drawn } trace =
          (if edge.action.calls target then done.finish (edge :: trace) .reached
          else graph.walk target inputs' steps edge.target
            { env := done.env, drawn := drawn + (chosen ++ used).length } (edge :: trace)) ∧
          Provides inputs'.draw (drawn + (chosen ++ used).length) later := by
      intro later inputs' drawn provides steps
      rw [provides_append, provides_append] at provides
      refine ⟨?_, provides.2⟩
      rw [walk_step (chooses inputs' drawn provides.1.1) (performs inputs' _ provides.1.2),
        List.length_append, Nat.add_assoc]
      rfl
    by_cases calls : edge.action.calls target = true
    · refine ⟨(chosen ++ used) ++ [], ?_⟩
      intro inputs' drawn provides steps enough
      obtain ⟨steps, rfl⟩ := Nat.exists_eq_add_of_le' (Nat.le_trans (Nat.le_add_left 1 _) enough)
      rw [(repeats [] inputs' drawn provides steps).1, if_pos calls, if_pos calls]
    · rw [if_neg calls] at reached
      have continues : ∀ next, edges.head? = some next → next.source = edge.target := by
        intro next isNext
        obtain ⟨later, rfl⟩ := List.head?_eq_some_iff.mp isNext
        exact ((follow_reached reached).1 edge rfl).symm
      obtain ⟨later, walks⟩ := induction members.2 continues reached
      refine ⟨(chosen ++ used) ++ later, ?_⟩
      intro inputs' drawn provides steps enough
      obtain ⟨steps, rfl⟩ := Nat.exists_eq_add_of_le' (Nat.le_trans (Nat.le_add_left 1 _) enough)
      obtain ⟨walked, provides⟩ := repeats later inputs' drawn provides steps
      rw [walked, if_neg calls, if_neg calls]
      apply walks inputs' _ provides
      rw [List.length_cons] at enough
      omega

/-- What a replay has reached is reached by an execution with suitable inputs, however many steps it
may take. -/
theorem exists_inputs_of_replay (branching : ∀ node, Edge.Branching (graph.outgoing node))
    (members : ∀ edge ∈ edges, edge ∈ graph.edges)
    (starts : ∀ edge, edges.head? = some edge → edge.source = graph.entry)
    (reached : (graph.replay edges target inputs).ending = .reached) :
    ∃ inputs', inputs'.initial = inputs.initial ∧ ∀ limit, edges.length ≤ limit →
      graph.run target inputs' limit = graph.replay edges target inputs := by
  obtain ⟨values, walks⟩ := exists_draws_walk branching members starts reached
  refine ⟨{ initial := inputs.initial, nondet := values }, rfl, ?_⟩
  intro limit enough
  have repeats : graph.runFor target { initial := inputs.initial, nondet := values } limit =
      graph.replay edges target inputs := by
    apply walks _ 0 _ limit enough
    intro index _
    rw [Nat.zero_add]
    rfl
  unfold run
  dsimp only
  rw [repeats, reached]

end FlowGraph

end Reachability
