import Mathlib
import Reachability.Proofs.Execution.Finishing
import Reachability.Proofs.FlowGraph.Encoding

/-!
# Control-flow graphs preserve meaning

The direct execution of a program and the execution of its control-flow graph
finish in the same way with the same values.  In one direction, the graph gets
from the node before a statement to where the statement exits; in the other
one, a statement that the graph executes to the end has a direct execution.
Conditions are evaluated once per edge in a graph, so they must draw no values.
-/

namespace Reachability

/-- Where control is after a statement, unless the execution has ended. -/
def Exit.node? (targets : Option JumpTargets) (finish : Option Nat) :
    Exit → Option Nat
  | .next => finish
  | .brk => targets.map JumpTargets.exit
  | .cont => targets.map JumpTargets.header
  | _ => none

namespace FlowGraph

section Reactions

variable {graph : FlowGraph} {target : String} {inputs : Inputs} {node next yes no : Nat}
  {machine : Machine} {cond : Expr}

theorem outgoing_ne_nil {edge : Edge} {rest : List Edge}
    (outgoing : graph.outgoing node = edge :: rest) : graph.outgoing node ≠ [] := by
  rw [outgoing]
  exact List.cons_ne_nil _ _

theorem react_performs {action : Action} (performs : graph.Performs node action next)
    (plain : action.condition? = none) :
    graph.react target inputs node machine =
      match machine.perform inputs target action with
      | .error error => .halts (.failed error) machine.env
      | .ok after =>
        if action.calls target then .halts .reached after.env else .moves next after := by
  obtain ⟨edge, outgoing, rfl, rfl⟩ := performs
  have chosen : machine.choose inputs [edge] = .ok (some edge, machine) := by
    have enabled : machine.enabled inputs edge = .ok (true, machine) := by
      unfold Machine.enabled
      split
      · rename_i found
        rw [found] at plain
        cases plain
      · rfl
    unfold Machine.choose
    rw [enabled]
    rfl
  unfold react
  rw [if_neg (outgoing_ne_nil outgoing), outgoing]
  cases performed : machine.perform inputs target edge.action with
  | error error | ok after => simp only [chosen, performed]

theorem advances_leads (leads : graph.Leads node next) (machine : Machine) :
    graph.Advances target inputs (node, machine) (next, machine) := by
  obtain ⟨description, performs⟩ := leads
  exact react_performs performs rfl

theorem react_assume (performs : graph.Performs node (.assume cond true) next) :
    graph.react target inputs node machine =
      match cond.eval inputs.draw machine.env machine.drawn with
      | .error error => .halts (.failed error) machine.env
      | .ok (word, drawn) =>
        if word = 0 then .halts .blocked machine.env else .moves next { machine with drawn } := by
  obtain ⟨edge, outgoing, isAssume, rfl⟩ := performs
  unfold react
  rw [if_neg (outgoing_ne_nil outgoing), outgoing]
  simp only [Machine.choose, Machine.enabled, isAssume, bind, Except.bind, pure, Except.pure]
  cases cond.eval inputs.draw machine.env machine.drawn with
  | error error => rfl
  | ok result =>
    obtain ⟨word, drawn⟩ := result
    by_cases zero : word = 0
    · simp [zero]
    · simp [zero, isAssume, Machine.perform, Action.calls]

theorem react_branches (branches : graph.Branches node cond yes no) (quiet : cond.draws = false) :
    graph.react target inputs node machine =
      match cond.eval inputs.draw machine.env machine.drawn with
      | .error error => .halts (.failed error) machine.env
      | .ok (word, drawn) =>
        .moves (if word = 0 then no else yes) { machine with drawn } := by
  obtain ⟨first, second, outgoing, ⟨isYes, rfl⟩, isNo, rfl⟩ := branches
  unfold react
  rw [if_neg (outgoing_ne_nil outgoing), outgoing]
  simp only [Machine.choose, Machine.enabled, isYes, isNo, bind, Except.bind, pure, Except.pure]
  cases evaluates : cond.eval inputs.draw machine.env machine.drawn with
  | error error => rfl
  | ok result =>
    obtain ⟨word, drawn⟩ := result
    have same := Expr.drawn_eq_of_eval quiet evaluates
    subst same
    by_cases zero : word = 0
    · simp [zero, evaluates, isNo, Machine.perform, Action.calls]
    · simp [zero, isYes, Machine.perform, Action.calls]

end Reactions

/-- A graph gets from a place to where a statement exits, or halts as the statement does. -/
def Arrives (graph : FlowGraph) (target : String) (inputs : Inputs)
    (targets : Option JumpTargets) (finish : Option Nat) (place : Nat × Machine) (exit : Exit)
    (after : Machine) : Prop :=
  (∃ node, exit.node? targets finish = some node ∧
      graph.Reaches target inputs place (node, after)) ∨
    ∃ ending halt, exit.finish? = some ending ∧ graph.Reaches target inputs place halt ∧
      graph.react target inputs halt.1 halt.2 = .halts ending after.env

namespace Arrives

variable {graph : FlowGraph} {target : String} {inputs : Inputs} {targets : Option JumpTargets}
  {finish : Option Nat} {place start : Nat × Machine} {exit : Exit} {after : Machine}

theorem of_reaches (reaches : graph.Reaches target inputs start place)
    (arrives : graph.Arrives target inputs targets finish place exit after) :
    graph.Arrives target inputs targets finish start exit after := by
  rcases arrives with ⟨node, isNode, rest⟩ | ⟨ending, halt, isEnding, rest, halts⟩
  · exact .inl ⟨node, isNode, reaches.trans rest⟩
  · exact .inr ⟨ending, halt, isEnding, reaches.trans rest, halts⟩

theorem of_advances (advances : graph.Advances target inputs start place)
    (arrives : graph.Arrives target inputs targets finish place exit after) :
    graph.Arrives target inputs targets finish start exit after :=
  arrives.of_reaches (.single advances)

theorem next (arrives : graph.Arrives target inputs targets finish place .next after) :
    ∃ node, finish = some node ∧ graph.Reaches target inputs place (node, after) := by
  rcases arrives with arrives | ⟨_, _, isEnding, _⟩
  · exact arrives
  · cases isEnding

/-- Where control arrives after a statement matters only if it falls through. -/
theorem other (arrives : graph.Arrives target inputs targets finish place exit after)
    (jumps : exit ≠ .next) (join : Option Nat) :
    graph.Arrives target inputs targets join place exit after := by
  rcases arrives with ⟨node, isNode, reaches⟩ | halts
  · cases exit with
    | next => exact absurd rfl jumps
    | brk | cont => exact .inl ⟨node, isNode, reaches⟩
    | _ => cases isNode
  · exact .inr halts

theorem ledOn (arrives : graph.Arrives target inputs targets finish place exit after)
    {join : Option Nat} (led : graph.LedOn finish join) :
    graph.Arrives target inputs targets join place exit after := by
  by_cases falls : exit = .next
  · subst falls
    obtain ⟨node, isFinish, reaches⟩ := arrives.next
    obtain ⟨next, isJoin, leads⟩ := led node isFinish
    exact .inl ⟨next, isJoin, reaches.tail (advances_leads leads after)⟩
  · exact arrives.other falls join

theorem repeats {header exitNode : Nat}
    (arrives : graph.Arrives target inputs (some { header, exit := exitNode }) (some header) place
      exit after)
    (again : exit.repeats = true) : graph.Reaches target inputs place (header, after) := by
  rcases arrives with ⟨node, isNode, reaches⟩ | ⟨_, _, isEnding, _⟩
  · cases exit with
    | next | cont =>
      cases isNode
      exact reaches
    | _ => cases again
  · cases exit with
    | next | cont => cases isEnding
    | _ => cases again

theorem leaves {header exitNode : Nat}
    (arrives : graph.Arrives target inputs (some { header, exit := exitNode }) (some header) place
      exit after)
    (targets : Option JumpTargets) (leaves : exit.repeats = false) :
    graph.Arrives target inputs targets (some exitNode) place exit.leaving after := by
  rcases arrives with ⟨node, isNode, reaches⟩ | ⟨ending, halt, isEnding, reaches, halts⟩
  · cases exit with
    | brk =>
      cases isNode
      exact .inl ⟨exitNode, rfl, reaches⟩
    | next | cont => cases leaves
    | _ => cases isNode
  · refine .inr ⟨ending, halt, ?_, reaches, halts⟩
    cases exit with
    | brk => cases isEnding
    | _ => exact isEnding

end Arrives

section Simulation

variable {graph : FlowGraph} {target : String} {inputs : Inputs} {targets : Option JumpTargets}
  {current next : Nat} {finish : Option Nat} {stmt : Stmt} {action : Action}
  {machine after : Machine} {exit : Exit} {cond : Expr}

theorem react_action (executes : stmt.Executes target inputs machine exit after)
    (isAction : stmt.action? = some action) (performs : graph.Performs current action next) :
    exit = .next ∧ graph.react target inputs current machine = .moves next after ∨
      ∃ ending, exit.finish? = some ending ∧
        graph.react target inputs current machine = .halts ending after.env := by
  cases executes with
  | assign evaluates =>
    cases isAction
    left
    rw [react_performs performs rfl]
    simp [Machine.perform, evaluates, bind, Except.bind, pure, Except.pure, Action.calls]
  | assignFails fails | callFails fails =>
    cases isAction
    right
    rw [react_performs performs rfl]
    simp [Machine.perform, fails, bind, Except.bind, Exit.finish?]
  | call evaluates other used =>
    cases isAction
    left
    rw [react_performs performs rfl]
    simp [Machine.perform, evaluates, other, used, bind, Except.bind, pure, Except.pure,
      Action.calls]
  | callDrops evaluates other =>
    cases isAction
    left
    rw [react_performs performs rfl]
    simp [Machine.perform, evaluates, other, bind, Except.bind, pure, Except.pure, Action.calls]
  | callTarget evaluates =>
    cases isAction
    right
    rw [react_performs performs rfl]
    simp [Machine.perform, evaluates, bind, Except.bind, pure, Except.pure, Action.calls,
      Exit.finish?]
  | assume evaluates holds =>
    cases isAction
    left
    rw [react_assume performs]
    simp [evaluates, holds]
  | assumeBlocks evaluates =>
    cases isAction
    right
    rw [react_assume performs]
    simp [evaluates, Exit.finish?]
  | assumeFails fails =>
    cases isAction
    right
    rw [react_assume performs]
    simp [fails, Exit.finish?]
  | skip =>
    cases isAction
    exact .inl ⟨rfl, advances_leads ⟨_, performs⟩ machine⟩
  | _ => cases isAction

theorem arrives_of_action (executes : stmt.Executes target inputs machine exit after)
    (isAction : stmt.action? = some action) (performs : graph.Performs current action next) :
    graph.Arrives target inputs targets (some next) (current, machine) exit after := by
  rcases react_action executes isAction performs with ⟨falls, moves⟩ | ⟨ending, isEnding, halts⟩
  · subst falls
    exact .inl ⟨next, rfl, .single moves⟩
  · exact .inr ⟨ending, (current, machine), isEnding, .refl, halts⟩

theorem Encodes.exists_header {span : Span} {body : Stmt}
    (encodes : graph.Encodes targets stmt current finish) (target : String) (inputs : Inputs)
    (isLoop : stmt = .loop span cond body) :
    ∃ header bodyStart exit bodyEnd, finish = some exit ∧
      (∀ machine, graph.Reaches target inputs (current, machine) (header, machine)) ∧
      graph.Branches header cond bodyStart exit ∧
      graph.Encodes (some { header, exit }) body bodyStart bodyEnd ∧
      graph.LedOn bodyEnd (some header) := by
  induction encodes with
  | enter leads _ induction =>
    obtain ⟨header, bodyStart, exit, bodyEnd, isFinish, reaches, rest⟩ := induction isLoop
    refine ⟨header, bodyStart, exit, bodyEnd, isFinish, ?_, rest⟩
    exact fun machine => .head (advances_leads leads machine) (reaches machine)
  | loop branches bodyEncodes led =>
    cases isLoop
    exact ⟨_, _, _, _, rfl, fun _ => .refl, branches, bodyEncodes, led⟩
  | action isAction _ =>
    subst isLoop
    cases isAction
  | _ => cases isLoop

theorem advances_branches (target : String) {yes no drawn : Nat} {word : Int64}
    (branches : graph.Branches current cond yes no) (quiet : cond.draws = false)
    (evaluates : cond.eval inputs.draw machine.env machine.drawn = .ok (word, drawn)) :
    graph.Advances target inputs (current, machine)
      (if word = 0 then no else yes, { machine with drawn }) := by
  unfold Advances
  rw [react_branches branches quiet, evaluates]

theorem react_branches_error {yes no : Nat} {error : EvalError}
    (branches : graph.Branches current cond yes no) (quiet : cond.draws = false)
    (fails : cond.eval inputs.draw machine.env machine.drawn = .error error) :
    graph.react target inputs current machine = .halts (.failed error) machine.env := by
  rw [react_branches branches quiet, fails]

/-- The graph does what the direct execution of a statement does. -/
theorem arrives_of_executes (executes : stmt.Executes target inputs machine exit after)
    (steady : stmt.Steady) (encodes : graph.Encodes targets stmt current finish) :
    graph.Arrives target inputs targets finish (current, machine) exit after := by
  induction executes generalizing targets current finish with
  | blockEnd =>
    cases encodes with
    | blockEnd => exact .inl ⟨_, rfl, .refl⟩
    | action isAction _ => cases isAction
  | blockNext _ _ firstInduction restInduction =>
    obtain ⟨firstSteady, restSteady⟩ := steady.block_cons
    cases encodes with
    | blockNext firstEncodes restEncodes =>
      obtain ⟨node, isMiddle, reaches⟩ := (firstInduction firstSteady firstEncodes).next
      cases isMiddle
      exact (restInduction restSteady restEncodes).of_reaches reaches
    | blockStop firstEncodes =>
      obtain ⟨node, impossible, _⟩ := (firstInduction firstSteady firstEncodes).next
      cases impossible
    | action isAction _ => cases isAction
  | blockStop _ jumps induction =>
    obtain ⟨firstSteady, _⟩ := steady.block_cons
    cases encodes with
    | blockNext firstEncodes _
    | blockStop firstEncodes => exact (induction firstSteady firstEncodes).other jumps _
    | action isAction _ => cases isAction
  | branchYes evaluates holds _ induction =>
    obtain ⟨quiet, yesSteady, _⟩ := steady.branch_parts
    cases encodes with
    | branch branches yesEncodes yesLed _ _ | branchOpen branches yesEncodes yesLed =>
      have advances := advances_branches target branches quiet evaluates
      rw [if_neg holds] at advances
      exact ((induction yesSteady yesEncodes).ledOn yesLed).of_advances advances
    | action isAction _ => cases isAction
  | branchNo evaluates executes induction =>
    obtain ⟨quiet, _, noSteady⟩ := steady.branch_parts
    cases encodes with
    | branch branches _ _ noEncodes noLed =>
      have advances := advances_branches target branches quiet evaluates
      exact ((induction noSteady noEncodes).ledOn noLed).of_advances advances
    | branchOpen => cases executes
    | action isAction _ => cases isAction
  | branchOpen evaluates =>
    obtain ⟨quiet, _, _⟩ := steady.branch_parts
    cases encodes with
    | branch _ _ _ noEncodes _ =>
      cases noEncodes with
      | action isAction _ => cases isAction
    | branchOpen branches _ _ =>
      exact .inl ⟨_, rfl, .single (advances_branches target branches quiet evaluates)⟩
    | action isAction _ => cases isAction
  | branchFails fails =>
    obtain ⟨quiet, _, _⟩ := steady.branch_parts
    cases encodes with
    | branch branches _ _ _ _ | branchOpen branches _ _ =>
      exact .inr ⟨_, _, rfl, .refl, react_branches_error branches quiet fails⟩
    | action isAction _ => cases isAction
  | @loopDone span cond body machine drawn evaluates =>
    obtain ⟨quiet, _⟩ := steady.loop_parts
    obtain ⟨header, bodyStart, exit, bodyEnd, rfl, enters, branches, _, _⟩ :=
      encodes.exists_header target inputs rfl
    exact .inl
      ⟨exit, rfl, (enters machine).tail (advances_branches target branches quiet evaluates)⟩
  | @loopAgain span cond body machine middle after word drawn bodyExit exit evaluates holds _
      again _ bodyInduction loopInduction =>
      obtain ⟨quiet, bodySteady⟩ := steady.loop_parts
      obtain ⟨header, bodyStart, exitNode, bodyEnd, rfl, enters, branches, bodyEncodes, led⟩ :=
        encodes.exists_header target inputs rfl
      have advances := advances_branches target branches quiet evaluates
      rw [if_neg holds] at advances
      have back := ((bodyInduction bodySteady bodyEncodes).ledOn led).repeats again
      have rest : graph.Arrives target inputs targets (some exitNode) (header, middle) exit after :=
        loopInduction steady (.loop branches bodyEncodes led)
      exact rest.of_reaches (((enters machine).tail advances).trans back)
  | @loopLeave span cond body machine after word drawn bodyExit evaluates holds _ leaves
      induction =>
      obtain ⟨quiet, bodySteady⟩ := steady.loop_parts
      obtain ⟨header, bodyStart, exitNode, bodyEnd, rfl, enters, branches, bodyEncodes, led⟩ :=
        encodes.exists_header target inputs rfl
      have advances := advances_branches target branches quiet evaluates
      rw [if_neg holds] at advances
      have out := ((induction bodySteady bodyEncodes).ledOn led).leaves targets leaves
      exact out.of_reaches ((enters machine).tail advances)
  | @loopFails span cond body machine error fails =>
    obtain ⟨quiet, _⟩ := steady.loop_parts
    obtain ⟨header, bodyStart, exit, bodyEnd, rfl, enters, branches, _, _⟩ :=
      encodes.exists_header target inputs rfl
    exact .inr ⟨_, (header, machine), rfl, enters machine,
      react_branches_error branches quiet fails⟩
  | @ret span machine =>
    cases encodes with
    | ret leads isExit =>
      exact .inr ⟨.terminated, (_, machine), rfl, .single (advances_leads leads machine),
        react_exit isExit⟩
    | action isAction _ => cases isAction
  | @brk span machine =>
    cases encodes with
    | brk leads => exact .inl ⟨_, rfl, .single (advances_leads leads machine)⟩
    | action isAction _ => cases isAction
  | @cont span machine =>
    cases encodes with
    | cont leads => exact .inl ⟨_, rfl, .single (advances_leads leads machine)⟩
    | action isAction _ => cases isAction
  | _ =>
    cases encodes with
    | action isAction performs =>
      exact arrives_of_action (by constructor <;> assumption) isAction performs

theorem exists_executes_of_action (isAction : stmt.action? = some action) (target : String)
    (inputs : Inputs) (machine : Machine) :
    ∃ exit after, stmt.Executes target inputs machine exit after := by
  cases stmt with
  | assign span var value =>
    cases evaluates : value.eval inputs.draw machine.env machine.drawn with
    | error error => exact ⟨_, _, .assignFails evaluates⟩
    | ok result => exact ⟨_, _, .assign evaluates⟩
  | call span result callee args =>
    cases evaluates : machine.evalArgs inputs args with
    | error error => exact ⟨_, _, .callFails evaluates⟩
    | ok ready =>
      by_cases same : callee = target
      · subst same
        exact ⟨_, _, .callTarget evaluates⟩
      · by_cases dropped : result = ""
        · subst dropped
          exact ⟨_, _, .callDrops evaluates same⟩
        · exact ⟨_, _, .call evaluates same dropped⟩
  | assume span cond =>
    cases evaluates : cond.eval inputs.draw machine.env machine.drawn with
    | error error => exact ⟨_, _, .assumeFails evaluates⟩
    | ok result =>
      obtain ⟨word, drawn⟩ := result
      by_cases zero : word = 0
      · subst zero
        exact ⟨_, _, .assumeBlocks evaluates⟩
      · exact ⟨_, _, .assume evaluates zero⟩
  | skip span => exact ⟨_, _, .skip⟩
  | _ => cases isAction

/-- A loop that the graph executes to the end from its head has a direct execution.  The induction
is on the number of moves, since every iteration needs some. -/
theorem exists_executes_of_loop {span : Span} {body : Stmt} {header bodyStart exitNode steps : Nat}
    {bodyEnd : Option Nat} {ending : Finish} {env : Env}
    (steady : (Stmt.loop span cond body).Steady)
    (branches : graph.Branches header cond bodyStart exitNode)
    (bodyEncodes : graph.Encodes (some { header, exit := exitNode }) body bodyStart bodyEnd)
    (led : graph.LedOn bodyEnd (some header))
    (bodyExecutes : ∀ {steps machine},
      graph.FinishesIn target inputs ending env steps bodyStart machine →
      ∃ exit after, body.Executes target inputs machine exit after)
    (finishes : graph.FinishesIn target inputs ending env steps header machine) :
    ∃ exit after, (Stmt.loop span cond body).Executes target inputs machine exit after := by
  obtain ⟨quiet, bodySteady⟩ := steady.loop_parts
  induction steps using Nat.strong_induction_on generalizing machine with
  | _ steps induction =>
    cases evaluates : cond.eval inputs.draw machine.env machine.drawn with
    | error error => exact ⟨_, _, .loopFails evaluates⟩
    | ok result =>
      obtain ⟨word, drawn⟩ := result
      by_cases zero : word = 0
      · subst zero
        exact ⟨_, _, .loopDone evaluates⟩
      · have advances := advances_branches target branches quiet evaluates
        rw [if_neg zero] at advances
        obtain ⟨fewer, less, inBody⟩ := finishes.of_advances advances
        obtain ⟨bodyExit, middle, executes⟩ := bodyExecutes inBody
        have arrives := (arrives_of_executes executes bodySteady bodyEncodes).ledOn led
        cases again : bodyExit.repeats with
        | false => exact ⟨_, _, .loopLeave evaluates zero executes again⟩
        | true =>
          obtain ⟨least, le, atHeader⟩ := inBody.of_reaches (arrives.repeats again)
          obtain ⟨exit, after, rest⟩ :=
            induction least (Nat.lt_of_le_of_lt le less) atHeader
          exact ⟨exit, after, .loopAgain evaluates zero executes again rest⟩

/-- A statement that the graph executes to the end has a direct execution. -/
theorem exists_executes {ending : Finish} {env : Env} {steps : Nat}
    (encodes : graph.Encodes targets stmt current finish) (steady : stmt.Steady)
    (finishes : graph.FinishesIn target inputs ending env steps current machine) :
    ∃ exit after, stmt.Executes target inputs machine exit after := by
  induction encodes generalizing steps machine with
  | blockEnd => exact ⟨_, _, .blockEnd⟩
  | blockNext firstEncodes _ firstInduction restInduction =>
    obtain ⟨firstSteady, restSteady⟩ := steady.block_cons
    obtain ⟨exit, middle, executes⟩ := firstInduction firstSteady finishes
    by_cases falls : exit = .next
    · subst falls
      obtain ⟨node, isMiddle, reaches⟩ :=
        (arrives_of_executes executes firstSteady firstEncodes).next
      cases isMiddle
      obtain ⟨fewer, _, rest⟩ := finishes.of_reaches reaches
      obtain ⟨exit, after, restExecutes⟩ := restInduction restSteady rest
      exact ⟨exit, after, .blockNext executes restExecutes⟩
    · exact ⟨exit, middle, .blockStop executes falls⟩
  | blockStop firstEncodes induction =>
    obtain ⟨firstSteady, _⟩ := steady.block_cons
    obtain ⟨exit, after, executes⟩ := induction firstSteady finishes
    refine ⟨exit, after, .blockStop executes ?_⟩
    intro falls
    subst falls
    obtain ⟨node, impossible, _⟩ :=
      (arrives_of_executes executes firstSteady firstEncodes).next
    cases impossible
  | action isAction _ => exact exists_executes_of_action isAction target inputs machine
  | branch branches _ _ _ _ yesInduction noInduction =>
    obtain ⟨quiet, yesSteady, noSteady⟩ := steady.branch_parts
    cases evaluates : Expr.eval inputs.draw machine.env _ machine.drawn with
    | error error => exact ⟨_, _, .branchFails evaluates⟩
    | ok result =>
      obtain ⟨word, drawn⟩ := result
      obtain ⟨fewer, _, rest⟩ :=
        finishes.of_advances (advances_branches target branches quiet evaluates)
      by_cases zero : word = 0
      · subst zero
        obtain ⟨exit, after, executes⟩ := noInduction noSteady rest
        exact ⟨exit, after, .branchNo evaluates executes⟩
      · rw [if_neg zero] at rest
        obtain ⟨exit, after, executes⟩ := yesInduction yesSteady rest
        exact ⟨exit, after, .branchYes evaluates zero executes⟩
  | branchOpen branches _ _ yesInduction =>
    obtain ⟨quiet, yesSteady, _⟩ := steady.branch_parts
    cases evaluates : Expr.eval inputs.draw machine.env _ machine.drawn with
    | error error => exact ⟨_, _, .branchFails evaluates⟩
    | ok result =>
      obtain ⟨word, drawn⟩ := result
      by_cases zero : word = 0
      · subst zero
        exact ⟨_, _, .branchOpen evaluates⟩
      · obtain ⟨fewer, _, rest⟩ :=
          finishes.of_advances (advances_branches target branches quiet evaluates)
        rw [if_neg zero] at rest
        obtain ⟨exit, after, executes⟩ := yesInduction yesSteady rest
        exact ⟨exit, after, .branchYes evaluates zero executes⟩
  | enter leads _ induction =>
    obtain ⟨fewer, _, rest⟩ := finishes.of_advances (advances_leads leads machine)
    exact induction steady rest
  | loop branches bodyEncodes led induction =>
    exact exists_executes_of_loop steady branches bodyEncodes led
      (induction steady.loop_parts.2) finishes
  | ret => exact ⟨_, _, .ret⟩
  | brk => exact ⟨_, _, .brk⟩
  | cont => exact ⟨_, _, .cont⟩

end Simulation

section Programs

variable {name : String} {program : Stmt} {graph : FlowGraph} {target : String} {inputs : Inputs}

/-- Outside of loops every exit ends the execution, if the end of the program does so. -/
theorem exists_finish_of_arrives {last : Option Nat} {place : Nat × Machine} {exit : Exit}
    {after : Machine} (arrives : graph.Arrives target inputs none last place exit after)
    (ends : ∀ node, last = some node → graph.Ends node) :
    ∃ ending, exit.outcome? = some ending ∧
      ∃ steps, graph.FinishesIn target inputs ending after.env steps place.1 place.2 := by
  rcases arrives with ⟨node, isNode, reaches⟩ | ⟨ending, halt, isEnding, reaches, halts⟩
  · cases exit with
    | next =>
      refine ⟨.terminated, rfl, ?_⟩
      rcases ends node isNode with isExit | ⟨exitNode, leads, isExit⟩
      · exact exists_finishesIn_of_reaches reaches (react_exit isExit)
      · exact exists_finishesIn_of_reaches (reaches.tail (advances_leads leads after))
          (react_exit isExit)
    | _ => cases isNode
  · refine ⟨ending, ?_, exists_finishesIn_of_reaches reaches halts⟩
    cases exit with
    | next => cases isEnding
    | _ => exact isEnding

/-- The control-flow graph of a program means what the program means. -/
theorem finishes_iff_run (built : (build name program).1 = .ok graph) (steady : program.Steady)
    (target : String) (inputs : Inputs) (finish : Finish) (env : Env) :
    program.Finishes target inputs finish env ↔
      ∃ limit, (graph.run target inputs limit).ending.finish? = some finish ∧
        (graph.run target inputs limit).env = env := by
  obtain ⟨last, encodes, ends⟩ := build_encodes built
  rw [exists_run_iff]
  constructor
  · rintro ⟨exit, after, executes, exits, rfl⟩
    obtain ⟨ending, otherExits, steps, finishes⟩ :=
      exists_finish_of_arrives (arrives_of_executes executes steady encodes) ends
    rw [exits] at otherExits
    cases otherExits
    exact ⟨steps, finishes⟩
  · rintro ⟨steps, finishes⟩
    obtain ⟨exit, after, executes⟩ := exists_executes encodes steady finishes
    obtain ⟨ending, exits, otherSteps, otherFinishes⟩ :=
      exists_finish_of_arrives (arrives_of_executes executes steady encodes) ends
    obtain ⟨rfl, rfl⟩ := otherFinishes.unique finishes
    exact ⟨exit, after, executes, exits, rfl⟩

/-- A loop that is left by a jump, a return after it and a call that nothing gets to. -/
def leavesLoop : Stmt :=
  .block {} [
    .loop {} (.binary 0 (.compare .lt) (.var 0 "x") (.literal 0 5))
      (.block {} [
        .assign {} "x" (.binary 0 (.arith .add) (.var 0 "x") (.literal 0 1)),
        .branch {} (.binary 0 (.compare .eq) (.var 0 "x") (.literal 0 3)) (.brk {}) .missing]),
    .ret {},
    .call {} "" "reach_error" []]

theorem leavesLoop_finishes : ∃ graph, (build "leavesLoop" leavesLoop).1 = .ok graph ∧
    leavesLoop.Steady ∧
    leavesLoop.Finishes "reach_error" {} .terminated ((∅ : Env).insert "x" 3) := by
  have built : (build "leavesLoop" leavesLoop).1 = .ok (lowered "leavesLoop" leavesLoop) :=
    build_ok_iff.mpr ⟨by cbv, rfl, by cbv⟩
  have steady : leavesLoop.Steady := by
    unfold Stmt.Steady
    decide
  refine ⟨_, built, steady, (finishes_iff_run built steady "reach_error" {} _ _).mpr ⟨20, ?_, ?_⟩⟩
  · cbv
  · cbv

end Programs

end FlowGraph

end Reachability
