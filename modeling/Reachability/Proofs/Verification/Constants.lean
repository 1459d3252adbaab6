import Mathlib
import Reachability.Proofs.Bounds.Lattice
import Reachability.Proofs.FlowGraph.Straight
import Reachability.Proofs.Verification.Soundness
import Reachability.Proofs.Verification.Termination

/-!
# Explorations of programs without branches

Along a line there is one tuple for each node: the bounds after the assignments
that lead there.  An exploration meets no other, so it merges nothing, finds no
target, and holds a single state at the exit.  If the assignments are regular,
the bounds of this state are the values at the end of an execution.
-/

namespace Reachability

open ComponentState

/-- The tuples along a line to the exit. -/
def OnLine (graph : FlowGraph) (components : List Component) (assignments : List (String × Expr))
    (tuple : List ComponentState) : Prop :=
  ∃ done rest node, done ++ rest = assignments ∧ node < graph.nodes.length ∧
    graph.Line node rest graph.exit ∧
    tuple = components.map (Component.state (graph.node node) (Bounds.unknown.assign done))

section Tuples

variable {graph : FlowGraph} {target : String} {components : List Component}
  {assignments : List (String × Expr)} {tuple other next merged : List ComponentState} {edge : Edge}

theorem OnLine.isTarget (onLine : OnLine graph components assignments tuple) :
    (Component.joint graph target components).isTarget tuple = false := by
  obtain ⟨_, _, _, _, _, _, rfl⟩ := onLine
  exact isTarget_state _ _

theorem OnLine.eq_of_place (located : .location ∈ components)
    (stuck : graph.outgoing graph.exit = []) (onLine : OnLine graph components assignments tuple)
    (otherOnLine : OnLine graph components assignments other)
    (same : (Component.joint graph target components).place tuple =
      (Component.joint graph target components).place other) :
    tuple = other := by
  obtain ⟨done, rest, node, split, _, line, rfl⟩ := onLine
  obtain ⟨otherDone, otherRest, otherNode, otherSplit, _, otherLine, rfl⟩ := otherOnLine
  rw [place_state located, place_state located, Option.some.injEq] at same
  subst same
  obtain rfl := line.unique otherLine stuck
  rw [← otherSplit] at split
  rw [List.append_cancel_right split]

theorem OnLine.initial (simple : graph.Simple)
    (line : graph.Line graph.entry assignments graph.exit) :
    OnLine graph components assignments
      ((Component.joint graph target components).initial (graph.node graph.entry)) :=
  ⟨[], assignments, graph.entry, rfl, simple.entryNode, line, composite_initial _⟩

theorem steps_state {node : Node} {bounds after : Bounds}
    (passes : bounds.after edge.action = some after) (silent : edge.action.calls target = false)
    (steps : List.Forall₂ (Steps graph target edge)
      (components.map (Component.state node bounds)) next) :
    next = components.map (Component.state (graph.node edge.target) after) := by
  induction components generalizing next with
  | nil =>
    cases steps
    rfl
  | cons component components induction =>
    cases steps with
    | cons here rest =>
      rw [List.map_cons, induction rest]
      congr 1
      cases component with
      | location =>
        cases here
        rfl
      | value policy =>
        cases here with
        | bounds otherPasses =>
          rw [passes, Option.some.injEq] at otherPasses
          rw [otherPasses]
          rfl
      | calls =>
        cases here
        simp [Component.state, silent]

theorem OnLine.step (simple : graph.Simple) (located : .location ∈ components)
    (stuck : graph.outgoing graph.exit = []) (onLine : OnLine graph components assignments tuple)
    (member : edge ∈ graph.edges) (steps : List.Forall₂ (Steps graph target edge) tuple next) :
    OnLine graph components assignments next := by
  obtain ⟨done, rest, node, split, _, line, rfl⟩ := onLine
  have leaves := leaves_of_steps located (belongs_state _ _) (place_state located node _)
    member steps
  cases line with
  | done =>
    rw [stuck] at leaves
    cases leaves
  | @next _ _ _ var value rest performs line =>
    obtain ⟨only, outgoing, isAssign, rfl⟩ := performs
    rw [outgoing, List.mem_singleton] at leaves
    subst leaves
    refine ⟨done ++ [(var, value)], rest, edge.target, ?_, (simple.bounded edge member).2, line, ?_⟩
    · rw [← split, List.append_assoc, List.singleton_append]
    · apply steps_state _ _ steps
      · rw [isAssign, Bounds.after, Bounds.assign, Bounds.assign, List.foldl_append]
        rfl
      · rw [isAssign]
        rfl

theorem MergesAll.eq_self (merges : MergesAll tuple tuple merged) : merged = tuple := by
  induction tuple generalizing merged with
  | nil =>
    cases merges
    rfl
  | cons state states induction =>
    cases merges with
    | cons here rest =>
      rw [induction rest]
      congr 1
      cases here with
      | location => rfl
      | bounds _ joined =>
        rcases joined with rfl | rfl
        · rfl
        · rw [Bounds.join_self]
      | call => rfl

theorem composite_merge_self (belongs : List.Forall₂ Belongs components tuple) :
    (Component.joint graph target components).merge tuple tuple =
      none := by
  cases merges : (Component.joint graph target components).merge tuple tuple with
  | none => rfl
  | some merged =>
    obtain rfl := (mergesAll_of_merge belongs belongs merges).eq_self
    have lighter :=
      (size_mergedTuple belongs belongs (Analysis.mergedTuple_of_merge merges)).2 rfl
    exact absurd lighter (Nat.lt_irrefl _)

theorem composite_covers_self (belongs : List.Forall₂ Belongs components tuple) :
    (Component.joint graph target components).covers tuple tuple =
      true := by
  apply (coversTuple_iff belongs belongs).mpr
  rw [List.forall₂_same]
  intro state _
  cases state with
  | location node => exact .location rfl
  | bounds known => exact .bounds known.includes_refl
  | call callee => exact .call

end Tuples

section Laws

variable {graph : FlowGraph} {components : List Component} {assignments : List (String × Expr)}

theorem onLine_linkLaws (target : String) (simple : graph.Simple) (located : .location ∈ components)
    (watched : .calls ∈ components) (line : graph.Line graph.entry assignments graph.exit)
    (stuck : graph.outgoing graph.exit = []) :
    let analysis := Component.joint graph target components
    analysis.LinkLaws graph
      (fun tuple => List.Forall₂ Belongs components tuple ∧
        OnLine graph components assignments tuple) (Linked analysis graph target) := by
  intro analysis
  apply (composite_linkLaws target simple located watched).and
  · exact OnLine.initial simple line
  · intro tuple edge next belongs onLine member computed
    exact onLine.step simple located stuck member ((mem_successorTuples belongs).mp computed)
  · intro new reached merged newBelongs reachedBelongs newOnLine onLine merges
    have place := (composite_merge newBelongs reachedBelongs merges).2.1.1
    obtain rfl := newOnLine.eq_of_place located stuck onLine place
    rw [composite_merge_self newBelongs] at merges
    cases merges

/-- Each node is a slot, and nothing is ever merged. -/
theorem onLine_slotLaws (target : String) (assignments : List (String × Expr))
    (located : .location ∈ components) (stuck : graph.outgoing graph.exit = []) :
    let analysis := Component.joint graph target components
    analysis.SlotLaws
      (fun tuple => List.Forall₂ Belongs components tuple ∧
        OnLine graph components assignments tuple) analysis.place
      ((List.range graph.nodes.length).map some) (fun _ => 0) 0 := by
  intro analysis
  have same : ∀ {new reached}, OnLine graph components assignments new →
      OnLine graph components assignments reached →
      analysis.place new = analysis.place reached → new = reached :=
    fun onLine other => onLine.eq_of_place located stuck other
  constructor
  · rintro _ ⟨_, done, rest, node, _, bound, _, rfl⟩
    rw [place_state located]
    exact List.mem_map_of_mem (List.mem_range.mpr bound)
  · exact fun _ _ place => place
  · exact fun _ => Nat.le_refl 0
  · intro new reached newProper reachedProper place uncovered
    obtain rfl := same newProper.2 reachedProper.2 place
    rw [composite_covers_self newProper.1] at uncovered
    cases uncovered
  · intro new reached merged newProper reachedProper merges
    have place := (composite_merge newProper.1 reachedProper.1 merges).2.1.1
    obtain rfl := same newProper.2 reachedProper.2 place
    rw [composite_merge_self newProper.1] at merges
    cases merges
  · intro new reached merged merges
    exact covers_of_mergedTuple (Analysis.mergedTuple_of_merge merges)

end Laws

namespace Launch

variable {config : Config} {name : String} {program : Stmt}
  {setting : Setting (List ComponentState)} {prior : Arg (List ComponentState)}
  {start final : Search (List ComponentState)} {assignments : List (String × Expr)}

section

variable (launch : Launch config name program setting prior start)
  (assigns : program.Assigns assignments)

include launch assigns

theorem exists_lineLaws :
    ∃ components, Composition config setting components ∧
      setting.analysis.LinkLaws setting.graph
        (fun tuple => List.Forall₂ Belongs components tuple ∧
          OnLine setting.graph components assignments tuple)
        (Linked setting.analysis setting.graph config.analysis.targetFunction) ∧
      setting.analysis.SlotLaws
        (fun tuple => List.Forall₂ Belongs components tuple ∧
          OnLine setting.graph components assignments tuple)
        setting.analysis.place
        ((List.range setting.graph.nodes.length).map some) (fun _ => 0) 0 := by
  obtain ⟨components, composition⟩ := launch.exists_composition
  obtain ⟨line, stuck⟩ := FlowGraph.build_line launch.built assigns
  have linkLaws := onLine_linkLaws config.analysis.targetFunction launch.simple composition.located
    composition.watched line stuck
  have slotLaws := onLine_slotLaws config.analysis.targetFunction assignments
    composition.located stuck
  rw [← composition.composed] at linkLaws slotLaws
  exact ⟨components, composition, linkLaws, slotLaws⟩

/-- The exploration of a program that only assigns is exhausted after a bounded number of
iterations. -/
theorem exists_exhausted (unbounded : setting.maxIterations ≤ 0) {fuel : Nat}
    (enough : setting.graph.nodes.length < fuel) :
    ∃ final, start.explore setting none fuel = .finished final .exhausted := by
  obtain ⟨components, composition, linkLaws, slotLaws⟩ := launch.exists_lineLaws assigns
  obtain ⟨order, _, started⟩ := launch.started
  have within : ((List.range setting.graph.nodes.length).map some).length * (0 + 1) <
      start.stats.iterations + fuel := by
    rw [List.length_map, List.length_range, Search.iterations_start started]
    omega
  obtain ⟨final, verdict, explored, conclusive⟩ :=
    Search.exists_verdict linkLaws slotLaws started unbounded
      (fun heads => launch.step_ne_failed heads none) .refl within
  cases verdict with
  | exhausted => exact ⟨final, explored⟩
  | inconclusive reason => exact absurd rfl (conclusive reason)
  | targetFound key path witness =>
    obtain ⟨head, state, heads, _, taken, rfl, isTarget, _⟩ :=
      launch.exists_visit (Search.ends_of_explore explored (by simp))
    have tracked := Search.head_tracked linkLaws started heads
    have live := tracked.state_live taken.member
    obtain ⟨tuple, found⟩ := Arg.exists_state live
    rw [Arg.isTarget_eq, found, Option.map_some, composition.composed,
      (tracked.proper live found).2.isTarget] at isTarget
    cases isTarget

/-- At the exit there is one state, and its bounds are those after all assignments. -/
theorem exists_exit_state (ends : start.Ends setting (.finished final .exhausted)) {inputs : Inputs}
    {env : Env} (becomes : inputs.initial.Becomes assignments env) :
    ∃ components state, Composition config setting components ∧
      final.reached.statesAt (some setting.graph.exit) = [state] ∧
      final.arg.wrapped? state.key = some (components.map (Component.state
        (setting.graph.node setting.graph.exit) (Bounds.unknown.assign assignments))) := by
  obtain ⟨components, composition, linkLaws, slotLaws⟩ := launch.exists_lineLaws assigns
  obtain ⟨order, _, started⟩ := launch.started
  obtain ⟨line, stuck⟩ := FlowGraph.build_line launch.built assigns
  have occurs : start.Occurs setting final := .ended ends
  have tracked := occurs.tracked linkLaws started
  have separated := (occurs.paced linkLaws slotLaws started).separated
  have tuples : ∀ state ∈ final.reached.statesAt (some setting.graph.exit),
      state ∈ final.reached.states ∧ final.arg.wrapped? state.key = some (components.map
        (Component.state (setting.graph.node setting.graph.exit)
          (Bounds.unknown.assign assignments))) := by
    intro state member
    obtain ⟨reached, location⟩ := tracked.valid.mem_statesAt.mp member
    have live := tracked.state_live reached
    obtain ⟨tuple, found⟩ := Arg.exists_state live
    obtain ⟨_, done, rest, node, split, _, onward, rfl⟩ := tracked.proper live found
    rw [tracked.listed state reached, Search.entry_location, found, Option.bind_some,
      composition.composed, place_state composition.located, Option.some.injEq]
      at location
    subst location
    obtain rfl := onward.unique .done stuck
    rw [List.append_nil] at split
    rw [← split]
    exact ⟨reached, found⟩
  obtain ⟨point, run, stops⟩ := run_stops setting.graph config.analysis.targetFunction inputs
    assignments.length
  obtain ⟨state, member, location, _⟩ := (launch.covers_of_stops ends run stops).2
  rw [(FlowGraph.run_line line stuck becomes (Nat.le_refl _)).2.2] at location
  have here : state ∈ final.reached.statesAt (some setting.graph.exit) :=
    tracked.valid.mem_statesAt.mpr ⟨member, location⟩
  refine ⟨components, state, composition, ?_, (tuples state here).2⟩
  apply List.perm_singleton.mp
  rw [List.perm_ext_iff_of_nodup (tracked.valid.nodup_statesAt _) (List.nodup_singleton _)]
  intro other
  rw [List.mem_singleton]
  constructor
  · intro otherHere
    obtain ⟨otherMember, otherFound⟩ := tuples other otherHere
    exact separated other otherMember state member _ _ otherFound (tuples state here).2 rfl
  · rintro rfl
    exact here

end

end Launch

theorem Stmt.Assigns.mem_vars_iff {program : Stmt} {assignments : List (String × Expr)} {env : Env}
    (assigns : program.Assigns assignments) (regular : Regular [] env assignments) {name : String} :
    name ∈ program.vars ↔ name ∈ assignments.map Prod.fst := by
  obtain ⟨_, _, _, reads⟩ := regular.becomes (Bounds.unknown.pins_nil env)
  rw [assigns.mem_vars]
  constructor
  · rintro ⟨assignment, member, rfl | read⟩
    · exact List.mem_map_of_mem member
    · exact reads assignment member name read
  · intro member
    obtain ⟨assignment, listed, rfl⟩ := List.mem_map.mp member
    exact ⟨assignment, listed, .inl rfl⟩

/-- Known values stay known.  An expression over variables with known values that neither overflows
nor divides by zero has the value that evaluation finds and no other.  So it is with a program that
assigns such expressions and reads only what it has assigned: its exploration is exhausted, and the
one state that it has reached at the exit knows the value of every variable after an execution. -/
theorem constants_tracked :
    (∀ (expr : Expr) (env : Env) (bounds : Bounds), expr.Plain → expr.Exact env →
      (∀ name ∈ expr.vars, bounds.get name = .const (env.value name)) →
      ∃ word, expr.value env = .ok word ∧ bounds.eval expr = .const word) ∧
    ∀ (config : Config) (traced : Bool) (name : String) (program : Stmt) (graph : FlowGraph)
      (assignments : List (String × Expr)) (inputs : Inputs),
      config.validate = .ok () → "value" ∈ config.analysis.components →
      (FlowGraph.build name program).1 = .ok graph → program.Assigns assignments →
      Regular [] inputs.initial assignments →
      ∃ preparation,
        (Verification.prepare config.analysis traced name program).1 = .ok preparation ∧
        preparation.setting.graph = graph ∧
        (config.analysis.maxIterations ≤ 0 → ∀ fuel, graph.nodes.length < fuel →
          ∃ final, preparation.search.explore preparation.setting none fuel =
            .finished final .exhausted) ∧
        ∀ final, preparation.search.Ends preparation.setting (.finished final .exhausted) →
          ∃ state tuple, final.reached.statesAt (some graph.exit) = [state] ∧
            final.arg.wrapped? state.key = some tuple ∧ (∃ bounds, .bounds bounds ∈ tuple) ∧
            ∀ bounds, .bounds bounds ∈ tuple → ∀ limit, assignments.length ≤ limit →
              let outcome := graph.run config.analysis.targetFunction inputs limit
              outcome.ending = .terminated ∧
              (∀ name ∈ program.vars, ∃ value, outcome.env.get? name = some value ∧
                bounds.get name = .const value) ∧
              ∀ name, name ∉ program.vars → outcome.env.get? name = inputs.initial.get? name := by
  constructor
  · intro expr env bounds plain exact pins
    obtain ⟨word, gives, isConst⟩ := Bounds.eval_const plain exact pins
    exact ⟨word, gives.value, isConst⟩
  · intro config traced name program graph assignments inputs valid followed built assigns regular
    obtain ⟨preparation, prepared, rfl, sameBound⟩ := exists_preparation valid built traced
    have launch := launch_of_prepare valid prepared
    obtain ⟨env, becomes, pins, _⟩ := regular.becomes (Bounds.unknown.pins_nil inputs.initial)
    obtain ⟨line, stuck⟩ := FlowGraph.build_line built assigns
    refine ⟨preparation, prepared, rfl, ?_, ?_⟩
    · intro unbounded fuel enough
      exact launch.exists_exhausted assigns (sameBound ▸ unbounded) enough
    · intro final ends
      obtain ⟨components, state, composition, only, found⟩ :=
        launch.exists_exit_state assigns ends becomes
      refine ⟨state, _, only, found, ?_, ?_⟩
      · rw [← composition.named] at followed
        obtain ⟨component, member, isValue⟩ := List.mem_map.mp followed
        cases component with
        | value policy => exact ⟨_, List.mem_map.mpr ⟨_, member, rfl⟩⟩
        | location | calls => simp [Component.name] at isValue
      · intro bounds member limit enough
        obtain ⟨component, _, isBounds⟩ := List.mem_map.mp member
        have isAfter : bounds = Bounds.unknown.assign assignments := by
          cases component with
          | value policy =>
            cases isBounds
            rfl
          | location | calls => cases isBounds
        obtain ⟨ending, isEnv, _⟩ := FlowGraph.run_line line stuck becomes enough
        rw [isAfter]
        dsimp only
        rw [isEnv]
        refine ⟨ending, ?_, ?_⟩
        · intro name member
          have assigned := (assigns.mem_vars_iff regular).mp member
          obtain ⟨value, isValue⟩ := becomes.get?.1 assigned
          refine ⟨value, isValue, ?_⟩
          rw [pins name assigned, Env.value, isValue]
          rfl
        · intro name absent
          rw [assigns.mem_vars_iff regular] at absent
          exact becomes.get?.2 absent

/-- Assignments that go to both ends of the words without passing them, and use conditions as
numbers. -/
def reachesEnds : Stmt :=
  .block {} [
    .assign {} "least" (.literal 0 (-9223372036854775808)),
    .block {} [
      .assign {} "rest" (.binary 0 (.arith .rem) (.var 0 "least") (.literal 0 (-1)))],
    .assign {} "greatest"
      (.unary 0 .neg (.binary 0 (.arith .add) (.var 0 "least") (.literal 0 1))),
    .assign {} "both"
      (.binary 0 (.arith .add) (.unary 0 .not (.var 0 "rest"))
        (.binary 0 (.compare .lt) (.var 0 "least") (.var 0 "greatest")))]

theorem constants_tracked_reachesEnds :
    (∃ word, (Expr.binary 0 (.arith .rem) (.var 0 "x") (.literal 0 (-1))).value
        ((∅ : Env).insert "x" Int64.minValue) = .ok word ∧
      (Bounds.unknown.set "x" (.const Int64.minValue)).eval
        (.binary 0 (.arith .rem) (.var 0 "x") (.literal 0 (-1))) = .const word) ∧
    ∃ assignments graph preparation final state tuple,
      reachesEnds.Assigns assignments ∧ Regular [] ∅ assignments ∧
      (FlowGraph.build "ends" reachesEnds).1 = .ok graph ∧
      (Verification.prepare {} false "ends" reachesEnds).1 = .ok preparation ∧
      preparation.search.explore preparation.setting none 20 = .finished final .exhausted ∧
      final.reached.statesAt (some graph.exit) = [state] ∧
      final.arg.wrapped? state.key = some tuple ∧
      ∃ bounds, .bounds bounds ∈ tuple ∧ bounds.get "rest" = .const 0 ∧
        bounds.get "greatest" = .const Int64.maxValue ∧ bounds.get "both" = .const 2 := by
  constructor
  · exact constants_tracked.1 _ _ _ (by decide +kernel) (by decide +kernel) (by decide +kernel)
  · have assigns : ∃ assignments, reachesEnds.Assigns assignments ∧
        Regular [] ({} : Inputs).initial assignments ∧ assignments.length = 4 := by
      refine ⟨_, .blockNext .assign (.blockNext (.blockNext .assign .blockEnd)
        (.blockNext .assign (.blockNext .assign .blockEnd))), ?_, rfl⟩
      decide +kernel
    obtain ⟨assignments, assigns, regular, length⟩ := assigns
    have built : (FlowGraph.build "ends" reachesEnds).1 =
        .ok (FlowGraph.lowered "ends" reachesEnds) :=
      FlowGraph.build_ok_iff.mpr ⟨by cbv, rfl, by cbv⟩
    obtain ⟨preparation, prepared, _, exhausts, settles⟩ :=
      constants_tracked.2 {} false "ends" reachesEnds _ assignments {} rfl (by decide) built assigns
        regular
    obtain ⟨final, explored⟩ := exhausts (Int.le_refl 0) 20 (by decide +kernel)
    obtain ⟨state, tuple, only, found, ⟨bounds, member⟩, known⟩ :=
      settles final (Search.ends_of_explore explored (by simp))
    obtain ⟨_, known, _⟩ := known bounds member 4 (Nat.le_of_eq length)
    have agrees : ∀ name word, name ∈ reachesEnds.vars →
        ((FlowGraph.lowered "ends" reachesEnds).run "reach_error" {} 4).env.get? name = some word →
        bounds.get name = .const word := by
      intro name word listed isWord
      obtain ⟨value, isValue, isConst⟩ := known name listed
      rw [isConst, Option.some.inj (isValue.symm.trans isWord)]
    exact ⟨assignments, _, preparation, final, state, tuple, assigns, regular, built, prepared,
      explored, only, found, bounds, member,
      agrees "rest" 0 (by decide +kernel) (by decide +kernel),
      agrees "greatest" Int64.maxValue (by decide +kernel) (by decide +kernel),
      agrees "both" 2 (by decide +kernel) (by decide +kernel)⟩

end Reachability
