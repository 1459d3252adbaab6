import Mathlib
import Reachability.Proofs.Execution.Direct
import Reachability.Proofs.Source.Naming

/-!
# Effects of statements

What a part of a program does is a relation between the machine in front of it,
the way in which it ends and the machine behind it.  Such effects can be put
together: one after the other, by a condition, or in a loop with a last part that
each round ends with.  Direct execution respects this, and source statements are
given effects in the same way: their meaning does not depend on how loops are
lowered.
-/

namespace Reachability

namespace Exit

theorem repeats_iff {exit : Exit} : exit.repeats = true ↔ exit = .next ∨ exit = .cont := by
  cases exit <;> simp [repeats]

end Exit

/-- What a part of a program does. -/
abbrev Effect := Machine → Exit → Machine → Prop

namespace Effect

/-- Control leaves at once in some way. -/
def leave (exit : Exit) : Effect := fun machine ending after => ending = exit ∧ after = machine

/-- Nothing is done. -/
abbrev done : Effect := leave .next

/-- One part after the other, unless the first one ends in another way than going on. -/
def andThen (first second : Effect) : Effect := fun machine exit after =>
  (∃ middle, first machine .next middle ∧ second middle exit after) ∨
    first machine exit after ∧ exit ≠ .next

/-- One of two parts, as a condition decides. -/
inductive Choice (inputs : Inputs) (cond : Expr) (yes no : Effect) :
    Machine → Exit → Machine → Prop where
  | holds {machine after : Machine} {word : Int64} {drawn : Nat} {exit : Exit} :
      cond.eval inputs.draw machine.env machine.drawn = .ok (word, drawn) →
      word ≠ 0 →
      yes { machine with drawn } exit after →
      Choice inputs cond yes no machine exit after
  | fails {machine after : Machine} {drawn : Nat} {exit : Exit} :
      cond.eval inputs.draw machine.env machine.drawn = .ok (0, drawn) →
      no { machine with drawn } exit after →
      Choice inputs cond yes no machine exit after
  | undefined {machine : Machine} {error : EvalError} :
      cond.eval inputs.draw machine.env machine.drawn = .error error →
      Choice inputs cond yes no machine (.failed error) machine

/-- Rounds of a body and a last part, as long as a condition holds before them.  If the body goes on
or repeats the loop, the last part is run once before the condition is evaluated again.  If the body
ends in another way, the last part is not run: the loop is left, and the same end holds for all of
it unless the body only leaves the loop. -/
inductive Loop (inputs : Inputs) (cond : Expr) (body last : Effect) :
    Machine → Exit → Machine → Prop where
  | ends {machine : Machine} {drawn : Nat} :
      cond.eval inputs.draw machine.env machine.drawn = .ok (0, drawn) →
      Loop inputs cond body last machine .next { machine with drawn }
  | again {machine middle ready after : Machine} {word : Int64} {drawn : Nat}
      {bodyExit lastExit exit : Exit} :
      cond.eval inputs.draw machine.env machine.drawn = .ok (word, drawn) →
      word ≠ 0 →
      body { machine with drawn } bodyExit middle →
      bodyExit.repeats = true →
      last middle lastExit ready →
      lastExit.repeats = true →
      Loop inputs cond body last ready exit after →
      Loop inputs cond body last machine exit after
  | stops {machine middle after : Machine} {word : Int64} {drawn : Nat} {bodyExit lastExit : Exit} :
      cond.eval inputs.draw machine.env machine.drawn = .ok (word, drawn) →
      word ≠ 0 →
      body { machine with drawn } bodyExit middle →
      bodyExit.repeats = true →
      last middle lastExit after →
      lastExit.repeats = false →
      Loop inputs cond body last machine lastExit.leaving after
  | leaves {machine after : Machine} {word : Int64} {drawn : Nat} {bodyExit : Exit} :
      cond.eval inputs.draw machine.env machine.drawn = .ok (word, drawn) →
      word ≠ 0 →
      body { machine with drawn } bodyExit after →
      bodyExit.repeats = false →
      Loop inputs cond body last machine bodyExit.leaving after
  | undefined {machine : Machine} {error : EvalError} :
      cond.eval inputs.draw machine.env machine.drawn = .error error →
      Loop inputs cond body last machine (.failed error) machine

/-- Control never goes to the condition of the loop around the part. -/
def NeverRepeats (effect : Effect) : Prop := ∀ machine after, ¬ effect machine .cont after

variable {first second third body last : Effect} {inputs : Inputs} {cond : Expr}

theorem NeverRepeats.andThen (inFirst : first.NeverRepeats) (inSecond : second.NeverRepeats) :
    (first.andThen second).NeverRepeats := by
  rintro machine after (⟨middle, _, repeated⟩ | ⟨repeated, _⟩)
  · exact inSecond middle after repeated
  · exact inFirst machine after repeated

theorem NeverRepeats.choice (inFirst : first.NeverRepeats) (inSecond : second.NeverRepeats) :
    NeverRepeats (Choice inputs cond first second) := by
  intro machine after repeated
  cases repeated with
  | holds _ _ ended => exact inFirst _ _ ended
  | fails _ ended => exact inSecond _ _ ended

/-- A loop has rounds of its own: what is repeated in it is not the loop around it. -/
theorem NeverRepeats.loop : NeverRepeats (Loop inputs cond body last) := by
  intro machine after repeated
  have kept : ∀ exit : Exit, exit.repeats = false → exit.leaving ≠ .cont := by
    intro exit left
    cases exit with
    | cont => cases left
    | _ => nofun
  generalize found : Exit.cont = exit at repeated
  induction repeated with
  | ends | undefined => cases found
  | again _ _ _ _ _ _ _ induction => exact induction found
  | stops _ _ _ _ _ left | leaves _ _ _ left => exact kept _ left found.symm

theorem done_andThen (effect : Effect) : done.andThen effect = effect := by
  ext machine exit after
  constructor
  · rintro (⟨middle, ⟨_, rfl⟩, ended⟩ | ⟨⟨rfl, _⟩, stopped⟩)
    · exact ended
    · exact absurd rfl stopped
  · intro ended
    exact .inl ⟨machine, ⟨rfl, rfl⟩, ended⟩

theorem andThen_done (effect : Effect) : effect.andThen done = effect := by
  ext machine exit after
  constructor
  · rintro (⟨middle, ended, rfl, rfl⟩ | ⟨ended, _⟩)
    · exact ended
    · exact ended
  · intro ended
    by_cases goesOn : exit = .next
    · subst goesOn
      exact .inl ⟨after, ended, rfl, rfl⟩
    · exact .inr ⟨ended, goesOn⟩

theorem andThen_assoc (first second third : Effect) :
    (first.andThen second).andThen third = first.andThen (second.andThen third) := by
  ext machine exit after
  constructor
  · rintro (⟨middle, ⟨early, inFirst, inSecond⟩ | ⟨_, stopped⟩, inThird⟩ | ⟨ended, stopped⟩)
    · exact .inl ⟨early, inFirst, .inl ⟨middle, inSecond, inThird⟩⟩
    · exact absurd rfl stopped
    · rcases ended with ⟨early, inFirst, inSecond⟩ | ⟨inFirst, _⟩
      · exact .inl ⟨early, inFirst, .inr ⟨inSecond, stopped⟩⟩
      · exact .inr ⟨inFirst, stopped⟩
  · rintro (⟨early, inFirst, ⟨middle, inSecond, inThird⟩ | ⟨inSecond, stopped⟩⟩
      | ⟨inFirst, stopped⟩)
    · exact .inl ⟨middle, .inl ⟨early, inFirst, inSecond⟩, inThird⟩
    · exact .inr ⟨.inl ⟨early, inFirst, inSecond⟩, stopped⟩
    · exact .inr ⟨.inr ⟨inFirst, stopped⟩, stopped⟩

/-- The last part of each round can be made the end of the body, if the body does not jump over
it. -/
theorem loop_andThen (passed : body.NeverRepeats ∨ last = done) :
    Loop inputs cond (body.andThen last) done = Loop inputs cond body last := by
  have jumped {machine middle : Machine} (inBody : body machine .cont middle) : last = done :=
    passed.resolve_left fun never => never machine middle inBody
  ext machine exit after
  constructor
  · intro looped
    induction looped with
    | ends stopped => exact .ends stopped
    | again held nonzero round repeated ended _ _ induction =>
      obtain ⟨_, rfl⟩ := ended
      rcases round with ⟨middle, inBody, inLast⟩ | ⟨inBody, notNext⟩
      · exact .again held nonzero inBody rfl inLast repeated induction
      · have jumps := (Exit.repeats_iff.mp repeated).resolve_left notNext
        subst jumps
        refine .again held nonzero inBody rfl (show last _ .next _ from ?_) rfl induction
        rw [jumped inBody]
        exact ⟨rfl, rfl⟩
    | stops _ _ _ _ ended left =>
      rw [ended.1] at left
      cases left
    | leaves held nonzero round left =>
      rcases round with ⟨middle, inBody, inLast⟩ | ⟨inBody, _⟩
      · exact .stops held nonzero inBody rfl inLast left
      · exact .leaves held nonzero inBody left
    | undefined failed => exact .undefined failed
  · intro looped
    induction looped with
    | ends stopped => exact .ends stopped
    | again held nonzero inBody repeated inLast lastRepeats _ induction =>
      rcases Exit.repeats_iff.mp repeated with rfl | rfl
      · exact .again held nonzero (.inl ⟨_, inBody, inLast⟩) lastRepeats ⟨rfl, rfl⟩ rfl induction
      · rw [jumped inBody] at inLast
        obtain ⟨_, rfl⟩ := inLast
        exact .again held nonzero (.inr ⟨inBody, nofun⟩) rfl ⟨rfl, rfl⟩ rfl induction
    | stops held nonzero inBody repeated inLast left =>
      rcases Exit.repeats_iff.mp repeated with rfl | rfl
      · exact .leaves held nonzero (.inl ⟨_, inBody, inLast⟩) left
      · rw [jumped inBody] at inLast
        rw [inLast.1] at left
        cases left
    | leaves held nonzero inBody left =>
      refine .leaves held nonzero (.inr ⟨inBody, ?_⟩) left
      rintro rfl
      cases left
    | undefined failed => exact .undefined failed

end Effect

namespace Stmt

variable (target : String) (inputs : Inputs)

def runs : List Stmt → Effect
  | [] => .done
  | first :: rest => Effect.andThen (first.Executes target inputs) (runs rest)

/-- The place of a block has no effect. -/
theorem executes_block (span : Span) (body : List Stmt) :
    (block span body).Executes target inputs = runs target inputs body := by
  induction body with
  | nil =>
    ext machine exit after
    constructor
    · intro executed
      cases executed
      exact ⟨rfl, rfl⟩
    · rintro ⟨rfl, rfl⟩
      exact .blockEnd
  | cons first rest induction =>
    rw [runs, ← induction]
    ext machine exit after
    constructor
    · intro executed
      cases executed with
      | blockNext inFirst inRest => exact .inl ⟨_, inFirst, inRest⟩
      | blockStop inFirst stopped => exact .inr ⟨inFirst, stopped⟩
    · rintro (⟨middle, inFirst, inRest⟩ | ⟨inFirst, stopped⟩)
      · exact .blockNext inFirst inRest
      · exact .blockStop inFirst stopped

theorem runs_singleton (stmt : Stmt) : runs target inputs [stmt] = stmt.Executes target inputs := by
  rw [runs, runs, Effect.andThen_done]

theorem runs_append (first second : List Stmt) :
    runs target inputs (first ++ second) =
      (runs target inputs first).andThen (runs target inputs second) := by
  induction first with
  | nil => rw [List.nil_append, runs, Effect.done_andThen]
  | cons stmt rest induction => rw [List.cons_append, runs, runs, induction, Effect.andThen_assoc]

theorem executes_brk (span : Span) : (brk span).Executes target inputs = Effect.leave .brk := by
  ext machine exit after
  constructor
  · intro executed
    cases executed
    exact ⟨rfl, rfl⟩
  · rintro ⟨rfl, rfl⟩
    exact .brk

theorem executes_cont (span : Span) : (cont span).Executes target inputs = Effect.leave .cont := by
  ext machine exit after
  constructor
  · intro executed
    cases executed
    exact ⟨rfl, rfl⟩
  · rintro ⟨rfl, rfl⟩
    exact .cont

/-- The effect of the alternative of a conditional, which may be missing. -/
def otherwise (no : Stmt) : Effect := fun machine exit after =>
  no.Executes target inputs machine exit after ∨ no = missing ∧ Effect.done machine exit after

theorem executes_branch (span : Span) (cond : Expr) (yes no : Stmt) :
    (branch span cond yes no).Executes target inputs =
      Effect.Choice inputs cond (yes.Executes target inputs) (no.otherwise target inputs) := by
  ext machine exit after
  constructor
  · intro executed
    cases executed with
    | branchYes held nonzero inYes => exact .holds held nonzero inYes
    | branchNo failed inNo => exact .fails failed (.inl inNo)
    | branchOpen failed => exact .fails failed (.inr ⟨rfl, rfl, rfl⟩)
    | branchFails undefined => exact .undefined undefined
  · intro chosen
    cases chosen with
    | holds held nonzero inYes => exact .branchYes held nonzero inYes
    | fails failed ended =>
      rcases ended with inNo | ⟨rfl, rfl, rfl⟩
      · exact .branchNo failed inNo
      · exact .branchOpen failed
    | undefined error => exact .branchFails error

/-- A loop of the analysed language has no last part. -/
theorem executes_loop (span : Span) (cond : Expr) (body : Stmt) :
    (loop span cond body).Executes target inputs =
      Effect.Loop inputs cond (body.Executes target inputs) Effect.done := by
  ext machine exit after
  constructor
  · intro executed
    generalize found : loop span cond body = program at executed
    induction executed with
    | loopDone stopped =>
      cases found
      exact .ends stopped
    | loopAgain held nonzero round repeated _ _ induction =>
      cases found
      exact .again held nonzero round repeated ⟨rfl, rfl⟩ rfl (induction rfl)
    | loopLeave held nonzero round left =>
      cases found
      exact .leaves held nonzero round left
    | loopFails undefined =>
      cases found
      exact .undefined undefined
    | _ => cases found
  · intro looped
    induction looped with
    | ends stopped => exact .loopDone stopped
    | again held nonzero round repeated ended _ _ induction =>
      obtain ⟨_, rfl⟩ := ended
      exact .loopAgain held nonzero round repeated induction
    | stops _ _ _ _ ended left =>
      rw [ended.1] at left
      cases left
    | leaves held nonzero round left => exact .loopLeave held nonzero round left
    | undefined error => exact .loopFails error

end Stmt

namespace Source

/-- The scopes behind the end of a scope, which end the visibility of what was declared in it. -/
def Scopes.endScope (inside outside : Scopes) : Scopes := { inside with blocks := outside.blocks }

namespace Lowering

variable (lowering : Lowering) (target : String) (inputs : Inputs)

/-- The scopes behind statements. -/
def behind (scopes : Scopes) (sources : List SourceStmt) : Scopes :=
  match lowering.stmts scopes sources with
  | .ok (_, after) => after
  | .error _ => scopes

/-- The condition of a conditional or a loop; without one a loop goes on. -/
def condition (scopes : Scopes) : Option SourceExpr → Expr
  | some source => (lowering.expr scopes source).toOption.getD .missing
  | none => .ofBool true

/-- The effect of a statement that controls nothing is that of the statements that it becomes. -/
def elementary (scopes : Scopes) (source : SourceStmt) : Effect := fun machine exit after =>
  ∃ result behind, lowering.stmt scopes source = .ok (result, behind) ∧
    Stmt.runs target inputs result machine exit after

mutual

/-- The effect of a statement.  The alternative of a conditional and the statement after each round
of a loop see the variables of the header and not those of the body. -/
def effect (scopes : Scopes) : SourceStmt → Effect
  | .block _ body => effects scopes.enter body
  | .branch _ init cond _ body orElse =>
    let header := lowering.behind scopes.enter init
    let inside := lowering.behind header.enter body
    (effects scopes.enter init).andThen
      (.Choice inputs (lowering.condition header (some cond)) (effects header.enter body)
        (effects (inside.endScope header) orElse))
  | .loop _ init cond post _ body =>
    let header := lowering.behind scopes.enter init
    let inside := lowering.behind header.enter body
    (effects scopes.enter init).andThen
      (.Loop inputs (lowering.condition header cond) (effects header.enter body)
        (effects (inside.endScope header) post))
  | .jump _ keyword _ => .leave (if keyword = "continue" then .cont else .brk)
  | source => lowering.elementary target inputs scopes source

def effects (scopes : Scopes) : List SourceStmt → Effect
  | [] => .done
  | first :: rest =>
    (effect scopes first).andThen (effects (lowering.behind scopes [first]) rest)

end

end Lowering

end Source

end Reachability
