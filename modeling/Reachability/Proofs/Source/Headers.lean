import Mathlib
import Reachability.Source.Function

/-!
# Headers of loops

The first statement of a loop is a simple one in every function that is read
from a text, so it does not jump.  What a reader gives is described by a
property that holds of all its results, with one rule for each way to put
readers together.
-/

namespace Reachability.Source

namespace Reader

/-- All results of a reader have a property. -/
def Gives {α : Type} (reader : Reader α) (holds : α → Prop) : Prop :=
  ∀ words value rest, reader words = some (value, rest) → holds value

namespace Gives

variable {α β : Type} {first : Reader α} {next : α → Reader β} {holds : α → Prop} {goal : β → Prop}

theorem bind (given : first.Gives holds) (each : ∀ value, holds value → (next value).Gives goal) :
    Gives (first >>= next) goal := by
  intro words value rest read
  obtain ⟨⟨middle, more⟩, readFirst, readNext⟩ := Option.bind_eq_some_iff.mp read
  exact each middle (given words middle more readFirst) more value rest readNext

theorem after (each : ∀ value, (next value).Gives goal) : Gives (first >>= next) goal := by
  have given : first.Gives fun _ => True := fun _ _ _ _ => trivial
  exact given.bind fun value _ => each value

theorem pure {value : α} (held : holds value) : Gives (Pure.pure value) holds := by
  intro words result rest read
  cases read
  exact held

theorem failure : Gives Alternative.failure holds := by
  intro words result rest read
  cases read

theorem ite {condition : Prop} [Decidable condition] {second : Reader α} (given : first.Gives holds)
    (otherwise : second.Gives holds) : Gives (if condition then first else second) holds := by
  split
  · exact given
  · exact otherwise

theorem many {condition : Reader Bool} (given : first.Gives holds) :
    (condition.many first).Gives (∀ value ∈ ·, holds value) := by
  have repeated (fuel : Nat) : (condition.repeatWhile first fuel).Gives
      (∀ value ∈ ·, holds value) := by
    induction fuel with
    | zero => exact failure
    | succ fuel induction =>
      refine after fun goesOn =>
        ite (given.bind fun value held => induction.bind fun values all => ?_) (pure nofun)
      exact pure (List.forall_mem_cons.mpr ⟨held, all⟩)
  intro words
  exact repeated _ words

end Gives

end Reader

namespace SourceStmt

mutual

/-- No first statement of a loop in the statement continues the loop around it. -/
def headed : SourceStmt → Bool
  | block _ body => headedAll body
  | branch _ init _ _ body alternative => headedAll init && headedAll body && headedAll alternative
  | loop _ init _ post _ body =>
    !continuesAll init && headedAll init && headedAll post && headedAll body
  | _ => true

def headedAll : List SourceStmt → Bool
  | [] => true
  | first :: rest => first.headed && headedAll rest

end

variable {sources : List SourceStmt}

end SourceStmt

/-- No first statement of a loop in a function continues the loop around it. -/
def FunctionDecl.Headed (decl : FunctionDecl) : Prop :=
  ∀ body ∈ decl.body, SourceStmt.headedAll body.2 = true

open SourceStmt Reader

namespace Grammar

variable (inner : Grammar)

section

variable {inner : Grammar} (nested : inner.stmt.Gives (headed · = true))
include nested

end

section

variable {inner : Grammar} (nested : inner.stmt.Gives (headed · = true))
include nested

end

end Grammar

namespace SourceFile

end SourceFile

end Reachability.Source
