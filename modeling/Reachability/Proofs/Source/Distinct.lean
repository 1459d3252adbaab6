import Mathlib
import Reachability.Proofs.Source.Naming

/-!
# Names that tell variables apart

The number of a variable stands behind a hash sign, which no name in a source
text has.  So two variables declared in a function have different names in the
lowered program.  Only the first declaration of a name is confused with the
variable of the same name outside the function.
-/

namespace Reachability.Source

namespace Variable

def name : Variable → String
  | own name _ | outer name => name

/-- Variables that lowering does not tell apart. -/
inductive Merged : Variable → Variable → Prop where
  | same (found : Variable) : Merged found found
  | outerFirst (name : String) : Merged (outer name) (own name 0)
  | firstOuter (name : String) : Merged (own name 0) (outer name)

variable {first second : Variable}

/-- What stands in front of the first hash sign does not depend on what follows. -/
theorem append_hash_inj {left right leftRest rightRest : String} (leftPlain : '#' ∉ left.toList)
    (rightPlain : '#' ∉ right.toList)
    (same : left ++ "#" ++ leftRest = right ++ "#" ++ rightRest) :
    left = right ∧ leftRest = rightRest := by
  have chars : left.toList ++ '#' :: leftRest.toList = right.toList ++ '#' :: rightRest.toList := by
    simpa using congrArg String.toList same
  have lengths : left.toList.length = right.toList.length := by
    have places := congrArg (List.idxOf '#') chars
    rw [List.idxOf_append_of_notMem leftPlain, List.idxOf_append_of_notMem rightPlain] at places
    simpa using places
  obtain ⟨sameLeft, sameRest⟩ := List.append_inj chars lengths
  rw [List.cons.injEq] at sameRest
  exact ⟨String.toList_inj.mp sameLeft, String.toList_inj.mp sameRest.2⟩

theorem lowered_succ (name : String) (number : Nat) :
    (own name (number + 1)).lowered = name ++ "#" ++ toString (number + 1) :=
  rfl

theorem lowered_succ_ne {name other : String} {number : Nat} (plain : '#' ∉ other.toList) :
    (own name (number + 1)).lowered ≠ other := by
  rintro rfl
  apply plain
  simp [lowered_succ]

theorem lowered_eq_iff (firstPlain : '#' ∉ first.name.toList)
    (secondPlain : '#' ∉ second.name.toList) :
    first.lowered = second.lowered ↔ Merged first second := by
  constructor
  · intro same
    match first, second with
    | outer name, outer other | own name 0, own other 0 =>
      cases same
      exact .same _
    | outer name, own other 0 =>
      cases same
      exact .outerFirst name
    | own name 0, outer other =>
      cases same
      exact .firstOuter name
    | own name (number + 1), outer other | own name (number + 1), own other 0 =>
      exact absurd same (lowered_succ_ne secondPlain)
    | outer name, own other (number + 1) | own name 0, own other (number + 1) =>
      exact absurd same.symm (lowered_succ_ne firstPlain)
    | own name (number + 1), own other (otherNumber + 1) =>
      rw [lowered_succ, lowered_succ] at same
      obtain ⟨sameName, sameNumber⟩ := append_hash_inj firstPlain secondPlain same
      cases sameName
      cases Nat.repr_inj.mp sameNumber
      exact .same _
  · intro merged
    cases merged with
    | same => rfl
    | outerFirst name => rfl
    | firstOuter name => rfl

end Variable

theorem Bindings.name_find (bindings : Bindings) (name : String) :
    (bindings.find name).name = name := by
  unfold find
  split
  · rfl
  · rfl

namespace SourceFile

variable {file : SourceFile} {lowering : Lowering} {decl : FunctionDecl} {function : Function}

/-- Two occurrences in a lowered function have one name exactly if they are taken for variables that
are merged.  If no value of a line names a variable further left in the line, these are the
variables that the occurrences stand for. -/
theorem names_tell_apart (accepted : file.lower lowering decl = .ok function)
    (plain : ∀ use ∈ lowering.variableUses decl, '#' ∉ use.name.toList) :
    function.body.mentions.length = (lowering.variableUses decl).length ∧
      ∀ first ∈ (lowering.variableUses decl).zip function.body.mentions,
        ∀ second ∈ (lowering.variableUses decl).zip function.body.mentions,
          (first.2.2 = second.2.2 ↔ Variable.Merged first.1.taken second.1.taken) ∧
          (decl.LinesApart →
            (first.2.2 = second.2.2 ↔ Variable.Merged first.1.bound second.1.bound)) := by
  have mentions := mentions_of_lower accepted
  have named : ∀ pair ∈ (lowering.variableUses decl).zip function.body.mentions,
      pair.1 ∈ lowering.variableUses decl ∧ pair.2.2 = pair.1.taken.lowered := by
    intro pair member
    rw [mentions, ← List.map_id (lowering.variableUses decl), List.map_map, List.zip_map'] at member
    obtain ⟨use, used, rfl⟩ := List.mem_map.mp member
    exact ⟨used, rfl⟩
  have told : ∀ first ∈ (lowering.variableUses decl).zip function.body.mentions,
      ∀ second ∈ (lowering.variableUses decl).zip function.body.mentions,
        (first.2.2 = second.2.2 ↔ Variable.Merged first.1.taken second.1.taken) := by
    intro first isFirst second isSecond
    obtain ⟨firstUsed, firstNamed⟩ := named first isFirst
    obtain ⟨secondUsed, secondNamed⟩ := named second isSecond
    rw [firstNamed, secondNamed]
    apply Variable.lowered_eq_iff
    · rw [Use.taken, Bindings.name_find]
      exact plain first.1 firstUsed
    · rw [Use.taken, Bindings.name_find]
      exact plain second.1 secondUsed
  constructor
  · rw [mentions, List.length_map]
  · intro first isFirst second isSecond
    refine ⟨told first isFirst second isSecond, ?_⟩
    intro apart
    have settled : Settled (lowering.variableUses decl) := variableUses_settled apart
    rw [← settled first.1 (named first isFirst).1, ← settled second.1 (named second isSecond).1]
    exact told first isFirst second isSecond

theorem names_tell_apart_hidesOften :
    ∃ function, (single hidesOften).lower {} hidesOften = .ok function ∧
      (∀ use ∈ ({} : Lowering).variableUses hidesOften, '#' ∉ use.name.toList) ∧
      hidesOften.LinesApart ∧
      ∀ first ∈ (({} : Lowering).variableUses hidesOften).zip function.body.mentions,
        ∀ second ∈ (({} : Lowering).variableUses hidesOften).zip function.body.mentions,
          (first.2.2 = second.2.2 ↔ Variable.Merged first.1.bound second.1.bound) := by
  have plain : ∀ use ∈ ({} : Lowering).variableUses hidesOften, '#' ∉ use.name.toList := by decide
  obtain ⟨function, accepted⟩ := hidesOften_accepted
  have tells := names_tell_apart accepted plain
  refine ⟨function, accepted, plain, hidesOften_linesApart, ?_⟩
  intro first isFirst second isSecond
  exact (tells.2 first isFirst second isSecond).2 hidesOften_linesApart

/-- An outer variable that is hidden in a block and read behind it. -/
def hidesOuter : FunctionDecl :=
  { pos := 1, name := "hidesOuter", receiver := none, params := [], types := []
    body := some (13, [
      .assign "=" [.name 16 "x"] [.literal 20 .int "1"],
      .block 23 [
        .assign ":=" [.name 27 "x"] [.literal 32 .int "2"],
        .branch 36 [] (.binary "==" (.name 39 "x") (.literal 44 .int "3")) 46
          [.assign "=" [.name 51 "x"] [.literal 55 .int "4"]] []],
      .branch 65 [] (.binary "==" (.name 68 "x") (.literal 73 .int "1")) 75
        [.expr (.call (.name 79 "reach_error") [] false)] []]) }

/-- The variable of the block has the name of the outer one. -/
theorem hidesOuter_merged :
    ∃ function, (single hidesOuter).lower {} hidesOuter = .ok function ∧
      ∃ first ∈ (({} : Lowering).variableUses hidesOuter).zip function.body.mentions,
        ∃ second ∈ (({} : Lowering).variableUses hidesOuter).zip function.body.mentions,
          first.1.pos = 16 ∧ second.1.pos = 27 ∧ first.1.bound ≠ second.1.bound ∧
            first.2.2 = second.2.2 := by
  refine ⟨_, rfl, ?_⟩
  decide

end SourceFile

end Reachability.Source
