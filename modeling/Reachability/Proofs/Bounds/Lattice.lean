import Mathlib
import Reachability.Proofs.Bounds.Refinement
import Reachability.Proofs.Bounds.Variables

/-!
# The order of bounds

All operations leave bounds in one form: no variable is stored with all words as
its interval, and none with no words.  In this form bounds are known by the
environments that they admit.  Including others means to admit what they admit,
and being equal means to admit the same, although only the variables that are
stored on one side are compared.  A join keeps the variables on which both sides
agree, so one that changes bounds gives up some of their variables.
-/

namespace Reachability

/-- An environment can give any values to finitely many variables. -/
theorem Env.exists_values (names : List String) (values : String → Int64) :
    ∃ env : Env, ∀ name, env.value name = if name ∈ names then values name else 0 := by
  induction names with
  | nil => exact ⟨∅, fun name => rfl⟩
  | cons first names induction =>
    obtain ⟨env, given⟩ := induction
    refine ⟨env.insert first (values first), ?_⟩
    intro name
    rw [Env.value_insert, given]
    by_cases same : name = first
    · simp [same]
    · simp [same]

namespace Bounds

variable {bounds first second third inner outer new reached : Bounds}

/-- Bounds that come from intervals with members, by any operations. -/
inductive Built : Bounds → Prop where
  | ofList {entries : List (String × Interval)} (nonempty : ∀ entry ∈ entries, entry.2.Nonempty) :
      Built (.ofList entries)
  | set {bounds : Bounds} {interval : Interval} (built : Built bounds) (name : String)
      (nonempty : interval.Nonempty) : Built (bounds.set name interval)
  | join {first second : Bounds} (left : Built first) (right : Built second) :
      Built (first.join second)
  | assume {bounds result : Bounds} (built : Built bounds) {cond : Expr}
      (assumed : bounds.assume cond = some result) : Built result
  | transfer {bounds result : Bounds} (built : Built bounds) {policy : MergePolicy} {edge : Edge}
      (follows : .bounds result ∈ (Analysis.values policy).transfer (.bounds bounds) edge) :
      Built result

/-- No variable is stored with all words, and none with an empty interval. -/
structure Canonical (bounds : Bounds) : Prop where
  among : ∃ names, bounds.Among names
  nonempty : bounds.Nonempty

theorem Among.mono {names wider : List String} (among : bounds.Among names)
    (subset : names ⊆ wider) : bounds.Among wider :=
  fun name interval found => ⟨subset (among name interval found).1, (among name interval found).2⟩

theorem exists_action_within (action : Action) : ∃ names, ∀ wider, names ⊆ wider →
    action.Within wider := by
  cases action with
  | blank description => exact ⟨[], fun _ _ => trivial⟩
  | assign var value => exact ⟨[var], fun _ subset => subset List.mem_cons_self⟩
  | assume cond truth => exact ⟨cond.vars, fun _ subset _ read => subset read⟩
  | call result callee args => exact ⟨[result], fun _ subset _ => subset List.mem_cons_self⟩

namespace Canonical

theorem ofList {entries : List (String × Interval)}
    (nonempty : ∀ entry ∈ entries, entry.2.Nonempty) : (ofList entries).Canonical := by
  have stored : ∀ {name interval}, (Bounds.ofList entries).ranges.get? name = some interval →
      (name, interval) ∈ entries ∧ interval.isTop = false := by
    intro name interval found
    simp only [Bounds.ofList, NameMap.get?_filter, Option.filter_eq_some_iff,
      Bool.not_eq_true'] at found
    exact ⟨NameMap.mem_of_get?_ofList found.1, found.2⟩
  refine ⟨⟨entries.map Prod.fst, ?_⟩, ?_⟩
  · intro name interval found
    exact ⟨List.mem_map_of_mem (stored found).1, (stored found).2⟩
  · intro name
    unfold get
    cases found : (Bounds.ofList entries).ranges.get? name with
    | none => exact Interval.nonempty_top
    | some interval => exact nonempty _ (stored found).1

theorem set (canonical : bounds.Canonical) (name : String) {interval : Interval}
    (nonempty : interval.Nonempty) : (bounds.set name interval).Canonical := by
  obtain ⟨names, among⟩ := canonical.among
  refine ⟨⟨name :: names, ?_⟩, canonical.nonempty.set name nonempty⟩
  exact (among.mono (List.subset_cons_self name names)).set List.mem_cons_self interval

theorem join (right : second.Canonical) : (first.join second).Canonical := by
  obtain ⟨names, among⟩ := right.among
  refine ⟨⟨names, among.join⟩, ?_⟩
  intro name
  rcases get_join first second name with same | isTop
  · rw [same]
    exact right.nonempty name
  · rw [isTop]
    exact Interval.nonempty_top

theorem assume (canonical : bounds.Canonical) {cond : Expr} {result : Bounds}
    (assumed : bounds.assume cond = some result) : result.Canonical := by
  obtain ⟨names, among⟩ := canonical.among
  have wider : bounds.Among (names ++ cond.vars) := among.mono (List.subset_append_left _ _)
  refine ⟨⟨names ++ cond.vars, wider.assume ?_ assumed⟩, ?_⟩
  · exact fun name read => List.mem_append_right names read
  · obtain ⟨wide, _, inside⟩ := (Inside.refl canonical.nonempty).assume assumed
    exact inside.nonempty

theorem after (canonical : bounds.Canonical) {action : Action} {result : Bounds}
    (passes : bounds.after action = some result) : result.Canonical := by
  obtain ⟨names, among⟩ := canonical.among
  obtain ⟨others, within⟩ := exists_action_within action
  have wider : bounds.Among (names ++ others) := among.mono (List.subset_append_left _ _)
  refine ⟨⟨names ++ others, wider.after ?_ passes⟩, ?_⟩
  · exact within _ (List.subset_append_right names others)
  · obtain ⟨wide, _, inside⟩ := (Inside.refl canonical.nonempty).after passes
    exact inside.nonempty

theorem stored (canonical : bounds.Canonical) {name : String} {interval : Interval}
    (found : bounds.ranges.get? name = some interval) : interval ≠ .top ∧ interval.Nonempty := by
  obtain ⟨names, among⟩ := canonical.among
  constructor
  · rintro rfl
    cases (among name _ found).2
  · have inhabited := canonical.nonempty name
    unfold get at inhabited
    rwa [found] at inhabited

end Canonical

theorem Built.canonical (built : Built bounds) : bounds.Canonical := by
  induction built with
  | ofList nonempty => exact .ofList nonempty
  | set built name nonempty canonical => exact canonical.set name nonempty
  | join left right leftCanonical rightCanonical => exact rightCanonical.join
  | assume built assumed canonical => exact canonical.assume assumed
  | transfer built follows canonical =>
    obtain ⟨result, passes, same⟩ := Option.map_eq_some_iff.mp (Option.mem_toList.mp follows)
    cases same
    exact canonical.after passes

section Environments

theorem exists_admitted (nonempty : inner.Nonempty) {name : String} {value : Int64}
    (member : value ∈ inner.get name) : ∃ env, inner.Admits env ∧ env.value name = value := by
  obtain ⟨env, given⟩ := Env.exists_values (name :: inner.vars)
    fun other => if other = name then value else (inner.get other).lo
  refine ⟨env, ?_, by simp [given]⟩
  intro other
  rw [given]
  by_cases same : other = name
  · simpa [same] using member
  · by_cases tracked : other ∈ inner.vars
    · simpa [same, tracked] using (Interval.Inside.refl (nonempty other)).lo_mem
    · have untracked : inner.ranges.get? other = none := by
        rw [Option.eq_none_iff_forall_ne_some]
        exact fun interval found => tracked (mem_vars.mpr ⟨interval, found⟩)
      unfold get
      rw [untracked]
      exact Interval.mem_top _

/-- Only the lower and the upper ends of the intervals have to be admitted for one side to include
the other. -/
theorem includes_iff_admits (nonempty : inner.Nonempty) :
    outer.includes inner = true ↔ ∀ env, inner.Admits env → outer.Admits env := by
  constructor
  · intro included env admits
    exact admits.of_includes included
  · intro wider
    rw [includes_iff]
    intro name
    have carried : ∀ {value}, value ∈ inner.get name → value ∈ outer.get name := by
      intro value member
      obtain ⟨env, admits, rfl⟩ := exists_admitted nonempty member
      exact wider env admits name
    have ends := Interval.Inside.refl (nonempty name)
    exact (Interval.inside_of_bounds (nonempty name) (carried ends.lo_mem) (carried ends.hi_mem)).2

end Environments

section Order

theorem includes_refl (bounds : Bounds) : bounds.includes bounds = true :=
  includes_iff.mpr fun _ => Interval.includes_self _

theorem includes_trans (outside : first.includes second = true)
    (inside : second.includes third = true) : first.includes third = true := by
  rw [includes_iff] at outside inside ⊢
  intro name
  have wide := outside name
  have narrow := inside name
  simp only [Interval.includes, Bool.and_eq_true, decide_eq_true_eq,
    Int64.le_iff_toInt_le] at wide narrow ⊢
  omega

/-- A variable is stored exactly if its interval is not that of all words. -/
theorem Canonical.get?_eq (canonical : bounds.Canonical) (name : String) :
    bounds.ranges.get? name = if bounds.get name = .top then none else some (bounds.get name) := by
  unfold get
  cases found : bounds.ranges.get? name with
  | none => rfl
  | some interval =>
    rw [Option.getD_some, if_neg (canonical.stored found).1]

/-- Bounds that include each other have the same intervals, and so they store the same variables. -/
theorem Canonical.eq_of_includes (left : first.Canonical) (right : second.Canonical)
    (outside : first.includes second = true) (inside : second.includes first = true) :
    first = second := by
  rw [includes_iff] at outside inside
  have same : ∀ name, first.get name = second.get name := by
    intro name
    exact Interval.Inside.antisymm ⟨left.nonempty name, inside name⟩
      ⟨right.nonempty name, outside name⟩
  apply congrArg Bounds.mk
  apply NameMap.ext_get?
  intro name
  rw [left.get?_eq, right.get?_eq, same]

theorem Canonical.equal_iff_admits (left : first.Canonical) (right : second.Canonical) :
    first.equal second = true ↔ ∀ env, first.Admits env ↔ second.Admits env := by
  rw [equal_iff]
  constructor
  · rintro rfl env
    exact Iff.rfl
  · intro same
    apply left.eq_of_includes right
    · exact (includes_iff_admits right.nonempty).mpr fun env => (same env).mpr
    · exact (includes_iff_admits left.nonempty).mpr fun env => (same env).mp

end Order

section Joins

private theorem eq_of_stored (same : ∀ name interval,
    first.ranges.get? name = some interval ↔ second.ranges.get? name = some interval) :
    first = second := by
  apply congrArg Bounds.mk
  apply NameMap.ext_get?
  intro name
  exact Option.ext (same name)

theorem join_comm (first second : Bounds) : first.join second = second.join first := by
  apply eq_of_stored
  intro name interval
  rw [get?_join, get?_join]
  exact and_comm

theorem join_assoc (first second third : Bounds) :
    (first.join second).join third = first.join (second.join third) := by
  apply eq_of_stored
  intro name interval
  simp only [get?_join]
  exact and_assoc

theorem join_self (bounds : Bounds) : bounds.join bounds = bounds := by
  apply eq_of_stored
  intro name interval
  rw [get?_join]
  exact and_self_iff

theorem includes_join_right (first second : Bounds) :
    (first.join second).includes second = true :=
  join_comm second first ▸ includes_join second first

/-- A join that changes the reached bounds keeps some of their variables and gives up others. -/
theorem vars_join (changed : new.join reached ≠ reached) :
    (new.join reached).vars ⊆ reached.vars ∧
      ∃ name ∈ reached.vars, name ∉ (new.join reached).vars := by
  constructor
  · intro name stored
    obtain ⟨interval, found⟩ := mem_vars.mp stored
    exact mem_vars.mpr ⟨interval, (get?_join.mp found).2⟩
  · obtain ⟨name, interval, stored, dropped⟩ := exists_dropped changed
    refine ⟨name, mem_vars.mpr ⟨interval, stored⟩, ?_⟩
    intro kept
    obtain ⟨other, found⟩ := mem_vars.mp kept
    rw [dropped] at found
    cases found

end Joins

/-- Bounds that are built from intervals with members form an order in which they are compared by
the environments they admit.  Merging returns the reached bounds or others with fewer variables. -/
theorem built_lattice (first second third : Bounds) (isFirst : Built first)
    (isSecond : Built second) :
    (∀ name interval, first.ranges.get? name = some interval →
      interval ≠ .top ∧ interval.Nonempty) ∧
    (first.includes second = true ↔ ∀ env, second.Admits env → first.Admits env) ∧
    (first.equal second = true ↔ ∀ env, first.Admits env ↔ second.Admits env) ∧
    (first.includes first = true ∧
      (first.includes second = true → second.includes third = true → first.includes third = true) ∧
      (first.includes second = true ∧ second.includes first = true ↔ first.equal second = true)) ∧
    ((first.join second).equal (second.join first) = true ∧
      ((first.join second).join third).equal (first.join (second.join third)) = true ∧
      (first.join first).equal first = true ∧
      (first.join second).includes first = true ∧ (first.join second).includes second = true) ∧
    ((Analysis.values .join).merge (.bounds first) (.bounds second) = none ↔
      (first.join second).equal second = true) ∧
    ∀ merged, (Analysis.values .join).merge (.bounds first) (.bounds second) = some merged →
      merged = .bounds (first.join second) ∧ (first.join second).vars ⊆ second.vars ∧
        ∃ name ∈ second.vars, name ∉ (first.join second).vars := by
  have left := isFirst.canonical
  have right := isSecond.canonical
  refine ⟨fun name interval => left.stored, includes_iff_admits right.nonempty,
    left.equal_iff_admits right, ⟨includes_refl first, includes_trans, ?_⟩, ⟨?_, ?_, ?_,
    includes_join first second, includes_join_right first second⟩, ?_, ?_⟩
  · constructor
    · intro both
      exact equal_iff.mpr (left.eq_of_includes right both.1 both.2)
    · intro same
      rw [equal_iff.mp same]
      exact ⟨includes_refl second, includes_refl second⟩
  · exact equal_iff.mpr (join_comm first second)
  · exact equal_iff.mpr (join_assoc first second third)
  · exact equal_iff.mpr (join_self first)
  · simp [Analysis.values, mergeInto]
  · intro merged merges
    obtain ⟨joined, found, rfl⟩ := Option.map_eq_some_iff.mp merges
    obtain ⟨rfl, changed⟩ := mergeInto_eq_some found
    exact ⟨rfl, vars_join changed⟩

/-- One variable has few values, and nothing is known about another one. -/
def upToNine : Bounds := ofList [("x", ⟨0, 9⟩), ("y", .top)]

/-- Bounds that know one more variable admit less, and joining gives it up again. -/
theorem built_lattice_upToNine :
    (∀ env, (upToNine.set "y" (.const 1)).Admits env → upToNine.Admits env) ∧
      (Analysis.values .join).merge (.bounds (upToNine.set "y" (.const 1))) (.bounds upToNine) =
        none ∧
      ∃ name ∈ (upToNine.set "y" (.const 1)).vars,
        name ∉ (upToNine.join (upToNine.set "y" (.const 1))).vars := by
  have wide : Built upToNine := .ofList (by decide)
  have narrow : Built (upToNine.set "y" (.const 1)) := wide.set "y" (by decide)
  obtain ⟨_, included, _, _, _, _, merges⟩ := built_lattice _ _ upToNine wide narrow
  obtain ⟨_, _, _, _, _, kept, _⟩ := built_lattice _ _ upToNine narrow wide
  refine ⟨included.mp (by cbv), kept.mpr (by cbv), ?_⟩
  exact (merges (.bounds (upToNine.join (upToNine.set "y" (.const 1)))) (by cbv)).2.2

end Bounds

end Reachability
