import Mathlib
import Reachability.Proofs.Exploration.Budget

/-!
# Bounds on the number of iterations

The bound is read in one place only, between the test for waiting states and the
iteration itself.  So a run with a bound is a run without one up to the head at
which the bound is reached, and it stops there if states still wait.
-/

namespace Reachability

variable {σ : Type u}

def Setting.bounded (setting : Setting σ) (bound : Int) : Setting σ :=
  { setting with maxIterations := bound }

/-- Whether an exploration has come to an answer. -/
def Verdict.conclusive : Verdict → Bool
  | .inconclusive _ => false
  | _ => true

namespace Search

variable {setting : Setting σ} {search final head : Search σ} {verdict : Verdict} {fuel : Nat}

/-- The run of an exploration that nothing interrupts ends with a verdict. -/
def Yields (setting : Setting σ) (search final : Search σ) (verdict : Verdict) : Prop :=
  ∃ fuel, search.explore setting none fuel = .finished final verdict

section Counting

theorem iterations_visit (search : Search σ) (key : Nat) :
    (search.visit setting key).search.stats.iterations = search.stats.iterations := by
  unfold visit
  split
  · split
    · rfl
    · split <;> rfl
  · exact iterations_expand search key

/-- What an iteration does that nothing interrupts: it ends for want of states or at the bound, or
it counts itself. -/
theorem step_uninterrupted (setting : Setting σ) (search : Search σ) :
    search.reached.hasWaiting = false ∧ search.step setting none = .finished search .exhausted ∨
      (search.reached.hasWaiting = true ∧ search.atBound setting = true ∧
        search.step setting none = .finished search
          (.inconclusive (.iterationBound setting.maxIterations.toNat))) ∨
      (search.reached.hasWaiting = true ∧ search.atBound setting = false ∧
        (search.step setting none).search.stats.iterations = search.stats.iterations + 1) := by
  unfold step
  cases search.reached.hasWaiting with
  | false => exact .inl ⟨rfl, rfl⟩
  | true =>
    right
    cases search.atBound setting with
    | true => exact .inl ⟨rfl, rfl, rfl⟩
    | false =>
      right
      refine ⟨rfl, rfl, ?_⟩
      simp only [Bool.not_true, Bool.false_eq_true, if_false]
      split
      · rfl
      · rw [iterations_visit]
        split <;> rfl

theorem step_of_nothing (nothing : search.reached.hasWaiting = false) :
    search.step setting none = .finished search .exhausted := by
  unfold step
  rw [nothing]
  rfl

theorem iterations_of_continued (continued : search.step setting none = .continued head) :
    head.stats.iterations = search.stats.iterations + 1 := by
  rcases step_uninterrupted setting search with ⟨_, ended⟩ | ⟨_, _, ended⟩ |
    ⟨_, _, counted⟩
  · rw [ended] at continued
    cases continued
  · rw [ended] at continued
    cases continued
  · rw [continued] at counted
    exact counted

theorem iterations_le_step (setting : Setting σ) (search : Search σ) :
    search.stats.iterations ≤ (search.step setting none).search.stats.iterations := by
  rcases step_uninterrupted setting search with ⟨_, ended⟩ | ⟨_, _, ended⟩ |
    ⟨_, _, counted⟩
  · rw [ended, Progress.search]
  · rw [ended, Progress.search]
  · omega

theorem iterations_explore (continued : search.explore setting none fuel = .continued head) :
    head.stats.iterations = search.stats.iterations + fuel := by
  induction fuel generalizing search with
  | zero =>
    cases continued
    rfl
  | succ fuel induction =>
    cases stepped : search.step setting none with
    | continued next =>
      simp only [explore, stepped] at continued
      rw [induction continued, iterations_of_continued stepped]
      omega
    | finished | failed =>
      simp only [explore, stepped] at continued
      cases continued

theorem iterations_le_explore (setting : Setting σ) (fuel : Nat) (search : Search σ) :
    search.stats.iterations ≤ (search.explore setting none fuel).search.stats.iterations := by
  induction fuel generalizing search with
  | zero => exact Nat.le_refl _
  | succ fuel induction =>
    have counted := iterations_le_step setting search
    cases stepped : search.step setting none with
    | continued next =>
      rw [stepped] at counted
      simp only [explore, stepped]
      exact counted.trans (induction next)
    | finished | failed =>
      rw [stepped] at counted
      simp only [explore, stepped]
      exact counted

end Counting

section Composition

/-- What goes on can be explored further; everything else is final. -/
theorem explore_add (setting : Setting σ) (fuel more : Nat) (search : Search σ) :
    search.explore setting none (fuel + more) =
      match search.explore setting none fuel with
      | .continued head => head.explore setting none more
      | ended => ended := by
  induction fuel generalizing search with
  | zero => rw [Nat.zero_add, explore]
  | succ fuel induction =>
    rw [Nat.succ_add]
    cases stepped : search.step setting none with
    | continued next =>
      simp only [explore, stepped]
      exact induction next
    | finished | failed => simp only [explore, stepped]

theorem explore_of_continued (more : Nat)
    (continued : search.explore setting none fuel = .continued head) :
    search.explore setting none (fuel + more) = head.explore setting none more := by
  rw [explore_add, continued]

theorem explore_of_finished (more : Nat)
    (explored : search.explore setting none fuel = .finished final verdict) :
    search.explore setting none (fuel + more) = .finished final verdict := by
  rw [explore_add, explored]

theorem Yields.of_continued (continued : search.explore setting none fuel = .continued head)
    (yields : head.Yields setting final verdict) : search.Yields setting final verdict := by
  obtain ⟨more, explored⟩ := yields
  exact ⟨fuel + more, (explore_of_continued more continued).trans explored⟩

theorem Yields.from_continued (yields : search.Yields setting final verdict)
    (continued : search.explore setting none fuel = .continued head) :
    head.Yields setting final verdict := by
  obtain ⟨whole, explored⟩ := yields
  have longer := explore_of_finished fuel explored
  rw [Nat.add_comm, explore_of_continued whole continued] at longer
  exact ⟨whole, longer⟩

theorem Yields.unique {otherFinal : Search σ} {otherVerdict : Verdict}
    (yields : search.Yields setting final verdict)
    (others : search.Yields setting otherFinal otherVerdict) :
    otherFinal = final ∧ otherVerdict = verdict := by
  obtain ⟨fuel, explored⟩ := yields
  obtain ⟨other, otherExplored⟩ := others
  have same := explore_of_finished other explored
  rw [Nat.add_comm, explore_of_finished fuel otherExplored] at same
  cases same
  exact ⟨rfl, rfl⟩

theorem yields_of_step (ended : search.step setting none = .finished final verdict) :
    search.Yields setting final verdict :=
  ⟨1, by rw [explore, ended]⟩

end Composition

section Bounded

variable {bound : Nat} {wider : Int}

theorem atBound_bounded (positive : 0 < bound) :
    search.atBound (setting.bounded bound) = true ↔ bound ≤ search.stats.iterations := by
  unfold atBound Setting.bounded
  simp only [Bool.and_eq_true, decide_eq_true_eq]
  omega

theorem step_of_late (positive : 0 < bound) (waits : search.reached.hasWaiting = true)
    (late : bound ≤ search.stats.iterations) :
    search.step (setting.bounded bound) none =
      .finished search (.inconclusive (.iterationBound bound)) := by
  unfold step
  rw [waits, (atBound_bounded positive).mpr late]
  rfl

theorem atBound_wider (setting : Setting σ) (within : bound ≤ wider ∨ wider ≤ 0)
    (early : search.stats.iterations < bound) :
    search.atBound (setting.bounded wider) = false := by
  unfold atBound Setting.bounded
  simp only [Bool.and_eq_false_iff, decide_eq_false_iff_not]
  omega

theorem step_bounded {first second : Int}
    (firstWithin : search.atBound (setting.bounded first) = false)
    (secondWithin : search.atBound (setting.bounded second) = false) :
    search.step (setting.bounded first) none = search.step (setting.bounded second) none := by
  unfold step
  rw [firstWithin, secondWithin]
  rfl

theorem explore_bounded (setting : Setting σ) (within : bound ≤ wider ∨ wider ≤ 0)
    (early : search.stats.iterations + fuel ≤ bound) :
    search.explore (setting.bounded bound) none fuel =
      search.explore (setting.bounded wider) none fuel := by
  induction fuel generalizing search with
  | zero => rfl
  | succ fuel induction =>
    have lower : search.stats.iterations < bound := by omega
    have same := step_bounded (atBound_wider setting (.inl le_rfl) lower)
      (atBound_wider setting within lower)
    cases stepped : search.step (setting.bounded wider) none with
    | continued next =>
      have counted := iterations_of_continued stepped
      simp only [explore, same, stepped]
      exact induction (by omega)
    | finished | failed => simp only [explore, same, stepped]

theorem conclusive_of_step (lower : search.stats.iterations < bound)
    (ended : search.step (setting.bounded bound) none = .finished final verdict) :
    verdict.conclusive = true ∧ final.stats.iterations ≤ bound := by
  have within : search.atBound (setting.bounded bound) = false :=
    atBound_wider setting (.inl le_rfl) lower
  constructor
  · have unbounded : search.atBound (setting.bounded 0) = false :=
      atBound_wider setting (.inr le_rfl) lower
    rw [step_bounded within unbounded] at ended
    cases verdict with
    | targetFound | exhausted => rfl
    | inconclusive reason => exact absurd ended (step_conclusive le_rfl final reason)
  · rcases step_uninterrupted (setting.bounded bound) search with ⟨_, exhausted⟩ |
      ⟨_, late, _⟩ | ⟨_, _, counted⟩
    · rw [exhausted] at ended
      cases ended
      exact lower.le
    · rw [within] at late
      cases late
    · rw [ended, Progress.search] at counted
      omega

theorem conclusive_of_explore (early : search.stats.iterations + fuel ≤ bound)
    (explored : search.explore (setting.bounded bound) none fuel = .finished final verdict) :
    verdict.conclusive = true ∧ final.stats.iterations ≤ bound := by
  induction fuel generalizing search with
  | zero => cases explored
  | succ fuel induction =>
    cases stepped : search.step (setting.bounded bound) none with
    | continued next =>
      have counted := iterations_of_continued stepped
      simp only [explore, stepped] at explored
      exact induction (by omega) explored
    | finished last other =>
      simp only [explore, stepped] at explored
      cases explored
      exact conclusive_of_step (by omega) stepped
    | failed last error =>
      simp only [explore, stepped] at explored
      cases explored

theorem lt_iterations_of_waits (waits : head.reached.hasWaiting = true)
    (yields : head.Yields (setting.bounded wider) final verdict)
    (conclusive : verdict.conclusive = true) :
    head.stats.iterations < final.stats.iterations := by
  obtain ⟨fuel, explored⟩ := yields
  cases fuel with
  | zero => cases explored
  | succ fuel =>
    rcases step_uninterrupted (setting.bounded wider) head with ⟨nothing, _⟩ |
      ⟨_, _, ended⟩ | ⟨_, _, counted⟩
    · rw [nothing] at waits
      cases waits
    · simp only [explore, ended] at explored
      cases explored
      cases conclusive
    · cases stepped : head.step (setting.bounded wider) none with
      | continued next =>
        rw [stepped, Progress.search] at counted
        simp only [explore, stepped] at explored
        have rest := iterations_le_explore (setting.bounded wider) fuel next
        rw [explored, Progress.search] at rest
        omega
      | finished last other =>
        rw [stepped, Progress.search] at counted
        simp only [explore, stepped] at explored
        cases explored
        omega
      | failed last error =>
        simp only [explore, stepped] at explored
        cases explored

/-- A run with a bound that does not fail either has an answer, which is that of every run with a
wider bound, or it stops at the bound with states left, and then no run with a wider bound has an
answer after as many iterations. -/
theorem bounded_yields (positive : 0 < bound) (within : bound ≤ wider ∨ wider ≤ 0)
    (fresh : search.stats.iterations = 0)
    (sure : ∀ fuel final error,
      search.explore (setting.bounded bound) none fuel ≠ .failed final error) :
    (∃ final verdict, search.Yields (setting.bounded bound) final verdict ∧
        search.Yields (setting.bounded wider) final verdict ∧ verdict.conclusive = true ∧
        final.stats.iterations ≤ bound) ∨
      ∃ head, search.Yields (setting.bounded bound) head (.inconclusive (.iterationBound bound)) ∧
        head.stats.iterations = bound ∧ head.reached.hasWaiting = true ∧
        ∀ final verdict, search.Yields (setting.bounded wider) final verdict →
          verdict.conclusive = true → bound < final.stats.iterations := by
  have early : search.stats.iterations + bound ≤ bound := by omega
  have same := explore_bounded setting within early
  cases explored : search.explore (setting.bounded bound) none bound with
  | failed final error => exact absurd explored (sure bound final error)
  | finished final verdict =>
    obtain ⟨conclusive, few⟩ := conclusive_of_explore early explored
    exact .inl ⟨final, verdict, ⟨bound, explored⟩, ⟨bound, same ▸ explored⟩, conclusive, few⟩
  | continued head =>
    have counted := iterations_explore explored
    rw [fresh, Nat.zero_add] at counted
    cases waits : head.reached.hasWaiting with
    | false =>
      refine .inl ⟨head, .exhausted, ?_, ?_, rfl, counted.le⟩
      · exact .of_continued explored (yields_of_step (step_of_nothing waits))
      · exact .of_continued (same ▸ explored) (yields_of_step (step_of_nothing waits))
    | true =>
      refine .inr ⟨head, ?_, counted, waits, ?_⟩
      · exact .of_continued explored (yields_of_step (step_of_late positive waits counted.ge))
      · intro final verdict yields conclusive
        rw [← counted]
        exact lt_iterations_of_waits waits (yields.from_continued (same ▸ explored)) conclusive

end Bounded

end Search

end Reachability
