import Mathlib
import Reachability.Parallel

/-!
# Every schedule maps a list in order

A schedule is a sequence of events, each of which can happen after those before
it.  The events that have happened account for a pool: what was sent is in the
channel or has been received, and what a worker has received it holds, or it has
written the result.
-/

namespace Reachability

namespace Worker

variable {β : Type u}

def received? : Worker β → Option Nat
  | received position => some position
  | _ => none

def computed? : Worker β → Option Nat
  | computed position _ => some position
  | _ => none

end Worker

namespace PoolEvent

def received? : PoolEvent → Option (Nat × Nat)
  | receive worker position => some (worker, position)
  | _ => none

def applied? : PoolEvent → Option (Nat × Nat)
  | apply worker position => some (worker, position)
  | _ => none

def written? : PoolEvent → Option (Nat × Nat)
  | write worker position => some (worker, position)
  | _ => none

end PoolEvent

namespace Pool

open PoolEvent

variable {α : Type u} {β : Type v} {f : α → β} {items : List α} {events : List PoolEvent}
  {event : PoolEvent} {pool after : Pool β} {worker position : Nat}

/-- What can happen to a pool, one constructor for each kind of event. -/
inductive Steps (f : α → β) (items : List α) (pool : Pool β) : PoolEvent → Pool β → Prop where
  | send : pool.next < items.length → Steps f items pool .send
      { pool with next := pool.next + 1, queue := pool.queue ++ [pool.next] }
  | close : pool.next = items.length → pool.closed = false →
      Steps f items pool .close { pool with closed := true }
  | receive {worker position : Nat} {rest : List Nat} : pool.workers[worker]? = some .idle →
      pool.queue = position :: rest → Steps f items pool (.receive worker position)
        { pool with queue := rest, workers := pool.workers.set worker (.received position) }
  | apply {worker position : Nat} {item : α} : pool.workers[worker]? = some (.received position) →
      items[position]? = some item → Steps f items pool (.apply worker position)
        { pool with workers := pool.workers.set worker (.computed position (f item)) }
  | write {worker position : Nat} {result : β} :
      pool.workers[worker]? = some (.computed position result) →
      Steps f items pool (.write worker position)
        { pool with
          workers := pool.workers.set worker .idle
          results := pool.results.set position (some result) }
  | finish {worker : Nat} : pool.workers[worker]? = some .idle → pool.queue = [] →
      pool.closed = true → Steps f items pool (.finish worker)
        { pool with workers := pool.workers.set worker .finished }

theorem step_eq_some_iff :
    pool.step f items event = some after ↔ Steps f items pool event after := by
  constructor
  · intro stepped
    cases event <;> simp only [step] at stepped
    case send =>
      obtain ⟨inside, ⟨⟩⟩ := Option.ite_none_right_eq_some.mp stepped
      exact .send inside
    case close =>
      obtain ⟨⟨all, isOpen⟩, ⟨⟩⟩ := Option.ite_none_right_eq_some.mp stepped
      exact .close all isOpen
    all_goals
      split at stepped
      · obtain ⟨holds, ⟨⟩⟩ := Option.ite_none_right_eq_some.mp stepped
        subst_vars
        constructor <;> assumption
      · cases stepped
  · intro steps
    cases steps <;> simp only [step, *] <;> rfl

/-- A worker holds what it has got by events of one kind and has not passed on by events of
another. -/
def Balanced (events : List PoolEvent) (workers : List (Worker β))
    (got passed : PoolEvent → Option (Nat × Nat)) (held : Worker β → Option Nat) : Prop :=
  ∀ worker position, (events.filterMap got).count (worker, position) =
    (events.filterMap passed).count (worker, position) +
      if workers[worker]?.bind held = some position then 1 else 0

/-- How the events so far account for a pool. -/
structure Accounts (f : α → β) (items : List α) (events : List PoolEvent) (pool : Pool β) :
    Prop where
  sent : ∀ position, pool.queue.count position +
    ((events.filterMap received?).map Prod.snd).count position =
      if position < pool.next then 1 else 0
  received : Balanced events pool.workers received? applied? Worker.received?
  applied : Balanced events pool.workers applied? written? Worker.computed?
  computed : ∀ (worker position : Nat) (result : β),
    pool.workers[worker]? = some (.computed position result) → items[position]?.map f = some result
  results : ∀ position : Nat, pool.results[position]? = items[position]?.map fun item =>
    if position ∈ (events.filterMap written?).map Prod.snd then some (f item) else none

/-- Before the last position has been sent the channel is open, and before it is empty nobody
finishes. -/
structure Orderly (items : List α) (pool : Pool β) : Prop where
  within : pool.next ≤ items.length
  queued : ∀ position ∈ pool.queue, position < items.length
  held : ∀ worker position : Nat, pool.workers[worker]? = some (.received position) →
    position < items.length
  closed : pool.closed = true → pool.next = items.length
  finished : .finished ∈ pool.workers → pool.closed = true ∧ pool.queue = []
  staffed : 0 < pool.workers.length

def Finished (pool : Pool β) : Prop := ∀ state ∈ pool.workers, state = .finished

theorem Accounts.start (workers : Int) : Accounts f items [] (start workers items) := by
  have idle : ∀ (worker : Nat) (state : Worker β),
      (Pool.start workers items).workers[worker]? = some state → state = .idle :=
    fun _ _ found => List.eq_of_mem_replicate (List.mem_of_getElem? found)
  constructor
  · exact fun _ => rfl
  · grind [Balanced, Worker.received?]
  · grind [Balanced, Worker.computed?]
  · intro worker position result found
    cases idle worker _ found
  · grind [Pool.start]

theorem getElem?_set_cases {new state : Worker β} {other : Nat}
    (found : (pool.workers.set worker new)[other]? = some state) :
    state = new ∨ pool.workers[other]? = some state := by
  rw [List.getElem?_set] at found
  split at found
  · rw [Option.ite_none_right_eq_some, Option.some.injEq] at found
    exact .inl found.2.symm
  · exact .inr found

theorem filterMap_concat (read : PoolEvent → Option (Nat × Nat)) (unread : read event = none) :
    (events ++ [event]).filterMap read = events.filterMap read := by
  rw [List.filterMap_append, List.filterMap_cons_none unread, List.filterMap_nil, List.append_nil]

theorem count_concat (read : PoolEvent → Option (Nat × Nat)) (pair : Nat × Nat) :
    ((events ++ [event]).filterMap read).count pair =
      (events.filterMap read).count pair + if read event = some pair then 1 else 0 := by
  rw [List.filterMap_append, List.count_append]
  cases found : read event with
  | none => simp [found]
  | some other => simp [found, List.count_singleton]

/-- A worker that gets a position holds it in its next state, and it no longer holds one that it
passes on. -/
theorem Balanced.set {got passed : PoolEvent → Option (Nat × Nat)} {held : Worker β → Option Nat}
    {workers : List (Worker β)} {state next : Worker β}
    (balanced : Balanced events workers got passed held) (found : workers[worker]? = some state)
    (moves : ∀ other position, (if got event = some (other, position) then 1 else 0) +
        (if other = worker ∧ held state = some position then 1 else 0) =
      (if passed event = some (other, position) then 1 else 0) +
        if other = worker ∧ held next = some position then 1 else 0) :
    Balanced (events ++ [event]) (workers.set worker next) got passed held := by
  intro other position
  have before := balanced other position
  have moved := moves other position
  rw [count_concat, count_concat]
  by_cases same : other = worker
  · subst same
    obtain ⟨inside, _⟩ := List.getElem?_eq_some_iff.mp found
    simp only [found, Option.bind_some, true_and] at before moved
    rw [List.getElem?_set_self inside, Option.bind_some]
    omega
  · rw [List.getElem?_set_ne (Ne.symm same)]
    simp only [same, false_and, if_false] at moved
    omega

/-- Events are counted only if a position is received, applied or written. -/
theorem Accounts.concat (accounts : Accounts f items events pool)
    (uncounted : received? event = none ∧ applied? event = none ∧ written? event = none) :
    Accounts f items (events ++ [event]) pool := by
  obtain ⟨sent, received, applied, computed, results⟩ := accounts
  constructor <;> simpa only [Balanced, filterMap_concat, uncounted]

theorem Accounts.step (accounts : Accounts f items events pool)
    (steps : Steps f items pool event after) : Accounts f items (events ++ [event]) after := by
  obtain ⟨sent, received, applied, computed, results⟩ := accounts
  cases steps with
  | send inside =>
    refine Accounts.concat ⟨?_, received, applied, computed, results⟩ ⟨rfl, rfl, rfl⟩
    grind
  | close =>
    exact Accounts.concat ⟨sent, received, applied, computed, results⟩ ⟨rfl, rfl, rfl⟩
  | @receive worker position _ found queued =>
    constructor
    · grind [received?]
    · exact received.set found (by grind [received?, applied?, Worker.received?])
    · exact applied.set found (by grind [applied?, written?, Worker.computed?])
    · intro other place result holds
      exact computed other place result ((getElem?_set_cases holds).resolve_left nofun)
    · simpa only [@filterMap_concat _ (.receive worker position) written? rfl] using results
  | @apply worker position _ found isItem =>
    constructor
    · simpa only [@filterMap_concat _ (.apply worker position) received? rfl] using sent
    · exact received.set found (by grind [received?, applied?, Worker.received?])
    · exact applied.set found (by grind [applied?, written?, Worker.computed?])
    · intro other place result holds
      rcases getElem?_set_cases holds with same | held
      · cases same
        rw [isItem, Option.map_some]
      · exact computed other place result held
    · simpa only [@filterMap_concat _ (.apply worker position) written? rfl] using results
  | @write worker position _ found =>
    constructor
    · simpa only [@filterMap_concat _ (.write worker position) received? rfl] using sent
    · exact received.set found (by grind [received?, applied?, Worker.received?])
    · exact applied.set found (by grind [applied?, written?, Worker.computed?])
    · intro other place result holds
      exact computed other place result ((getElem?_set_cases holds).resolve_left nofun)
    · have isResult := computed worker position _ found
      grind [written?]
  | @finish worker found =>
    constructor
    · simpa only [@filterMap_concat _ (.finish worker) received? rfl] using sent
    · exact received.set found (by grind [received?, applied?, Worker.received?])
    · exact applied.set found (by grind [applied?, written?, Worker.computed?])
    · intro other place result holds
      exact computed other place result ((getElem?_set_cases holds).resolve_left nofun)
    · simpa only [@filterMap_concat _ (.finish worker) written? rfl] using results

theorem Orderly.start (workers : Int) : Orderly items (start workers items : Pool β) := by
  have : 0 < size workers := Nat.lt_of_lt_of_le Nat.zero_lt_one (Nat.le_max_right _ _)
  constructor <;> grind [Pool.start]

theorem Orderly.step (orderly : Orderly items pool) (steps : Steps f items pool event after) :
    Orderly items after := by
  obtain ⟨within, queued, held, closed, finished, staffed⟩ := orderly
  cases steps with
  | send inside =>
    refine ⟨inside, ?_, held, ?_, ?_, staffed⟩
    · intro position member
      rcases List.mem_append.mp member with earlier | new
      · exact queued position earlier
      · exact List.mem_singleton.mp new ▸ inside
    · exact fun isClosed => absurd (closed isClosed) (Nat.ne_of_lt inside)
    · exact fun member => absurd (closed (finished member).1) (Nat.ne_of_lt inside)
  | close all =>
    exact ⟨within, queued, held, fun _ => all, fun member => ⟨rfl, (finished member).2⟩, staffed⟩
  | receive found waiting =>
    rw [waiting] at queued finished
    refine ⟨within, fun other later => queued other (List.mem_cons_of_mem _ later), ?_, closed,
      ?_, by rwa [List.length_set]⟩
    · intro other place holds
      rcases getElem?_set_cases holds with same | before
      · cases same
        exact queued _ List.mem_cons_self
      · exact held other place before
    · intro member
      have earlier := (List.mem_or_eq_of_mem_set member).resolve_right nofun
      exact absurd (finished earlier).2 (List.cons_ne_nil _ _)
  | apply | write =>
    refine ⟨within, queued, ?_, closed, ?_, by rwa [List.length_set]⟩
    · intro other place holds
      exact held other place ((getElem?_set_cases holds).resolve_left nofun)
    · intro member
      exact finished ((List.mem_or_eq_of_mem_set member).resolve_right nofun)
  | finish found empty isClosed =>
    refine ⟨within, queued, ?_, closed, fun _ => ⟨isClosed, empty⟩, by rwa [List.length_set]⟩
    intro other place holds
    exact held other place ((getElem?_set_cases holds).resolve_left nofun)

/-- Until all workers have finished, something can happen. -/
theorem Orderly.exists_steps (orderly : Orderly items pool) (unfinished : ¬pool.Finished)
    (f : α → β) : ∃ event after, Steps f items pool event after := by
  obtain ⟨state, member, busy⟩ : ∃ state ∈ pool.workers, state ≠ .finished := by
    simpa [Finished] using unfinished
  obtain ⟨worker, found⟩ := List.mem_iff_getElem?.mp member
  cases state with
  | received position =>
    exact ⟨_, _, .apply found (List.getElem?_eq_getElem (orderly.held worker position found))⟩
  | computed position result => exact ⟨_, _, .write found⟩
  | finished => exact absurd rfl busy
  | idle =>
    cases queue : pool.queue with
    | cons position rest => exact ⟨_, _, .receive found queue⟩
    | nil =>
      rcases orderly.within.lt_or_eq with inside | all
      · exact ⟨_, _, .send inside⟩
      · cases closed : pool.closed with
        | true => exact ⟨_, _, .finish found queue closed⟩
        | false => exact ⟨_, _, .close all closed⟩

theorem perm_of_finished (accounts : Accounts f items events pool) (orderly : Orderly items pool)
    (finished : pool.Finished) :
    ((events.filterMap received?).map Prod.snd).Perm (List.range items.length) ∧
      (events.filterMap applied?).Perm (events.filterMap received?) ∧
      (events.filterMap written?).Perm (events.filterMap applied?) := by
  obtain ⟨state, member⟩ := List.exists_mem_of_length_pos orderly.staffed
  obtain ⟨closed, empty⟩ := orderly.finished (finished state member ▸ member)
  have resting : ∀ worker : Nat, pool.workers[worker]?.bind Worker.received? = none ∧
      pool.workers[worker]?.bind Worker.computed? = none := by
    intro worker
    cases found : pool.workers[worker]? with
    | none => exact ⟨rfl, rfl⟩
    | some state =>
      cases finished state (List.mem_of_getElem? found)
      exact ⟨rfl, rfl⟩
  simp only [List.perm_iff_count, Prod.forall]
  refine ⟨?_, ?_, ?_⟩
  · intro position
    have sent := accounts.sent position
    rw [empty, orderly.closed closed, List.count_nil, Nat.zero_add] at sent
    simp [sent, List.nodup_range.count]
  · intro worker position
    simp [accounts.received worker position, resting]
  · intro worker position
    simp [accounts.applied worker position, resting]

theorem results_of_finished (accounts : Accounts f items events pool) (orderly : Orderly items pool)
    (finished : pool.Finished) : pool.results = items.map fun item => some (f item) := by
  obtain ⟨positions, applied, written⟩ := perm_of_finished accounts orderly finished
  have all := ((written.trans applied).map Prod.snd).trans positions
  apply List.ext_getElem?
  intro position
  rw [accounts.results, List.getElem?_map]
  simp only [all.mem_iff, List.mem_range]
  grind

theorem invariants_of_run {workers : Int}
    (ran : (start workers items).run f items events = some pool) :
    Accounts f items events pool ∧ Orderly items pool := by
  induction events using List.reverseRecOn generalizing pool with
  | nil =>
    cases ran
    exact ⟨.start workers, .start workers⟩
  | append_singleton events event induction =>
    rw [run, List.foldlM_append] at ran
    obtain ⟨before, ranBefore, stepped⟩ := Option.bind_eq_some_iff.mp ran
    obtain ⟨accounts, orderly⟩ := induction ranBefore
    have steps : Steps f items before event pool := step_eq_some_iff.mp (by simpa using stepped)
    exact ⟨accounts.step steps, orderly.step steps⟩

/-! ## The workers take turns -/

theorem run_append {first second : List PoolEvent} (ran : pool.run f items first = some after) :
    pool.run f items (first ++ second) = after.run f items second := by
  rw [run, List.foldlM_append]
  exact congrArg (· >>= fun pool => pool.run f items second) ran

/-- Between two turns nobody is working. -/
theorem run_turn {count : Nat} (f : α → β) (idle : pool.workers = List.replicate count .idle)
    (empty : pool.queue = []) (inside : pool.next < items.length) (isWorker : worker < count) :
    ∃ after, pool.run f items [.send, .receive worker pool.next, .apply worker pool.next,
        .write worker pool.next] = some after ∧
      after.workers = List.replicate count .idle ∧ after.queue = [] ∧
      after.next = pool.next + 1 ∧ after.closed = pool.closed := by
  simp [run, step, idle, empty, inside, isWorker]

theorem run_finish {count : Nat} (f : α → β) (items : List α) (within : count ≤ pool.workers.length)
    (idle : ∀ state ∈ pool.workers, state = .idle) (empty : pool.queue = [])
    (closed : pool.closed = true) :
    pool.run f items ((List.range count).map .finish) =
      some { pool with workers := List.replicate count .finished ++ pool.workers.drop count } := by
  induction count with
  | zero => rfl
  | succ count induction =>
    rw [List.range_succ, List.map_append, run_append (induction (Nat.le_of_succ_le within))]
    have next : pool.workers.drop count = .idle :: pool.workers.drop (count + 1) := by
      rw [List.drop_eq_getElem_cons within, idle _ (List.getElem_mem within)]
    simp [run, step, next, empty, closed, List.replicate_succ']

theorem exists_run_turns (workers : Int) (f : α → β) (items : List α) :
    ∃ pool : Pool β, (start workers items).run f items (turns workers items.length) = some pool ∧
      pool.Finished := by
  have turned : ∀ length ≤ items.length, ∃ pool : Pool β, (start workers items).run f items
      ((List.range length).flatMap fun position =>
        [.send, .receive (position % size workers) position,
        .apply (position % size workers) position,
        .write (position % size workers) position]) = some pool ∧
      pool.workers = List.replicate (size workers) .idle ∧ pool.queue = [] ∧ pool.next = length ∧
      pool.closed = false := by
    intro length within
    induction length with
    | zero => exact ⟨_, rfl, rfl, rfl, rfl, rfl⟩
    | succ length induction =>
      obtain ⟨pool, ran, idle, empty, rfl, isOpen⟩ := induction (Nat.le_of_succ_le within)
      have isWorker : pool.next % size workers < size workers :=
        Nat.mod_lt _ (Nat.lt_of_lt_of_le Nat.zero_lt_one (Nat.le_max_right _ _))
      obtain ⟨after, turned, rest⟩ := run_turn f idle empty within isWorker
      rw [List.range_succ, List.flatMap_append, List.flatMap_singleton, run_append ran]
      exact ⟨after, turned, isOpen ▸ rest⟩
  obtain ⟨pool, ran, idle, empty, sent, isOpen⟩ := turned _ le_rfl
  have closes : pool.run f items [.close] = some { pool with closed := true } := by
    simp [run, step, sent, isOpen]
  have finishes := @run_finish _ _ { pool with closed := true } (size workers) f items
    (by simp [idle]) (by simp [idle]) empty rfl
  refine ⟨_, (run_append ran).trans ((run_append closes).trans finishes), ?_⟩
  simp [Finished, idle]

theorem parallelMap_eq (workers : Int) (f : α → β) (items : List α) :
    parallelMap workers f items = items.map f := by
  obtain ⟨pool, ran, finished⟩ := exists_run_turns workers f items
  obtain ⟨accounts, orderly⟩ := invariants_of_run ran
  simp [parallelMap, ran, results_of_finished accounts orderly finished, List.filterMap_map]

/-- In every schedule, a position is received at most once, and only the worker that has received it
applies the function and writes the result, once; the results are those written so far, each at its
place. Something can happen until all workers have finished.  Then every position has been received,
applied and written, and the results are those of the items in their order, as they are where the
workers take turns. -/
theorem every_schedule_maps (workers : Int) (f : α → β) (items : List α) {events : List PoolEvent}
    {pool : Pool β} (ran : (start workers items).run f items events = some pool) :
    ((events.filterMap received?).map Prod.snd).Nodup ∧
      (events.filterMap applied?).Subperm (events.filterMap received?) ∧
      (events.filterMap written?).Subperm (events.filterMap applied?) ∧
      (∀ position : Nat, pool.results[position]? = items[position]?.map fun item =>
        if position ∈ (events.filterMap written?).map Prod.snd then some (f item) else none) ∧
      (¬pool.Finished → ∃ event after, pool.step f items event = some after) ∧
      (pool.Finished →
        ((events.filterMap received?).map Prod.snd).Perm (List.range items.length) ∧
        (events.filterMap applied?).Perm (events.filterMap received?) ∧
        (events.filterMap written?).Perm (events.filterMap applied?) ∧
        pool.results = items.map fun item => some (f item)) ∧
      parallelMap workers f items = items.map f := by
  obtain ⟨accounts, orderly⟩ := invariants_of_run ran
  refine ⟨?_, ?_, ?_, accounts.results, ?_, ?_, parallelMap_eq workers f items⟩
  · rw [List.nodup_iff_count_le_one]
    intro position
    have sent := accounts.sent position
    split at sent <;> omega
  · rw [List.subperm_ext_iff]
    rintro ⟨worker, position⟩ _
    rw [accounts.received]
    exact Nat.le_add_right _ _
  · rw [List.subperm_ext_iff]
    rintro ⟨worker, position⟩ _
    rw [accounts.applied]
    exact Nat.le_add_right _ _
  · intro unfinished
    obtain ⟨event, after, steps⟩ := orderly.exists_steps unfinished f
    exact ⟨event, after, step_eq_some_iff.mpr steps⟩
  · intro finished
    obtain ⟨positions, applied, written⟩ := perm_of_finished accounts orderly finished
    exact ⟨positions, applied, written, results_of_finished accounts orderly finished⟩

/-- A schedule in which the worker that has received first writes last, when the other has
finished. -/
def crossing : List PoolEvent :=
  [.send, .send, .receive 0 0, .close, .receive 1 1, .apply 1 1, .write 1 1, .finish 1, .apply 0 0,
    .write 0 0, .finish 0]

theorem every_schedule_maps_crossing :
    ∃ pool, (start 2 [5, 7]).run (fun item => item * item) [5, 7] crossing = some pool ∧
      pool.Finished ∧ pool.results = [some 25, some 49] := by
  obtain ⟨pool, ran, finished⟩ : ∃ pool,
      (start 2 [5, 7]).run (fun item => item * item) [5, 7] crossing = some pool ∧ pool.Finished :=
    ⟨_, rfl, by simp [Finished, start, size, List.replicate]⟩
  exact ⟨pool, ran, finished,
    ((every_schedule_maps 2 _ [5, 7] ran).2.2.2.2.2.1 finished).2.2.2⟩

end Pool

end Reachability
