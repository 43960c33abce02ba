import OsCourse.Foundations.Census
import OsCourse.Pfind.Program

/-! # What a step changes

Where a worker can go from each position, and which of the counters follow. What is said
about a worker here does not depend on whether it is blocked, so that wake-ups are no
change.
-/

namespace OsCourse.Pfind
open Foundations

namespace Worker

/-- Counted in `sleeping_threads_available`. -/
def counted : Worker → Bool
  | .drowsy | .asleep | .woken => true
  | _ => false

/-- Leaving through the error path, and counted there. -/
def errored : Worker → Bool
  | .signalling | .exited => true
  | _ => false

/-- Has not passed the wait for `new_sleeping_thread` for the first time. -/
def early : Worker → Bool
  | .unborn | .starting | .awaitingStart | .loopHead | .gate | .gateWait => true
  | _ => false

/-- The directory of a worker between a successful `deQueue` and the end of its `folder_scan`. -/
def directory : Worker → Option Path
  | .opening directory => some directory
  | .scanning scan | .enqueuing scan .. | .announcing scan _ | .yielding scan _ | .counting scan =>
    some scan.directory
  | _ => none

/-- Will not look at the queue before it is woken. -/
def idle (w : Worker) : Bool := w.counted || w.errored || w = .hungry

@[simp] theorem counted_unblock (w : Worker) : w.unblock.counted = w.counted := by cases w <;> rfl
@[simp] theorem errored_unblock (w : Worker) : w.unblock.errored = w.errored := by cases w <;> rfl
@[simp] theorem early_unblock (w : Worker) : w.unblock.early = w.early := by cases w <;> rfl
@[simp] theorem directory_unblock (w : Worker) : w.unblock.directory = w.directory := by
  cases w <;> rfl
@[simp] theorem idle_unblock (w : Worker) : w.unblock.idle = w.idle := by cases w <;> rfl

theorem unblock_ne_gateWait (w : Worker) : w.unblock ≠ .gateWait := by cases w <;> simp [unblock]

theorem unblock_eq_returned {w : Worker} : w.unblock = .returned ↔ w = .returned := by
  cases w <;> simp [unblock]

theorem not_idle {w : Worker} (h : w.idle = false) :
    w.counted = false ∧ w.errored = false ∧ w ≠ .hungry := by
  simpa [idle, and_assoc] using h

theorem counted_or_errored {w : Worker} (h : (w.counted || w.errored) = true) : w.idle = true := by
  simp [idle, h]

theorem directory_of_idle {w : Worker} (h : w.idle = true) : w.directory = none := by
  cases w <;> first | rfl | cases h

end Worker

variable {fs : FileSystem} {original_directory : Path} {searched_str : Name} {n : ℕ}
  {s t : State n} {i : Fin n} {v w : Worker} {c : Condition}

/-! ## The moves of a worker -/

variable (fs searched_str) in
/-- What worker `i` can do in one step, from each of its positions. -/
inductive WorkerMove (s : State n) (i : Fin n) (stack : BitVec 32) : Worker → State n → Prop
  | start : WorkerMove s i stack .starting
      (s.move i (if s.can_start then .loopHead else .awaitingStart))
  | head : WorkerMove s i stack .loopHead (s.move i (if s.run_ended then .returned else .gate))
  | pass : WorkerMove s i stack .gate
      (s.move i (if s.sleeping_threads_available = 0 then .gateWait else .dequeuing))
  | starve (hqueue : s.directories_queue = []) : WorkerMove s i stack .dequeuing
      ({ s with empty_queue := true }.move i .hungry)
  | take {d : Path} {rest : List Path} (hqueue : s.directories_queue = d :: rest) :
      WorkerMove s i stack .dequeuing ({ s with
        directories_queue := rest
        dequeued := s.dequeued ++ [d] }.move i (.opening d))
  | fail {d : Path} (hopen : fs.opendir d = none) :
      WorkerMove s i stack (.opening d) (s.scanReturns i d true)
  | enter {d : Path} {names : List Name} (hopen : fs.opendir d = some names) :
      WorkerMove s i stack (.opening d) (s.move i (.scanning ⟨d, names, stack, false⟩))
  | examine {scan : Scan} {d_name : Name} {rest : List Name} {w : Worker}
      (hrun : s.run_ended = false) (hentries : scan.entries = d_name :: rest)
      (hw : scan.examine fs searched_str d_name rest s.empty_queue = some w) :
      WorkerMove s i stack (.scanning scan) (s.move i w)
  | finish {scan : Scan} (hend : s.run_ended = true ∨ scan.entries = []) :
      WorkerMove s i stack (.scanning scan) (s.scanReturns i scan.directory scan.res)
  | enqueue {scan : Scan} {d : Path} {b : Bool} : WorkerMove s i stack (.enqueuing scan d b)
      ((enQueue s d).move i (.announcing scan b))
  | announce {scan : Scan} {b : Bool} : WorkerMove s i stack (.announcing scan b)
      ((s.broadcast .queue_not_empty).move i (.yielding scan b))
  | yield {scan : Scan} {b : Bool} :
      WorkerMove s i stack (.yielding scan b) (s.move i (.scanning scan))
  | count {scan : Scan} (hcounter : s.counter ≠ INT_MAX) : WorkerMove s i stack (.counting scan)
      ({ s with counter := s.counter + 1 }.move i (.scanning scan))
  | err : WorkerMove s i stack .erring ({ s with
        thread_errors_cntr := s.thread_errors_cntr + 1
        living_threads := s.living_threads - 1 }.move i .signalling)
  | doze : WorkerMove s i stack .hungry (({ s with
        sleeping_threads_available := s.sleeping_threads_available + 1 }.broadcast
          .new_sleeping_thread).move i .drowsy)
  | sleep : WorkerMove s i stack .drowsy (s.move i .asleep)
  | rise : WorkerMove s i stack .woken ({ s with
        sleeping_threads_available := s.sleeping_threads_available - 1 }.move i .loopHead)

theorem deQueue_spec (s : State n) :
    (deQueue s = ({ s with empty_queue := true }, none) ∧ s.directories_queue = []) ∨
    ∃ d rest, s.directories_queue = d :: rest ∧ deQueue s =
      ({ s with directories_queue := rest, dequeued := s.dequeued ++ [d] }, some d) := by
  unfold deQueue
  cases hq : s.directories_queue with
  | nil => exact Or.inl ⟨rfl, rfl⟩
  | cons d rest => exact Or.inr ⟨d, rest, rfl, rfl⟩

/-- Every step of a worker is a move. -/
theorem worker_move {stack : BitVec 32} (hs : workerStep fs searched_str s i stack = some t) :
    WorkerMove fs searched_str s i stack (s.worker i) t := by
  rw [workerStep] at hs
  cases hv : s.worker i <;> rw [hv] at hs <;> dsimp only at hs
  case dequeuing =>
    rcases deQueue_spec s with ⟨hd, hq⟩ | ⟨d, rest, hq, hd⟩ <;> rw [hd] at hs <;> cases hs
    · exact .starve hq
    · exact .take hq
  case opening d =>
    cases hopen : fs.opendir d <;> rw [hopen] at hs <;> cases hs
    · exact .fail hopen
    · exact .enter hopen
  case scanning scan =>
    cases hr : s.run_ended with
    | true =>
      rw [hr] at hs
      cases hs
      exact .finish (Or.inl hr)
    | false =>
      rw [hr] at hs
      cases he : scan.entries with
      | nil =>
        rw [he] at hs
        cases hs
        exact .finish (Or.inr he)
      | cons d_name rest =>
        rw [he] at hs
        obtain ⟨w, hw, rfl⟩ := Option.map_eq_some_iff.mp hs
        exact .examine hr he hw
  case counting scan =>
    split at hs
    case isTrue => cases hs
    case isFalse hc =>
      cases hs
      exact .count hc
  all_goals cases hs
  all_goals constructor

/-! ## One worker goes on -/

@[simp] theorem move_self (s : State n) (i : Fin n) (w : Worker) : (s.move i w).worker i = w :=
  Function.update_self ..

theorem move_of_ne (s : State n) (w : Worker) {j : Fin n} (h : j ≠ i) :
    (s.move i w).worker j = s.worker j := Function.update_of_ne h ..

/-- Worker `i` goes to `w`, and other workers may wake up. -/
structure Goes (s t : State n) (i : Fin n) (w : Worker) : Prop where
  self : t.worker i = w
  others : ∀ j ≠ i, t.worker j = s.worker j ∨ t.worker j = (s.worker j).unblock

theorem Goes.of_update (h : t.worker = Function.update s.worker i w) : Goes s t i w :=
  ⟨by rw [h, Function.update_self], fun _ hj => Or.inl (by rw [h, Function.update_of_ne hj])⟩

theorem Goes.broadcast {u : State n} (hu : u.worker = s.worker) (c : Condition) (i : Fin n)
    (w : Worker) : Goes s ((u.broadcast c).move i w) i w := by
  refine ⟨move_self .., fun j hj => ?_⟩
  rw [move_of_ne _ _ hj, State.broadcast, hu]
  dsimp only
  split
  · exact Or.inr rfl
  · exact Or.inl rfl

/-- What does not depend on being blocked is as if only worker `i` had moved. -/
theorem Goes.apply (h : Goes s t i w) {α : Type*} {g : Worker → α} (hg : ∀ w, g w.unblock = g w)
    (j : Fin n) : g (t.worker j) = g (Function.update s.worker i w j) := by
  by_cases hj : j = i
  · subst hj
    rw [h.self, Function.update_self]
  · rw [Function.update_of_ne hj]
    rcases h.others j hj with he | he <;> rw [he]
    exact hg _

theorem Goes.census (h : Goes s t i w) {p : Worker → Bool} (hp : ∀ w, p w.unblock = p w) :
    census p t.worker =
      census p s.worker - (if p (s.worker i) then 1 else 0) + if p w then 1 else 0 := by
  rw [census_congr (h.apply hp), census_update]

theorem Goes.sum (h : Goes s t i w) {M : Type*} [AddCommMonoid M] {g : Worker → M}
    (hg : ∀ w, g w.unblock = g w) :
    ∑ j, g (t.worker j) + g (s.worker i) = ∑ j, g (s.worker j) + g w := by
  simp only [h.apply hg]
  exact sum_update g s.worker i w

theorem Goes.forall (h : Goes s t i w) {P : Worker → Prop} (hP : ∀ w, P w → P w.unblock)
    (hs : ∀ j, P (s.worker j)) (hw : P w) (j : Fin n) : P (t.worker j) := by
  by_cases hj : j = i
  · subst hj
    rwa [h.self]
  · rcases h.others j hj with he | he <;> rw [he]
    · exact hs j
    · exact hP _ (hs j)

/-- The counters, `run_ended` and main are as before. -/
structure SameControl (s t : State n) : Prop where
  main : t.main = s.main
  run_ended : t.run_ended = s.run_ended
  sleeping : t.sleeping_threads_available = s.sleeping_threads_available
  errors : t.thread_errors_cntr = s.thread_errors_cntr
  living : t.living_threads = s.living_threads

/-- The queue and the lists of directories are as before. -/
structure SameBooks (s t : State n) : Prop where
  queue : t.directories_queue = s.directories_queue
  enqueued : t.enqueued = s.enqueued
  dequeued : t.dequeued = s.dequeued
  scanned : t.scanned = s.scanned
  failed : t.failed = s.failed

theorem SameBooks.move {u : State n} (h : SameBooks s u) (i : Fin n) (w : Worker) :
    SameBooks s (u.move i w) :=
  ⟨h.queue, h.enqueued, h.dequeued, h.scanned, h.failed⟩

/-- A worker that is not idle goes from `v` to `w`. -/
structure Works (s t : State n) (v w : Worker) : Prop where
  busy : v.idle = false
  not_erring : v ≠ .erring
  same : SameControl s t
  hungry : w.idle = true → w = .hungry ∧ t.directories_queue = []
  early : v.early = true → s.sleeping_threads_available = 0 → s.run_ended = false → w.early = true
  gate : w = .gateWait → s.sleeping_threads_available = 0
  returned : w = .returned → s.run_ended = true
  quiet : s.directories_queue = [] → v.directory = none →
    t.directories_queue = [] ∧ w.directory = none

/-- The turns of a worker that goes from `v` to `w`. -/
inductive Turn (s t : State n) : Worker → Worker → Prop where
  | work {v w : Worker} (h : Works s t v w) : Turn s t v w
  | err (main : t.main = s.main) (run_ended : t.run_ended = s.run_ended)
      (sleeping : t.sleeping_threads_available = s.sleeping_threads_available)
      (errors : t.thread_errors_cntr = s.thread_errors_cntr + 1)
      (living : t.living_threads = s.living_threads - 1)
      (queue : t.directories_queue = s.directories_queue) : Turn s t .erring .signalling
  | doze (main : t.main = s.main.unblock) (run_ended : t.run_ended = s.run_ended)
      (sleeping : t.sleeping_threads_available = s.sleeping_threads_available + 1)
      (errors : t.thread_errors_cntr = s.thread_errors_cntr)
      (living : t.living_threads = s.living_threads)
      (queue : t.directories_queue = s.directories_queue) : Turn s t .hungry .drowsy
  | sleep (same : SameControl s t) (queue : t.directories_queue = s.directories_queue) :
      Turn s t .drowsy .asleep
  | rise (main : t.main = s.main) (run_ended : t.run_ended = s.run_ended)
      (sleeping : t.sleeping_threads_available = s.sleeping_threads_available - 1)
      (errors : t.thread_errors_cntr = s.thread_errors_cntr)
      (living : t.living_threads = s.living_threads)
      (queue : t.directories_queue = s.directories_queue) : Turn s t .woken .loopHead

theorem Turn.main (h : Turn s t v w) : t.main = s.main ∨ t.main = s.main.unblock := by
  cases h with
  | work h => exact Or.inl h.same.main
  | sleep same => exact Or.inl same.main
  | err main | rise main => exact Or.inl main
  | doze main => exact Or.inr main

theorem Scan.examine_busy {scan : Scan} {d_name : Name} {rest : List Name} {empty_queue : Bool}
    (h : scan.examine fs searched_str d_name rest empty_queue = some w) :
    w.idle = false ∧ w.early = false ∧ w ≠ .returned ∧ w.directory = some scan.directory := by
  unfold Scan.examine at h
  dsimp only at h
  split at h
  · cases h
  · cases hl : fs.lstat (join scan.directory d_name) <;> rw [hl] at h <;> dsimp only at h <;>
      split_ifs at h <;> cases h <;> exact ⟨rfl, rfl, by simp, rfl⟩

/-- Inside `folder_scan` the queue may grow. -/
theorem works_scan {d : Path} (hd : v.directory = some d) (same : SameControl s t)
    (hw : w.idle = false) (hg : w ≠ .gateWait) (hr : w ≠ .returned) : Works s t v w := by
  have hv : v.idle = false ∧ v ≠ .erring ∧ v.early = false := by
    cases v <;> cases hd <;> exact ⟨rfl, by simp, rfl⟩
  exact
    { busy := hv.1
      not_erring := hv.2.1
      same := same
      hungry := by simp [hw]
      early := by simp [hv.2.2]
      gate := fun h => absurd h hg
      returned := fun h => absurd h hr
      quiet := by simp [hd] }

theorem works_scanReturns {d : Path} (hd : v.directory = some d) (res : Bool) :
    ∃ w, Goes s (s.scanReturns i d res) i w ∧ Works s (s.scanReturns i d res) v w := by
  cases res with
  | true =>
    exact ⟨.erring, .of_update rfl, works_scan hd ⟨rfl, rfl, rfl, rfl, rfl⟩ rfl (by simp) (by simp)⟩
  | false =>
    exact ⟨.loopHead, .of_update rfl,
      works_scan hd ⟨rfl, rfl, rfl, rfl, rfl⟩ rfl (by simp) (by simp)⟩

/-- Outside `folder_scan` the globals stay as they are. -/
theorem works_move (hv : v.idle = false ∧ v ≠ .erring) (hw : w.idle = false ∧ w.directory = none)
    (hearly : s.sleeping_threads_available = 0 → s.run_ended = false → w.early = true)
    (hgate : w = .gateWait → s.sleeping_threads_available = 0)
    (hret : w = .returned → s.run_ended = true) :
    Goes s (s.move i w) i w ∧ Works s (s.move i w) v w :=
  ⟨.of_update rfl,
    { busy := hv.1
      not_erring := hv.2
      same := ⟨rfl, rfl, rfl, rfl, rfl⟩
      hungry := by simp [hw.1]
      early := fun _ => hearly
      gate := hgate
      returned := hret
      quiet := fun hq _ => ⟨hq, hw.2⟩ }⟩

theorem worker_turn {stack : BitVec 32} (hs : workerStep fs searched_str s i stack = some t) :
    ∃ w, Goes s t i w ∧ Turn s t (s.worker i) w := by
  have hwork : ∀ {v}, (∃ w, Goes s t i w ∧ Works s t v w) → ∃ w, Goes s t i w ∧ Turn s t v w :=
    fun ⟨w, hg, hw⟩ => ⟨w, hg, .work hw⟩
  have hmove := worker_move hs
  generalize s.worker i = v at hmove ⊢
  cases hmove with
  | start =>
    refine hwork ⟨_, works_move ⟨rfl, by simp⟩ ?_ ?_ ?_ ?_⟩ <;> cases s.can_start <;>
      simp [Worker.idle, Worker.counted, Worker.errored, Worker.directory, Worker.early]
  | head =>
    refine hwork ⟨_, works_move ⟨rfl, by simp⟩ ?_ ?_ ?_ ?_⟩ <;> cases s.run_ended <;>
      simp [Worker.idle, Worker.counted, Worker.errored, Worker.directory, Worker.early]
  | pass =>
    refine hwork ⟨_, works_move ⟨rfl, by simp⟩ ?_ ?_ ?_ ?_⟩ <;> split <;>
      simp_all [Worker.idle, Worker.counted, Worker.errored, Worker.directory, Worker.early]
  | starve hq =>
    exact hwork ⟨.hungry, .of_update rfl,
      { busy := rfl
        not_erring := by simp
        same := ⟨rfl, rfl, rfl, rfl, rfl⟩
        hungry := fun _ => ⟨rfl, hq⟩
        early := fun h => by cases h
        gate := by simp
        returned := by simp
        quiet := fun _ _ => ⟨hq, rfl⟩ }⟩
  | @take d rest hq =>
    exact hwork ⟨.opening d, .of_update rfl,
      { busy := rfl
        not_erring := by simp
        same := ⟨rfl, rfl, rfl, rfl, rfl⟩
        hungry := fun h => by cases h
        early := fun h => by cases h
        gate := by simp
        returned := by simp
        quiet := fun h => by simp [hq] at h }⟩
  | fail => exact hwork (works_scanReturns rfl true)
  | @examine scan _ _ w _ _ hw =>
    obtain ⟨hidle, hearly, hret, _⟩ := Scan.examine_busy hw
    refine hwork ⟨w, .of_update rfl, works_scan rfl ⟨rfl, rfl, rfl, rfl, rfl⟩ hidle ?_ hret⟩
    rintro rfl
    cases hearly
  | finish => exact hwork (works_scanReturns rfl _)
  | announce =>
    exact hwork ⟨_, .broadcast (by rfl) _ i _,
      works_scan rfl ⟨rfl, rfl, rfl, rfl, rfl⟩ rfl (by simp) (by simp)⟩
  | enter | enqueue | yield | count =>
    exact hwork ⟨_, .of_update rfl,
      works_scan rfl ⟨rfl, rfl, rfl, rfl, rfl⟩ rfl (by simp) (by simp)⟩
  | err => exact ⟨_, .of_update rfl, .err rfl rfl rfl rfl rfl rfl⟩
  | doze => exact ⟨_, .broadcast (by rfl) _ i _, .doze rfl rfl rfl rfl rfl rfl⟩
  | sleep => exact ⟨_, .of_update rfl, .sleep ⟨rfl, rfl, rfl, rfl, rfl⟩ rfl⟩
  | rise => exact ⟨_, .of_update rfl, .rise rfl rfl rfl rfl rfl rfl⟩

/-! ## Signals and spurious wake-ups -/

/-- Threads wake up, and nothing else happens. -/
structure Wakes (s t : State n) : Prop where
  main : t.main = s.main ∨ t.main = s.main.unblock
  worker : ∀ j, t.worker j = s.worker j ∨ t.worker j = (s.worker j).unblock
  run_ended : t.run_ended = s.run_ended
  sleeping : t.sleeping_threads_available = s.sleeping_threads_available
  errors : t.thread_errors_cntr = s.thread_errors_cntr
  living : t.living_threads = s.living_threads
  counter : t.counter = s.counter
  books : SameBooks s t

theorem unblock_wakes (s : State n) (thread : Thread n) : Wakes s (s.unblock thread) := by
  cases thread with
  | main =>
    exact ⟨Or.inr rfl, fun _ => Or.inl rfl, rfl, rfl, rfl, rfl, rfl, ⟨rfl, rfl, rfl, rfl, rfl⟩⟩
  | worker k =>
    refine ⟨Or.inl rfl, fun j => ?_, rfl, rfl, rfl, rfl, rfl, ⟨rfl, rfl, rfl, rfl, rfl⟩⟩
    by_cases hj : j = k
    · subst hj
      exact Or.inr (move_self ..)
    · exact Or.inl (move_of_ne _ _ hj)

theorem broadcast_forall {P : Worker → Prop} (hP : ∀ w, P w → P w.unblock)
    (h : ∀ j, P (s.worker j)) (c : Condition) (j : Fin n) : P ((s.broadcast c).worker j) := by
  rw [State.broadcast]
  dsimp only
  split
  · exact hP _ (h j)
  · exact h j

theorem Wakes.apply (h : Wakes s t) {α : Type*} {g : Worker → α} (hg : ∀ w, g w.unblock = g w)
    (j : Fin n) : g (t.worker j) = g (s.worker j) := by
  rcases h.worker j with he | he <;> rw [he]
  exact hg _

theorem spurious_wakes {thread : Thread n} (hs : spuriousStep s thread = some t) : Wakes s t := by
  rw [spuriousStep, Option.ite_none_right_eq_some] at hs
  rw [← Option.some.inj hs.2]
  exact unblock_wakes s thread

theorem Wakes.goes {u : State n} (h : Wakes s u) (i : Fin n) (w : Worker) :
    Goes s (u.move i w) i w := by
  refine ⟨move_self .., fun j hj => ?_⟩
  rw [move_of_ne _ _ hj]
  exact h.worker j

/-- The signal of worker `i`, which wakes main if main waits for it and no worker does. -/
structure Signals (s t : State n) (i : Fin n) : Prop where
  signalling : s.worker i = .signalling
  goes : Goes s t i .exited
  main : t.main = s.main ∨ t.main = s.main.unblock
  wakes : (∀ j, s.worker j ≠ .gateWait) → t.main = s.main.unblock
  run_ended : t.run_ended = s.run_ended
  sleeping : t.sleeping_threads_available = s.sleeping_threads_available
  errors : t.thread_errors_cntr = s.thread_errors_cntr
  living : t.living_threads = s.living_threads
  counter : t.counter = s.counter
  books : SameBooks s t

theorem signal_turn {waiter : Option (Thread n)} (hs : signalStep s i waiter = some t) :
    Signals s t i := by
  cases waiter with
  | none =>
    rw [signalStep, Option.ite_none_right_eq_some] at hs
    obtain ⟨⟨hv, hmain, _⟩, hs⟩ := hs
    cases hs
    have hm : s.main.unblock = s.main := by
      cases h : s.main <;> first | rfl | exact absurd ⟨rfl, h⟩ hmain
    exact ⟨hv, .of_update rfl, Or.inl rfl, fun _ => hm.symm, rfl, rfl, rfl, rfl, rfl,
      ⟨rfl, rfl, rfl, rfl, rfl⟩⟩
  | some thread =>
    rw [signalStep, Option.ite_none_right_eq_some] at hs
    obtain ⟨⟨hv, hblocked⟩, hs⟩ := hs
    cases hs
    have hw := unblock_wakes s thread
    refine ⟨hv, hw.goes i _, hw.main, fun hgate => ?_, hw.run_ended, hw.sleeping, hw.errors,
      hw.living, hw.counter, hw.books.move i _⟩
    cases thread with
    | main => rfl
    | worker j =>
      have hb : (s.worker j).blockedOn = some .new_sleeping_thread := hblocked
      cases h : s.worker j <;> rw [h] at hb <;> first | exact absurd h (hgate j) | cases hb

/-! ## Main -/

namespace MainThread

/-- Main has not yet counted itself in `sleeping_threads_available`. -/
def preparing : MainThread → Bool
  | .enqueuing | .creating _ | .numbering _ | .releasing | .joining => true
  | _ => false

/-- Main has set `run_ended`. -/
def hasEnded : MainThread → Bool
  | .reporting | .exited .. => true
  | _ => false

/-- Main has left its loop. -/
def hasLeft : MainThread → Bool
  | .left | .reporting | .exited .. => true
  | _ => false

/-- The workers that main has counted in `living_threads`. -/
def numbered (n : ℕ) : MainThread → ℤ
  | .enqueuing => 0
  | .creating dbzy | .numbering dbzy => dbzy
  | _ => n

@[simp] theorem preparing_unblock (m : MainThread) : m.unblock.preparing = m.preparing := by
  cases m <;> rfl

@[simp] theorem hasEnded_unblock (m : MainThread) : m.unblock.hasEnded = m.hasEnded := by
  cases m <;> rfl

@[simp] theorem hasLeft_unblock (m : MainThread) : m.unblock.hasLeft = m.hasLeft := by
  cases m <;> rfl

@[simp] theorem numbered_unblock (m : MainThread) : m.unblock.numbered n = m.numbered n := by
  cases m <;> rfl

end MainThread

variable (original_directory) in
/-- What main can do in one step, from each of its positions. -/
inductive MainMove (s : State n) : MainThread → State n → Prop
  | enqueue : MainMove s .enqueuing { enQueue s original_directory with main := .creating 0 }
  | create {dbzy : ℕ} (h : dbzy < n) : MainMove s (.creating dbzy)
      { s.move ⟨dbzy, h⟩ .starting with main := .numbering dbzy }
  | created {dbzy : ℕ} (h : ¬ dbzy < n) : MainMove s (.creating dbzy) { s with main := .releasing }
  | number {dbzy : ℕ} : MainMove s (.numbering dbzy)
      { s with living_threads := s.living_threads + 1, main := .creating (dbzy + 1) }
  | release : MainMove s .releasing
      { { s with can_start := true }.broadcast .all_threads_initiated with main := .joining }
  | join : MainMove s .joining { { s with
      sleeping_threads_available := s.sleeping_threads_available + 1 }.broadcast
        .new_sleeping_thread with main := .looping }
  | look (hrun : s.run_ended = false) : MainMove s .looping { s with main := .readingErrors }
  | quit (hrun : s.run_ended = true) : MainMove s .looping { s with main := .left }
  | readErrors : MainMove s .readingErrors { s with main := .readingSleepers s.thread_errors_cntr }
  | readSleepers {errored_threads : ℤ} : MainMove s (.readingSleepers errored_threads)
      { s with main := .comparing errored_threads s.sleeping_threads_available }
  | compare {errored_threads sleeping_threads : ℤ} :
      MainMove s (.comparing errored_threads sleeping_threads) { s with
        main := .checkingSleeping
          (0 < errored_threads ∧ sleeping_threads = s.living_threads + 1 : Bool) }
  | allSleep {all_threads_finished : Bool} (h : s.sleeping_threads_available = n + 1) :
      MainMove s (.checkingSleeping all_threads_finished) { s with main := .left }
  | someAwake {all_threads_finished : Bool} (h : s.sleeping_threads_available ≠ n + 1) :
      MainMove s (.checkingSleeping all_threads_finished)
        { s with main := .checkingErrors all_threads_finished }
  | allErr {all_threads_finished : Bool} (h : s.thread_errors_cntr = n) :
      MainMove s (.checkingErrors all_threads_finished)
        { s with all_threads_are_error := true, main := .left }
  | allFinished (h : s.thread_errors_cntr ≠ n) :
      MainMove s (.checkingErrors true) { s with main := .left }
  | block (h : s.thread_errors_cntr ≠ n) :
      MainMove s (.checkingErrors false) { s with main := .blocking }
  | wait : MainMove s .blocking { s with main := .waiting }
  | leave : MainMove s .left { s with run_ended := true, main := .reporting }
  | report : MainMove s .reporting
      { s with main := .exited s.counter (if s.all_threads_are_error then 1 else 0) }

/-- Every step of main is a move. -/
theorem main_move (hs : mainStep original_directory s = some t) :
    MainMove original_directory s s.main t := by
  cases hm : s.main <;> rw [mainStep, hm] at hs <;> dsimp only at hs
  case creating dbzy =>
    split at hs <;> cases hs
    case isTrue h => exact .create h
    case isFalse h => exact .created h
  case looping =>
    cases hs
    split
    case isTrue hrun => exact .quit hrun
    case isFalse hrun => exact .look (Bool.eq_false_iff.mpr hrun)
  case checkingSleeping all_threads_finished =>
    cases hs
    split
    case isTrue h => exact .allSleep h
    case isFalse h => exact .someAwake h
  case checkingErrors all_threads_finished =>
    cases hs
    split
    case isTrue h => exact .allErr h
    case isFalse h =>
      cases all_threads_finished with
      | false => exact .block h
      | true => exact .allFinished h
  all_goals cases hs
  all_goals constructor

/-- Main creates workers and wakes them up. -/
theorem main_workers (hs : mainStep original_directory s = some t) (j : Fin n) :
    t.worker j = s.worker j ∨ t.worker j = (s.worker j).unblock ∨
      s.main.preparing = true ∧ t.worker j = .starting := by
  have hbroadcast : ∀ c, (s.broadcast c).worker j = s.worker j ∨
      (s.broadcast c).worker j = (s.worker j).unblock := by
    intro c
    rw [State.broadcast]
    dsimp only
    split
    · exact Or.inr rfl
    · exact Or.inl rfl
  have hmove := main_move hs
  generalize s.main = m at hmove ⊢
  cases hmove with
  | @create dbzy h =>
    by_cases hj : j = ⟨dbzy, h⟩
    · subst hj
      exact Or.inr (Or.inr ⟨rfl, move_self ..⟩)
    · exact Or.inl (move_of_ne _ _ hj)
  | release => exact (hbroadcast .all_threads_initiated).imp_right Or.inl
  | join => exact (hbroadcast .new_sleeping_thread).imp_right Or.inl
  | _ => exact Or.inl rfl

/-- Main only touches the queue when it puts the first directory into it. -/
theorem main_books (hs : mainStep original_directory s = some t) :
    s.main = .enqueuing ∧ t = { enQueue s original_directory with main := .creating 0 } ∨
      s.main ≠ .enqueuing ∧ SameBooks s t ∧ t.counter = s.counter := by
  have hmove := main_move hs
  generalize s.main = m at hmove ⊢
  cases hmove with
  | enqueue => exact Or.inl ⟨rfl, rfl⟩
  | _ => exact Or.inr ⟨nofun, ⟨rfl, rfl, rfl, rfl, rfl⟩, rfl⟩

/-- Main enqueues the first directory once. -/
theorem main_ne_enqueuing (hs : mainStep original_directory s = some t) : t.main ≠ .enqueuing := by
  have hmove := main_move hs
  generalize s.main = m at hmove
  cases hmove <;> nofun

/-- In its loop and behind it, main touches neither workers nor counters. -/
theorem main_frame (hm : s.main.preparing = false)
    (hs : mainStep original_directory s = some t) :
    t.worker = s.worker ∧ t.sleeping_threads_available = s.sleeping_threads_available ∧
      t.thread_errors_cntr = s.thread_errors_cntr ∧ t.living_threads = s.living_threads := by
  have hmove := main_move hs
  generalize s.main = m at hmove hm
  cases hmove with
  | enqueue | create | created | number | release | join => cases hm
  | _ => exact ⟨rfl, rfl, rfl, rfl⟩

/-! ## A step -/

variable (fs original_directory searched_str) in
/-- The thread that takes a step, or is woken up in it. -/
inductive Stepped (s t : State n) : Event n → Prop
  | main (hs : mainStep original_directory s = some t) : Stepped s t .main
  | worker (i : Fin n) (stack : BitVec 32) (hs : workerStep fs searched_str s i stack = some t) :
      Stepped s t (.worker i stack)
  | signal (i : Fin n) (waiter : Option (Thread n)) (hs : signalStep s i waiter = some t) :
      Stepped s t (.signal i waiter)
  | spurious (thread : Thread n) (hs : spuriousStep s thread = some t) :
      Stepped s t (.spurious thread)

theorem step_cases {e : Event n} (hs : step fs original_directory searched_str s e = some t) :
    Stepped fs original_directory searched_str s t e := by
  obtain ⟨_, hs⟩ := Option.ite_none_left_eq_some.mp hs
  cases e with
  | main => exact .main hs
  | worker i stack => exact .worker i stack hs
  | signal i waiter => exact .signal i waiter hs
  | spurious thread => exact .spurious thread hs

/-- A step of another thread: main at most wakes up, and what only main writes is as before. -/
structure Elsewhere (s t : State n) : Prop where
  main : t.main = s.main ∨ t.main = s.main.unblock
  can_start : t.can_start = s.can_start
  flag : t.all_threads_are_error = s.all_threads_are_error

theorem Elsewhere.unblock (s : State n) (thread : Thread n) : Elsewhere s (s.unblock thread) := by
  cases thread with
  | main => exact ⟨Or.inr rfl, rfl, rfl⟩
  | worker j => exact ⟨Or.inl rfl, rfl, rfl⟩

theorem WorkerMove.elsewhere {stack : BitVec 32} (h : WorkerMove fs searched_str s i stack v t) :
    Elsewhere s t := by
  cases h with
  | doze => exact ⟨Or.inr rfl, rfl, rfl⟩
  | @finish scan => cases scan.res <;> exact ⟨Or.inl rfl, rfl, rfl⟩
  | _ => exact ⟨Or.inl rfl, rfl, rfl⟩

theorem signal_elsewhere {waiter : Option (Thread n)} (hs : signalStep s i waiter = some t) :
    Elsewhere s t := by
  cases waiter with
  | none =>
    rw [signalStep, Option.ite_none_right_eq_some] at hs
    rw [← Option.some.inj hs.2]
    exact ⟨Or.inl rfl, rfl, rfl⟩
  | some thread =>
    rw [signalStep, Option.ite_none_right_eq_some] at hs
    rw [← Option.some.inj hs.2]
    have h := Elsewhere.unblock s thread
    exact ⟨h.main, h.can_start, h.flag⟩

theorem step_main_cases {e : Event n} (hs : step fs original_directory searched_str s e = some t) :
    mainStep original_directory s = some t ∨ Elsewhere s t := by
  replace hs := step_cases hs
  cases hs with
  | main hs => exact Or.inl hs
  | worker i stack hs => exact Or.inr (worker_move hs).elsewhere
  | signal i waiter hs => exact Or.inr (signal_elsewhere hs)
  | spurious thread hs =>
    rw [spuriousStep, Option.ite_none_right_eq_some] at hs
    rw [← Option.some.inj hs.2]
    exact Or.inr (Elsewhere.unblock s thread)

end OsCourse.Pfind
