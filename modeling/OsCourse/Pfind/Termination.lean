import OsCourse.Pfind.Buffers
import OsCourse.Pfind.Hang
import OsCourse.Pfind.Search
import OsCourse.Pfind.Status

/-! # A search comes to an end

Each level of a tree makes the paths longer, and a path of `PATH_MAX` bytes is not opened, so no
search has an infinite tree. What is in the queue and what the threads have before them is a
potential. A step spends some of it, also when it wakes other threads, and only a spurious
wake-up adds to it.
-/

namespace OsCourse.Pfind
open Foundations

variable (fs : FileSystem) (original_directory : Path) (searched_str : Name) (n : ℕ)

/-- An entry: its examination, and the announcement that may wake every worker. -/
def share : ℕ := n * (n + 13) + 4

/-- What a path in the queue can lead to. -/
def work (p : Path) : ℕ :=
  ((nodes (entriesOf fs) (PATH_MAX + 1) p).map fun q => (entriesOf fs q).length * share n + 5).sum

/-- What the names that are still to be read of a directory can lead to. -/
def workOf (directory : Path) (names : List Name) : ℕ :=
  (names.map fun d_name => work fs n (join directory d_name) + share n).sum

/-- What a worker has before it. -/
def Worker.effort : Worker → ℕ
  | .unborn | .exited | .returned | .asleep => 0
  | .drowsy => 1
  | .signalling => 8
  | .erring => 9
  | .hungry => n + 9
  | .gateWait | .dequeuing => n + 10
  | .gate => n + 11
  | .loopHead | .awaitingStart => n + 12
  | .starting | .woken => n + 13
  | .opening directory => workOf fs n directory ((fs.opendir directory).getD []) + (n + 14)
  | .scanning scan => workOf fs n scan.directory scan.entries + (n + 13)
  | .yielding scan _ | .counting scan => workOf fs n scan.directory scan.entries + (n + 14)
  | .announcing scan _ => workOf fs n scan.directory scan.entries + n * (n + 13) + (n + 15)
  | .enqueuing scan new_directory _ =>
    work fs n new_directory + workOf fs n scan.directory scan.entries + n * (n + 13) + (n + 16)

/-- What main has before it. -/
def MainThread.effort : MainThread → ℕ
  | .enqueuing => work fs n original_directory + n * (n + 15) + (2 * n + 14)
  | .creating dbzy => (n - dbzy) * (n + 15) + (2 * n + 13)
  | .numbering dbzy => (n - (dbzy + 1)) * (n + 15) + (2 * n + 14)
  | .releasing => 2 * n + 12
  | .joining => n + 11
  | .looping => 10
  | .readingErrors => 9
  | .readingSleepers _ => 8
  | .comparing .. => 7
  | .checkingSleeping _ => 6
  | .checkingErrors _ => 5
  | .blocking => 4
  | .waiting => 3
  | .left => 2
  | .reporting => 1
  | .exited .. => 0

variable {n}

/-- What is left to be done before the search stops of itself. -/
def State.effort (s : State n) : ℕ :=
  (s.directories_queue.map (work fs n)).sum + ∑ i, (s.worker i).effort fs n +
    s.main.effort fs original_directory n

variable (n) in
/-- The steps that a search has, as long as nobody wakes up spuriously. -/
def workload : ℕ := work fs n original_directory + n * (n + 15) + (2 * n + 14)

/-- The steps that a wake-up out of turn can cause. -/
def Event.respite (e : Event n) : ℕ := if e.isSpurious then n + 14 else 0

/-- No thread can take a step. -/
def Halted (s : State n) : Prop :=
  ∀ e : Event n, e.isSpurious = false → step fs original_directory searched_str s e = none

/-- A worker where the source has no defined behaviour: before a path that is too long for `result`,
or before a counter that cannot be incremented. -/
def Worker.Overflowing (counter : ℤ) : Worker → Prop
  | .scanning scan => ∃ d_name rest, scan.entries = d_name :: rest ∧ ¬ Fits scan.directory d_name
  | .counting _ => counter = INT_MAX
  | _ => False

/-- A worker that cannot go on, while the search goes on. -/
def Worker.Stopped (counter : ℤ) (w : Worker) : Prop :=
  w = .asleep ∨ w = .exited ∨ w.Overflowing counter

/-- The workers that main has created. -/
def MainThread.created (n : ℕ) : MainThread → ℕ
  | .enqueuing => 0
  | .creating dbzy => dbzy
  | .numbering dbzy => dbzy + 1
  | _ => n

/-- The workers that main has created are born, and those that it has released do not wait. -/
structure Launched (s : State n) : Prop where
  born : ∀ i : Fin n, s.worker i = .unborn → s.main.created n ≤ i
  started : s.can_start = true → ∀ i, s.worker i ≠ .awaitingStart

variable {fs original_directory searched_str} {s t : State n} {i : Fin n} {v w : Worker}
  {e : Event n} {p : Path}

/-! ## What a path can lead to -/

variable (fs n) in
theorem workOf_cons (directory : Path) (d_name : Name) (names : List Name) :
    workOf fs n directory (d_name :: names) =
      work fs n (join directory d_name) + share n + workOf fs n directory names := by
  rw [workOf, List.map_cons, List.sum_cons]
  rfl

variable (fs n) in
/-- A path is worth what its entries are worth. -/
theorem work_eq (p : Path) :
    work fs n p = workOf fs n p ((fs.opendir p).getD []) + 5 := by
  have hnodes := sum_nodes (fun q => (entriesOf fs q).length * share n + 5)
    (bounded_entriesOf fs (Nat.le_add_left PATH_MAX p.length))
  have hentries : ∀ names : List Name, workOf fs n p names =
      ((names.map (join p)).map (work fs n)).sum + names.length * share n := by
    intro names
    induction names with
    | nil => simp [workOf]
    | cons d_name names ih =>
      rw [workOf_cons, ih, List.map_cons, List.map_cons, List.sum_cons, List.length_cons,
        Nat.succ_mul]
      omega
  have hlength : (entriesOf fs p).length = ((fs.opendir p).getD []).length := List.length_map _
  rw [hentries, work, hnodes, hlength, entriesOf]
  change _ + ((((fs.opendir p).getD []).map (join p)).map (work fs n)).sum = _
  omega

/-! ## What wakes a thread up costs -/

theorem Worker.effort_unblock (w : Worker) : w.unblock.effort fs n ≤ w.effort fs n + (n + 13) := by
  cases w <;> simp only [unblock, effort] <;> omega

variable (fs n) in
/-- Only `queue_not_empty` wakes workers that have to start from the head of their loop. -/
theorem Worker.effort_unblock_of_ne (h : w ≠ .asleep) :
    w.unblock.effort fs n ≤ w.effort fs n + 1 := by
  cases w with
  | asleep => exact absurd rfl h
  | _ => simp only [unblock, effort]; omega

variable (fs original_directory n) in
theorem MainThread.effort_unblock (m : MainThread) :
    m.unblock.effort fs original_directory n ≤ m.effort fs original_directory n + 7 := by
  cases m <;> simp only [unblock, effort] <;> omega

variable (fs s) in
theorem broadcast_effort (c : Condition) (hc : c ≠ .queue_not_empty) (j : Fin n) :
    ((s.broadcast c).worker j).effort fs n ≤ (s.worker j).effort fs n + 1 := by
  rw [State.broadcast]
  dsimp only
  split
  case isTrue hb =>
    refine Worker.effort_unblock_of_ne fs n fun ha => hc ?_
    rw [ha] at hb
    exact (Option.some.inj hb).symm
  case isFalse => omega

/-! ## Steps of a worker -/

/-- What worker `i` spends is more than what it leaves to others: what it puts into the queue, and
those that it wakes. -/
structure Spends (fs : FileSystem) (original_directory : Path) (s t : State n) (i : Fin n)
    (v w : Worker) (r : ℕ) : Prop where
  self : t.worker i = w
  others : ∀ j ≠ i, (t.worker j).effort fs n ≤ (s.worker j).effort fs n + r
  spent : (t.directories_queue.map (work fs n)).sum + w.effort fs n + n * r +
      t.main.effort fs original_directory n <
    (s.directories_queue.map (work fs n)).sum + v.effort fs n +
      s.main.effort fs original_directory n

theorem Spends.effort {r : ℕ} (h : Spends fs original_directory s t i (s.worker i) w r) :
    t.effort fs original_directory < s.effort fs original_directory := by
  have hsum := sum_le_update (Worker.effort fs n) h.self h.others
  have hspent := h.spent
  rw [Fintype.card_fin] at hsum
  rw [State.effort, State.effort]
  omega

/-- A worker that only moves itself. -/
theorem spends_move {u : State n} (hu : u.worker = s.worker) (hm : u.main = s.main)
    (h : (u.directories_queue.map (work fs n)).sum + w.effort fs n <
      (s.directories_queue.map (work fs n)).sum + v.effort fs n) :
    Spends fs original_directory s (u.move i w) i v w 0 := by
  refine ⟨move_self .., fun j hj => ?_, ?_⟩
  · rw [move_of_ne _ _ hj, hu]
    exact Nat.le_add_right ..
  · change (u.directories_queue.map (work fs n)).sum + _ + n * 0 + u.main.effort _ _ n < _
    rw [hm]
    omega

theorem Scan.examine_effort {scan : Scan} {d_name : Name} {rest : List Name} {empty_queue : Bool}
    (he : scan.entries = d_name :: rest)
    (hw : scan.examine fs searched_str d_name rest empty_queue = some w) :
    w.effort fs n < (Worker.scanning scan).effort fs n := by
  have hcons := workOf_cons fs n scan.directory d_name rest
  rw [share] at hcons
  rw [Worker.effort, he]
  unfold Scan.examine at hw
  dsimp only at hw
  split at hw
  · cases hw
  · cases hl : fs.lstat (join scan.directory d_name) <;> rw [hl] at hw <;> dsimp only at hw <;>
      split_ifs at hw <;> cases hw <;> simp only [Worker.effort] <;> omega

theorem scanReturns_spends {d : Path} (res : Bool) (hv : n + 13 ≤ v.effort fs n) :
    ∃ w r, Spends fs original_directory s (s.scanReturns i d res) i v w r := by
  cases res with
  | true =>
    refine ⟨.erring, 0, spends_move (u := { s with failed := s.failed ++ [d] }) rfl rfl ?_⟩
    change (s.directories_queue.map (work fs n)).sum + 9 < _
    omega
  | false =>
    refine ⟨.loopHead, 0, spends_move (u := { s with scanned := s.scanned ++ [d] }) rfl rfl ?_⟩
    change (s.directories_queue.map (work fs n)).sum + (n + 12) < _
    omega

variable (original_directory) in
theorem worker_spends {stack : BitVec 32} (hs : workerStep fs searched_str s i stack = some t) :
    ∃ w r, Spends fs original_directory s t i (s.worker i) w r := by
  have hmove := worker_move hs
  generalize s.worker i = v at hmove ⊢
  cases hmove with
  | start | head | pass =>
    refine ⟨_, 0, spends_move rfl rfl ?_⟩
    split <;> simp only [Worker.effort] <;> omega
  | starve =>
    refine ⟨.hungry, 0, spends_move (u := { s with empty_queue := true }) rfl rfl ?_⟩
    simp only [Worker.effort]
    omega
  | @take d rest hq =>
    refine ⟨.opening d, 0, spends_move (u := { s with
      directories_queue := rest, dequeued := s.dequeued ++ [d] }) rfl rfl ?_⟩
    have hwork := work_eq fs n d
    rw [hq, List.map_cons, List.sum_cons]
    simp only [Worker.effort]
    omega
  | fail => exact scanReturns_spends true (by simp only [Worker.effort]; omega)
  | enter hopen =>
    refine ⟨_, 0, spends_move rfl rfl ?_⟩
    simp only [Worker.effort, hopen, Option.getD_some]
    omega
  | examine _ he hw =>
    exact ⟨_, 0, spends_move rfl rfl (Nat.add_lt_add_left (Scan.examine_effort he hw) _)⟩
  | finish => exact scanReturns_spends _ (by simp only [Worker.effort]; omega)
  | @enqueue scan d b =>
    refine ⟨.announcing scan b, 0, spends_move (u := enQueue s d) rfl rfl ?_⟩
    rw [enQueue, List.map_append, List.sum_append, List.map_singleton, List.sum_singleton]
    simp only [Worker.effort]
    omega
  | @announce scan b =>
    refine ⟨.yielding scan b, n + 13, move_self .., fun j hj => ?_, ?_⟩
    · rw [move_of_ne _ _ hj, State.broadcast]
      dsimp only
      split
      · exact Worker.effort_unblock _
      · exact Nat.le_add_right ..
    · change (s.directories_queue.map (work fs n)).sum + _ + _ + s.main.effort _ _ n < _
      simp only [Worker.effort]
      omega
  | yield | count =>
    refine ⟨_, 0, spends_move rfl rfl ?_⟩
    simp only [Worker.effort]
    omega
  | err =>
    refine ⟨.signalling, 0, spends_move rfl rfl ?_⟩
    simp only [Worker.effort]
    omega
  | doze =>
    refine ⟨.drowsy, 1, move_self .., fun j hj => ?_, ?_⟩
    · rw [move_of_ne _ _ hj]
      exact broadcast_effort fs { s with
        sleeping_threads_available := s.sleeping_threads_available + 1 } _ (by simp) j
    · have hmain := MainThread.effort_unblock fs original_directory n s.main
      change (s.directories_queue.map (work fs n)).sum + _ + _ + s.main.unblock.effort _ _ n < _
      simp only [Worker.effort]
      omega
  | sleep | rise =>
    refine ⟨_, 0, spends_move rfl rfl ?_⟩
    simp only [Worker.effort]
    omega

/-! ## The other steps -/

variable (fs original_directory) in
theorem move_effort (s : State n) (i : Fin n) (w : Worker) :
    (s.move i w).effort fs original_directory + (s.worker i).effort fs n =
      s.effort fs original_directory + w.effort fs n := by
  have hsum := sum_update (Worker.effort fs n) s.worker i w
  change (s.directories_queue.map (work fs n)).sum +
    ∑ j, (Function.update s.worker i w j).effort fs n + s.main.effort fs original_directory n + _ = _
  rw [State.effort]
  omega

theorem unblock_effort {thread : Thread n} {r : ℕ} (hr : 7 ≤ r)
    (hw : ∀ k, thread = .worker k →
      (s.worker k).unblock.effort fs n ≤ (s.worker k).effort fs n + r) :
    (s.unblock thread).effort fs original_directory ≤ s.effort fs original_directory + r := by
  cases thread with
  | main =>
    have hmain := MainThread.effort_unblock fs original_directory n s.main
    change (s.directories_queue.map (work fs n)).sum + ∑ j, (s.worker j).effort fs n +
      s.main.unblock.effort fs original_directory n ≤ _
    rw [State.effort]
    omega
  | worker k =>
    have hmove := move_effort fs original_directory s k
      (s.worker k).unblock
    have hk := hw k rfl
    change (s.move k (s.worker k).unblock).effort fs original_directory ≤ _
    omega

theorem signal_effort {waiter : Option (Thread n)} (hs : signalStep s i waiter = some t) :
    t.effort fs original_directory < s.effort fs original_directory := by
  cases waiter with
  | none =>
    rw [signalStep, Option.ite_none_right_eq_some] at hs
    obtain ⟨⟨hv, _⟩, hs⟩ := hs
    cases hs
    have hmove := move_effort fs original_directory s i .exited
    rw [hv] at hmove
    simp only [Worker.effort] at hmove
    omega
  | some thread =>
    rw [signalStep, Option.ite_none_right_eq_some] at hs
    obtain ⟨⟨hv, hb⟩, hs⟩ := hs
    cases hs
    -- the thread that is woken does not wait for the queue
    have hwoken : (s.unblock thread).effort fs original_directory ≤
        s.effort fs original_directory + 7 := by
      refine unblock_effort le_rfl fun k hk => ?_
      subst hk
      have hblocked : (s.worker k).blockedOn = some .new_sleeping_thread := hb
      have hne : s.worker k ≠ .asleep := fun ha => by
        rw [ha] at hblocked
        cases hblocked
      have hone := Worker.effort_unblock_of_ne fs n hne
      omega
    have hself : (s.unblock thread).worker i = .signalling := by
      rcases (unblock_wakes s thread).worker i with h | h <;> rw [h, hv]
      rfl
    have hmove := move_effort fs original_directory
      (s.unblock thread) i .exited
    rw [hself] at hmove
    simp only [Worker.effort] at hmove
    omega

theorem spurious_effort {thread : Thread n} (hs : spuriousStep s thread = some t) :
    t.effort fs original_directory ≤ s.effort fs original_directory + (n + 13) := by
  rw [spuriousStep, Option.ite_none_right_eq_some] at hs
  rw [← Option.some.inj hs.2]
  exact unblock_effort (by omega) fun k _ => Worker.effort_unblock _

/-- Main spends more than what it adds to the workers. -/
theorem effort_lt_of_main {r : ℕ} (hq : t.directories_queue = s.directories_queue)
    (hw : ∑ j, (t.worker j).effort fs n ≤ ∑ j, (s.worker j).effort fs n + r)
    (hm : t.main.effort fs original_directory n + r < s.main.effort fs original_directory n) :
    t.effort fs original_directory < s.effort fs original_directory := by
  rw [State.effort, State.effort, hq]
  omega

theorem broadcast_sum (c : Condition) (hc : c ≠ .queue_not_empty) :
    ∑ j, ((s.broadcast c).worker j).effort fs n ≤ ∑ j, (s.worker j).effort fs n + n := by
  have hsum := Finset.sum_le_sum fun j (_ : j ∈ Finset.univ) =>
    broadcast_effort fs s c hc j
  rwa [Finset.sum_add_distrib, Finset.sum_const, Finset.card_univ, Fintype.card_fin, smul_eq_mul,
    Nat.mul_one] at hsum

theorem main_effort (hs : mainStep original_directory s = some t) :
    t.effort fs original_directory < s.effort fs original_directory := by
  have hmove := main_move hs
  generalize hm : s.main = m at hmove
  cases hmove with
  | enqueue =>
    rw [State.effort, State.effort, hm]
    change ((s.directories_queue ++ [original_directory]).map (work fs n)).sum +
      ∑ j, (s.worker j).effort fs n + ((n - 0) * (n + 15) + (2 * n + 13)) < _
    rw [List.map_append, List.sum_append, List.map_singleton, List.sum_singleton, Nat.sub_zero]
    simp only [MainThread.effort]
    omega
  | @create dbzy h =>
    have hsum := sum_update (Worker.effort fs n) s.worker ⟨dbzy, h⟩ .starting
    refine effort_lt_of_main (r := n + 13) rfl ?_ ?_
    · change ∑ j, (Function.update s.worker ⟨dbzy, h⟩ .starting j).effort fs n ≤ _
      simp only [Worker.effort] at hsum ⊢
      omega
    · obtain ⟨k, hk⟩ : ∃ k, n - dbzy = k + 1 := ⟨n - (dbzy + 1), by omega⟩
      have hk' : n - (dbzy + 1) = k := by omega
      rw [hm]
      simp only [MainThread.effort]
      rw [hk, hk', Nat.add_one_mul k]
      omega
  | release =>
    refine effort_lt_of_main (r := n) rfl
      (broadcast_sum (s := { s with can_start := true }) _ (by simp)) ?_
    rw [hm]
    simp only [MainThread.effort]
    omega
  | join =>
    refine effort_lt_of_main (r := n) rfl (broadcast_sum (s := { s with
      sleeping_threads_available := s.sleeping_threads_available + 1 }) _ (by simp)) ?_
    rw [hm]
    simp only [MainThread.effort]
    omega
  | _ =>
    refine effort_lt_of_main (r := 0) rfl le_rfl ?_
    rw [hm]
    simp only [MainThread.effort]
    omega

/-- A step spends some of the effort, or is a wake-up out of turn. -/
theorem step_effort (hs : step fs original_directory searched_str s e = some t) :
    t.effort fs original_directory < s.effort fs original_directory + e.respite := by
  replace hs := step_cases hs
  cases hs with
  | main hs => exact main_effort hs
  | worker i stack hs =>
    obtain ⟨w, r, hspends⟩ := worker_spends original_directory hs
    exact hspends.effort
  | signal i waiter hs => exact signal_effort hs
  | spurious thread hs => exact Nat.lt_succ_of_le (spurious_effort hs)

/-! ## Every worker gets started -/

theorem Worker.unblock_ne_awaitingStart (w : Worker) : w.unblock ≠ .awaitingStart := by
  cases w <;> simp [unblock]

theorem Worker.unblock_eq_unborn {w : Worker} : w.unblock = .unborn ↔ w = .unborn := by
  cases w <;> simp [unblock]

@[simp] theorem MainThread.created_unblock (m : MainThread) : m.unblock.created n = m.created n := by
  cases m <;> rfl

/-- A worker that takes a step is born, and waits for its start only if it must. -/
theorem worker_launched {stack : BitVec 32} (hs : workerStep fs searched_str s i stack = some t) :
    ∃ w, Goes s t i w ∧ w ≠ .unborn ∧ (w = .awaitingStart → s.can_start = false) := by
  have hscan : ∀ d res, ∃ w, Goes s (s.scanReturns i d res) i w ∧ w ≠ .unborn ∧
      (w = .awaitingStart → s.can_start = false) := by
    intro d res
    cases res with
    | true => exact ⟨.erring, .of_update rfl, by simp⟩
    | false => exact ⟨.loopHead, .of_update rfl, by simp⟩
  have hmove := worker_move hs
  generalize s.worker i = v at hmove
  cases hmove with
  | start =>
    refine ⟨_, .of_update rfl, ?_⟩
    split
    · simp
    case isFalse h => simpa using h
  | head | pass =>
    refine ⟨_, .of_update rfl, ?_⟩
    split <;> simp
  | fail | finish => exact hscan _ _
  | examine _ _ hw =>
    obtain ⟨_, hearly, _, _⟩ := Scan.examine_busy hw
    refine ⟨_, .of_update rfl, ?_, ?_⟩ <;> rintro rfl <;> cases hearly
  | announce | doze => exact ⟨_, .broadcast (by rfl) _ i _, by simp⟩
  | _ => exact ⟨_, .of_update rfl, by simp⟩

theorem Launched.goes (h : Launched s) (hg : Goes s t i w) (he : Elsewhere s t)
    (hw : w ≠ .unborn ∧ (w = .awaitingStart → s.can_start = false)) : Launched t where
  born j hj := by
    have hmain : t.main.created n = s.main.created n := by
      rcases he.main with hm | hm <;> rw [hm]
      exact MainThread.created_unblock _
    rw [hmain]
    by_cases hji : j = i
    · rw [hji, hg.self] at hj
      exact absurd hj hw.1
    · rcases hg.others j hji with ho | ho <;> rw [ho] at hj
      · exact h.born j hj
      · exact h.born j (Worker.unblock_eq_unborn.mp hj)
  started hc j hj := by
    rw [he.can_start] at hc
    by_cases hji : j = i
    · rw [hji, hg.self] at hj
      rw [hw.2 hj] at hc
      cases hc
    · rcases hg.others j hji with ho | ho <;> rw [ho] at hj
      · exact h.started hc j hj
      · exact Worker.unblock_ne_awaitingStart _ hj

theorem Launched.wakes (h : Launched s) (hw : Wakes s t) (he : Elsewhere s t) : Launched t where
  born j hj := by
    have hmain : t.main.created n = s.main.created n := by
      rcases he.main with hm | hm <;> rw [hm]
      exact MainThread.created_unblock _
    rw [hmain]
    rcases hw.worker j with ho | ho <;> rw [ho] at hj
    · exact h.born j hj
    · exact h.born j (Worker.unblock_eq_unborn.mp hj)
  started hc j hj := by
    rw [he.can_start] at hc
    rcases hw.worker j with ho | ho <;> rw [ho] at hj
    · exact h.started hc j hj
    · exact Worker.unblock_ne_awaitingStart _ hj

theorem Launched.main (h : Launched s) (hs : mainStep original_directory s = some t) :
    Launched t := by
  have hmove := main_move hs
  have hborn := h.born
  generalize s.main = m at hmove hborn
  cases hmove with
  | enqueue => exact ⟨fun j _ => Nat.zero_le _, h.started⟩
  | @create dbzy hlt =>
    have hcreated : ∀ j : Fin n, (s.move ⟨dbzy, hlt⟩ .starting).worker j = .unborn →
        s.worker j = .unborn ∧ j ≠ ⟨dbzy, hlt⟩ := by
      intro j hj
      by_cases hji : j = ⟨dbzy, hlt⟩
      · rw [hji, move_self] at hj
        cases hj
      · exact ⟨by rwa [move_of_ne _ _ hji] at hj, hji⟩
    refine ⟨fun j hj => ?_, fun hc j hj => ?_⟩
    · obtain ⟨hj, hne⟩ := hcreated j hj
      have hle : dbzy ≤ j := hborn j hj
      have hne : (j : ℕ) ≠ dbzy := fun he => hne (Fin.ext he)
      change dbzy + 1 ≤ (j : ℕ)
      omega
    · by_cases hji : j = ⟨dbzy, hlt⟩
      · rw [hji] at hj
        cases (move_self s ⟨dbzy, hlt⟩ .starting).symm.trans hj
      · exact h.started hc j ((move_of_ne s .starting hji).symm.trans hj)
  | created hlt =>
    refine ⟨fun j hj => ?_, h.started⟩
    have hle := hborn j hj
    have hj := j.isLt
    change _ ≤ (j : ℕ) at hle
    simp only [MainThread.created] at hle
    omega
  | release =>
    refine ⟨fun j hj => ?_, fun _ j hj => ?_⟩
    · rw [State.broadcast] at hj
      dsimp only at hj
      split at hj
      · exact hborn j (Worker.unblock_eq_unborn.mp hj)
      · exact hborn j hj
    · rw [State.broadcast] at hj
      dsimp only at hj
      split at hj
      · exact Worker.unblock_ne_awaitingStart _ hj
      case isFalse hb => exact hb (by rw [hj]; rfl)
  | join =>
    refine ⟨fun j hj => ?_, fun hc j hj => ?_⟩ <;> rw [State.broadcast] at hj <;>
      dsimp only at hj <;> split at hj
    · exact hborn j (Worker.unblock_eq_unborn.mp hj)
    · exact hborn j hj
    · exact Worker.unblock_ne_awaitingStart _ hj
    · exact h.started hc j hj
  | _ => exact ⟨hborn, h.started⟩

theorem spurious_elsewhere {thread : Thread n} (hs : spuriousStep s thread = some t) :
    Elsewhere s t := by
  rw [spuriousStep, Option.ite_none_right_eq_some] at hs
  rw [← Option.some.inj hs.2]
  exact .unblock s thread

theorem launched_of_reachable (h : (pfind fs original_directory searched_str n).Reachable s) :
    Launched s := by
  refine h.invariant (I := Launched) (fun s hs => ?_) fun s e t hi hs => ?_
  · rw [show s = State.initial n from hs]
    refine ⟨fun _ _ => Nat.zero_le _, fun hc => by cases hc⟩
  · replace hs := step_cases hs
    cases hs with
    | main hs => exact hi.main hs
    | worker j stack hs =>
      obtain ⟨w, hg, hw⟩ := worker_launched hs
      exact hi.goes hg (worker_move hs).elsewhere hw
    | signal j waiter hs =>
      exact hi.goes (signal_turn hs).goes (signal_elsewhere hs) (by simp)
    | spurious thread hs => exact hi.wakes (spurious_wakes hs) (spurious_elsewhere hs)

/-! ## Where a search halts -/

theorem mainStep_eq_none (hs : mainStep original_directory s = none) :
    s.main = .waiting ∨ s.main.hasExited = true := by
  cases hm : s.main <;> rw [mainStep, hm] at hs <;> dsimp only at hs
  case waiting => exact Or.inl rfl
  case exited => exact Or.inr rfl
  case creating => split at hs <;> cases hs
  all_goals cases hs

/-- Not yet where it takes steps of its own, or not any more. -/
def Worker.apart : Worker → Bool
  | .unborn | .awaitingStart | .gateWait | .signalling | .returned => true
  | _ => false

theorem workerStep_eq_none {stack : BitVec 32} (hrun : s.run_ended = false) :
    workerStep fs searched_str s i stack = none ↔
      (s.worker i).apart = true ∨ (s.worker i).Stopped s.counter := by
  unfold Worker.Stopped
  cases hv : s.worker i <;> rw [workerStep, hv] <;> dsimp only [Worker.apart, Worker.Overflowing]
  case dequeuing =>
    rcases deQueue_spec s with ⟨hd, _⟩ | ⟨_, _, _, hd⟩ <;> rw [hd] <;> simp
  case opening d => cases hopen : fs.opendir d <;> simp
  case scanning scan =>
    rw [hrun]
    cases he : scan.entries with
    | nil => simp
    | cons d_name rest =>
      have hfits : (scan.examine fs searched_str d_name rest s.empty_queue).isSome ↔
          Fits scan.directory d_name := Scan.examine_isSome
      rw [← not_iff_not, Option.isSome_iff_ne_none, not_not] at hfits
      simp [hfits]
  case counting scan => simp
  all_goals simp

theorem signal_isSome (hv : s.worker i = .signalling) :
    ∃ waiter, (signalStep s i waiter).isSome := by
  by_cases hw : s.NoWaiter
  · exact ⟨none, by simp [signalStep, hv, hw]⟩
  · rcases not_and_or.mp hw with hm | hall
    · exact ⟨some .main, by simp [signalStep, hv, not_not.mp hm]⟩
    · push Not at hall
      obtain ⟨j, hj⟩ := hall
      exact ⟨some (.worker j), by simp [signalStep, hv, hj]⟩

/-- A search halts when main has exited, or when main waits and no worker can go on. -/
theorem halted_iff (h : (pfind fs original_directory searched_str n).Reachable s) :
    Halted fs original_directory searched_str s ↔ s.main.hasExited = true ∨
      s.main = .waiting ∧ ∀ i, (s.worker i).Stopped s.counter := by
  have hsound := sound_of_reachable h
  constructor
  · intro hhalt
    by_cases hexit : s.main.hasExited = true
    · exact Or.inl hexit
    have hnone : ∀ e : Event n, e.isSpurious = false →
        step fs original_directory searched_str s e = none := hhalt
    simp only [step, if_neg hexit] at hnone
    have hm : s.main = .waiting := (mainStep_eq_none (hnone .main rfl)).resolve_right hexit
    have hp : s.main.preparing = false := by rw [hm]; rfl
    have hrun : s.run_ended = false := by
      rw [hsound.run_ended, hm]
      rfl
    refine Or.inr ⟨hm, fun j => ?_⟩
    refine ((workerStep_eq_none hrun).mp (hnone (.worker j 0#32) rfl)).resolve_left fun hapart => ?_
    generalize hv : s.worker j = v at hapart
    cases v with
    | unborn =>
      have hborn := (launched_of_reachable h).born j hv
      rw [hm] at hborn
      exact absurd j.isLt (Nat.not_lt.mpr hborn)
    | awaitingStart =>
      have hstart := can_start_of_reachable h
      rw [hm] at hstart
      exact (launched_of_reachable h).started hstart j hv
    | gateWait =>
      have hp : s.main.preparing = false := by rw [hm]; rfl
      exact hsound.gate hp j hv
    | signalling =>
      obtain ⟨waiter, hsome⟩ := signal_isSome hv
      have hsignal : signalStep s j waiter = none := hnone (.signal j waiter) rfl
      rw [hsignal] at hsome
      cases hsome
    | returned =>
      rw [hsound.returned j hv] at hrun
      cases hrun
    | _ => cases hapart
  · rintro (hexit | ⟨hm, hall⟩) e he
    · simp only [step, if_pos hexit]
    · have hrun : s.run_ended = false := by
        rw [hsound.run_ended, hm]
        rfl
      have hexit : ¬ s.main.hasExited = true := by simp [hm, MainThread.hasExited]
      simp only [step, if_neg hexit]
      cases e with
      | main => simp [mainStep, hm]
      | worker j stack => exact (workerStep_eq_none hrun).mpr (Or.inr (hall j))
      | signal j waiter =>
        have hv : s.worker j ≠ .signalling := by
          rintro hv
          have hstopped := hall j
          rw [hv] at hstopped
          rcases hstopped with h | h | h <;> cases h
        cases waiter <;> simp [signalStep, hv]
      | spurious => cases he

/-! ## Runs -/

theorem sum_respite (es : List (Event n)) :
    (es.map Event.respite).sum = (n + 14) * es.countP Event.isSpurious := by
  induction es with
  | nil => rfl
  | cons e es ih =>
    rw [List.map_cons, List.sum_cons, ih, List.countP_cons, Event.respite]
    split <;> simp [Nat.mul_add, Nat.add_comm]

theorem effort_initial (fs : FileSystem) (original_directory : Path) (n : ℕ) :
    (State.initial n).effort fs original_directory = workload fs original_directory n := by
  have hworkers : ∑ i, ((State.initial n).worker i).effort fs n = 0 :=
    Finset.sum_eq_zero fun _ _ => rfl
  rw [State.effort, hworkers, workload]
  change 0 + 0 + MainThread.effort fs original_directory n .enqueuing = _
  rw [MainThread.effort, Nat.zero_add]

theorem run_length_le {es : List (Event n)}
    (h : (pfind fs original_directory searched_str n).Run es s) :
    es.length ≤ workload fs original_directory n + (n + 14) * es.countP Event.isSpurious := by
  have hle := h.length_le (State.effort fs original_directory) Event.respite
    (b := workload fs original_directory n)
    (fun s hs => by rw [show s = State.initial n from hs, effort_initial])
    fun s e t hs => step_effort hs
  rw [sum_respite] at hle
  omega

theorem exists_halted (s : State n) : ∃ t, Leads fs original_directory searched_str s t ∧
    Halted fs original_directory searched_str t :=
  Machine.exists_leads_stuck (State.effort fs original_directory)
    (fun s e t he hs => by
      have hstep := step_effort hs
      rwa [Event.respite, if_neg (by simp [he])] at hstep) s

/-- On every file system, and in whatever order the threads take their steps, a run has no more
steps than the tree and the spurious wake-ups pay for. Without such wake-ups every search goes on
to a point where no thread can take a step: there main has exited, or main waits and every
worker sleeps, has exited, or is where the source has no defined behaviour. -/
theorem every_search_halts (fs : FileSystem) (original_directory : Path) (searched_str : Name)
    (n : ℕ) :
    (∀ es s, (pfind fs original_directory searched_str n).Run es s →
      es.length ≤ workload fs original_directory n + (n + 14) * es.countP Event.isSpurious) ∧
    ∀ s, (pfind fs original_directory searched_str n).Reachable s →
      (∃ t, Leads fs original_directory searched_str s t ∧
        Halted fs original_directory searched_str t) ∧
      (Halted fs original_directory searched_str s ↔ s.main.hasExited = true ∨
        s.main = .waiting ∧ ∀ i, (s.worker i).Stopped s.counter) :=
  ⟨fun _ _ => run_length_le, fun s h => ⟨exists_halted s, halted_iff h⟩⟩

/-- The announcement that main misses: the search halts there. -/
theorem every_search_halts_sample : ∃ es s, (pfind emptyFolder [100] [] 1).Run es s ∧
    es.length ≤ 95 ∧ s.main = .waiting ∧ s.worker 0 = .asleep ∧ Halted emptyFolder [100] [] s := by
  have hrun : (Machine.perform (step emptyFolder [100] []) (.initial 1)
      (missedAnnouncement ++ workerSteps 2 ++ mainSteps 1)).map
        (fun s => (s.main, s.worker 0)) = some (.waiting, .asleep) := by decide +kernel
  obtain ⟨s, hs, hp⟩ := Option.map_eq_some_iff.mp hrun
  obtain ⟨hmain, hworker⟩ := Prod.mk.inj hp
  have hrun : (pfind emptyFolder [100] [] 1).Run _ s := Machine.run_ofFun.mpr hs
  have h := every_search_halts emptyFolder [100] [] 1
  have hload : workload emptyFolder [100] 1 + (1 + 14) * List.countP Event.isSpurious
      (missedAnnouncement ++ workerSteps 2 ++ mainSteps 1) ≤ 95 := by decide +kernel
  refine ⟨_, s, hrun, (h.1 _ s hrun).trans hload, hmain, hworker,
    (h.2 s hrun.reachable).2.mpr (Or.inr ⟨hmain, fun i => Or.inl ?_⟩)⟩
  rwa [Subsingleton.elim i 0]

/-! ## A search that succeeds -/

variable {k : ℕ}

variable (fs searched_str k) in
theorem worthOf_nonneg (directory : Path) (names : List Name) :
    0 ≤ (worthOf fs searched_str k directory names).2 := by
  rw [worthOf_eq]
  have hsum : ∀ ps : List Path, 0 ≤ ((ps.map (worthBelow fs searched_str k)).sum).2 := by
    intro ps
    induction ps with
    | nil => exact le_rfl
    | cons q ps ih =>
      rw [List.map_cons, List.sum_cons, worthBelow_eq_directories]
      exact add_nonneg (Int.natCast_nonneg _) ih
  exact add_nonneg (hsum _) (Int.natCast_nonneg _)

theorem worthBelow_nonneg (p : Path) : 0 ≤ (worthBelow fs searched_str k p).2 := by
  rw [worthBelow_eq_directories]
  exact Int.natCast_nonneg _

theorem Worker.held_nonneg (w : Worker) : 0 ≤ (w.held fs searched_str k).2 := by
  cases w with
  | opening | scanning | announcing | yielding => exact worthOf_nonneg ..
  | enqueuing => exact add_nonneg (worthBelow_nonneg _) (worthOf_nonneg ..)
  | counting => exact add_nonneg zero_le_one (worthOf_nonneg ..)
  | _ => exact le_rfl

/-- What the workers hold cannot be more than what has not been found yet. -/
theorem Balanced.counter_le (h : Balanced fs original_directory searched_str k s)
    (hm : s.main ≠ .enqueuing) (i : Fin n) :
    s.counter + ((s.worker i).held fs searched_str k).2 ≤
      matchesBelow fs searched_str k original_directory := by
  have hqueued : 0 ≤ (s.queued fs searched_str k).2 := by
    rw [State.queued]
    induction s.directories_queue with
    | nil => exact le_rfl
    | cons q ps ih =>
      rw [List.map_cons, List.sum_cons]
      exact add_nonneg (worthBelow_nonneg q) ih
  have hheld : ((s.worker i).held fs searched_str k).2 ≤
      (∑ j, (s.worker j).held fs searched_str k).2 := by
    rw [Prod.snd_sum]
    exact Finset.single_le_sum (f := fun j => ((s.worker j).held fs searched_str k).2)
      (fun j _ => Worker.held_nonneg _) (Finset.mem_univ i)
  rw [Balanced, if_neg hm, worthBelow_eq_directories] at h
  have hsnd := congrArg Prod.snd h
  change s.counter + _ + _ = (matchesBelow fs searched_str k original_directory : ℤ) at hsnd
  omega

/-- In a search without errors nobody is where the source has no defined behaviour. -/
theorem Searching.not_overflowing (h : Searching fs original_directory searched_str k s)
    (hfew : matchesBelow fs searched_str k original_directory ≤ INT_MAX) (hm : s.main ≠ .enqueuing)
    (i : Fin n) : ¬ (s.worker i).Overflowing s.counter := by
  intro hover
  have hclean := h.clean.worker i
  have hle := h.balanced.counter_le hm i
  generalize s.worker i = v at hover hclean hle
  cases v with
  | scanning scan =>
    obtain ⟨d_name, rest, he, hlong⟩ := hover
    obtain ⟨_, hentries⟩ := hclean
    rw [he] at hentries
    exact hlong ((fits_iff ..).mpr (hentries d_name List.mem_cons_self).1)
  | counting scan =>
    have hrest := worthOf_nonneg fs searched_str k
      scan.directory scan.entries
    change s.counter = INT_MAX at hover
    change s.counter + (1 + (worthOf fs searched_str k scan.directory scan.entries).2) ≤ _ at hle
    omega
  | _ => exact hover

/-- Main prints the counter. -/
theorem prints_counter {found status : ℤ}
    (h : (pfind fs original_directory searched_str n).Reachable s)
    (hm : s.main = .exited found status) : found = s.counter := by
  refine (h.invariant (I := fun s => ∀ found status, s.main = .exited found status →
    found = s.counter) (fun s hs => ?_) fun s e t hi hs => ?_) _ _ hm
  · rw [show s = State.initial n from hs]
    intro _ _ hm
    cases hm
  · intro found status hm
    have hnot : s.main.hasExited ≠ true := fun he => by
      have hstep : step fs original_directory searched_str s e = some t := hs
      simp only [step, if_pos he] at hstep
      cases hstep
    rcases step_main_cases hs with hs | ht
    · have hmove := main_move hs
      generalize s.main = m at hmove
      cases hmove with
      | report =>
        cases hm
        rfl
      | _ => cases hm
    · have hexited := main_of_unblock ht.main (by simp) hm
      rw [hexited] at hnot
      exact absurd rfl hnot

variable (fs original_directory searched_str) in
/-- On a tree of at most `k` levels on which no call fails, and which has no more matches than
`counter` can hold: a run in which nobody wakes up spuriously and main hears the last announcement
is bounded by the tree, and where it halts main has printed the number of matches and exits
with status 0. -/
theorem undisturbed_search_succeeds (hroot : Searchable fs k original_directory) (hn : 0 < n)
    (hfew : matchesBelow fs searched_str k original_directory ≤ INT_MAX) {es : List (Event n)}
    (h : ((pfind fs original_directory searched_str n).guarded fun s e _ => Heard s e).Run es s) :
    es.length ≤ workload fs original_directory n ∧
      (Halted fs original_directory searched_str s →
        s.main = .exited (matchesBelow fs searched_str k original_directory) 0) := by
  have hreach := h.of_guarded.reachable
  have hsearch := searching_of_reachable hroot hreach
  constructor
  · have hquiet : es.countP Event.isSpurious = 0 := by
      refine h.history_invariant (I := fun es _ => es.countP Event.isSpurious = 0)
        (fun _ _ => rfl) fun es s e t _ hes hs => ?_
      rw [List.countP_append, hes]
      cases e with
      | spurious => exact hs.2.elim
      | _ => rfl
    have hle := run_length_le h.of_guarded
    rwa [hquiet, Nat.mul_zero, Nat.add_zero] at hle
  · intro hhalt
    rcases (halted_iff hreach).mp hhalt with hexit | ⟨hm, hall⟩
    · obtain ⟨found, status, hm⟩ : ∃ found status, s.main = .exited found status := by
        cases hm : s.main <;> rw [hm] at hexit <;> first | exact ⟨_, _, rfl⟩ | cases hexit
      have hflag : s.all_threads_are_error = false := by
        by_contra hflag
        have herr := (truthful_of_reachable hreach).2.flag (by simpa using hflag) ⟨0, hn⟩
        rw [(hsearch.clean.worker ⟨0, hn⟩).not_errored.1] at herr
        cases herr
      have hstatus := (truthful_of_reachable hreach).2.status found status hm
      rw [hflag] at hstatus
      rw [hm, prints_counter hreach hm, hsearch.counter_eq hn (by rw [hm]; rfl), hstatus]
      rfl
    · obtain ⟨hsound, hattentive⟩ := attentive_of_reachable h.reachable
      refine absurd ⟨⟨rfl, hm⟩, fun i => ?_⟩ (not_deadlocked hsound hattentive)
      rcases hall i with hv | hv | hv
      · exact Or.inl (by rw [State.Blocked, hv]; rfl)
      · exact Or.inr (Or.inl hv)
      · exact absurd hv (hsearch.not_overflowing hfew (by simp [hm]) i)

theorem undisturbed_search_succeeds_sample : ∃ s : State 2,
    ((pfind sampleFolder [100] [98] 2).guarded fun s e _ => Heard s e).Reachable s ∧
      s.main = .exited 2 0 := by
  have hrun : (Machine.perform (fun s e => if Heard s e then step sampleFolder [100] [98] s e
      else none) (.initial 2) (mainSteps 8 ++ workerSteps 4 ++ otherSteps 5 ++ workerSteps 21 ++
        mainSteps 7)).map (fun s => s.main.hasExited) = some true := by decide +kernel
  obtain ⟨s, hs, hexit⟩ := Option.map_eq_some_iff.mp hrun
  have hrun : ((pfind sampleFolder [100] [98] 2).guarded fun s e _ => Heard s e).Run _ s :=
    Machine.run_guarded_ofFun.mpr hs
  have hmatches : matchesBelow sampleFolder [98] 2 [100] = 2 := by decide +kernel
  have hfew : (matchesBelow sampleFolder [98] 2 [100] : ℤ) ≤ INT_MAX := by
    rw [hmatches]
    decide
  have hhalt : Halted sampleFolder [100] [98] s := fun e _ => by simp only [step, if_pos hexit]
  have h := (undisturbed_search_succeeds sampleFolder [100] [98] (k := 2) (by decide +kernel)
    (by decide) hfew hrun).2 hhalt
  rw [hmatches] at h
  exact ⟨s, hrun.reachable, h⟩

end OsCourse.Pfind
