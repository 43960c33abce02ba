import OsCourse.Pfind.Turns

/-! # The counters mirror the positions

`sleeping_threads_available`, `thread_errors_cntr` and `living_threads` against the
positions of the threads, in every reachable state. What main concludes from the counters
is therefore true of the workers when it reads them.
-/

namespace OsCourse.Pfind
open Foundations

variable {fs : FileSystem} {original_directory : Path} {searched_str : Name} {n : ℕ}
  {s t : State n} {i : Fin n} {v w : Worker} {e : Event n}

structure Sound (s : State n) : Prop where
  early : s.main.preparing = true → ∀ i, (s.worker i).early = true
  gate : s.main.preparing = false → ∀ i, s.worker i ≠ .gateWait
  sleeping : s.sleeping_threads_available =
    census Worker.counted s.worker + if s.main.preparing then 0 else 1
  errors : s.thread_errors_cntr = census Worker.errored s.worker
  living : s.living_threads + s.thread_errors_cntr = s.main.numbered n
  creating : ∀ dbzy, s.main = .creating dbzy → dbzy ≤ n
  numbering : ∀ dbzy, s.main = .numbering dbzy → dbzy < n
  run_ended : s.run_ended = s.main.hasEnded
  returned : ∀ i, s.worker i = .returned → s.run_ended = true

theorem MainThread.not_preparing {m : MainThread} (h : m.hasEnded = true) :
    m.preparing = false := by
  cases m <;> first | rfl | cases h

theorem Worker.early_not {w : Worker} (h : w.early = true) :
    w.counted = false ∧ w.errored = false := by
  cases w <;> first | exact ⟨rfl, rfl⟩ | cases h

/-- Before main has joined, nobody is counted. -/
theorem Sound.sleeping_eq_zero (h : Sound s) (hm : s.main.preparing = true) :
    s.sleeping_threads_available = 0 := by
  rw [h.sleeping, hm, census_eq_zero_iff.mpr fun i => (Worker.early_not (h.early hm i)).1]
  rfl

theorem Sound.sleeping_pos (h : Sound s) (hm : s.main.preparing = false) :
    0 < s.sleeping_threads_available := by
  have := census_nonneg Worker.counted s.worker
  rw [h.sleeping, hm]
  simp only [Bool.false_eq_true, if_false]
  omega

theorem Sound.not_ended (h : Sound s) (hm : s.main.preparing = true) : s.run_ended = false := by
  rw [h.run_ended]
  cases he : s.main.hasEnded with
  | false => rfl
  | true =>
    rw [MainThread.not_preparing he] at hm
    cases hm

theorem sound_initial : Sound (State.initial n) where
  early _ _ := rfl
  gate h := by cases h
  sleeping := by
    rw [census_eq_zero_iff.mpr fun _ => rfl]
    rfl
  errors := (census_eq_zero_iff.mpr fun _ => rfl).symm
  living := rfl
  creating _ h := by cases h
  numbering _ h := by cases h
  run_ended := rfl
  returned _ h := by cases h

/-! ## Steps -/

/-- Main has moved at most by waking up. -/
theorem main_of_unblock {m m' : MainThread} (h : m' = m ∨ m' = m.unblock) {x : MainThread}
    (hx : x ≠ .looping) (hm : m' = x) : m = x := by
  subst hm
  rcases h with he | he
  · exact he.symm
  · cases m <;> first | exact he.symm | exact absurd he hx

theorem preparing_of_unblock {m m' : MainThread} (h : m' = m ∨ m' = m.unblock) :
    m'.preparing = m.preparing ∧ m'.numbered n = m.numbered n ∧ m'.hasEnded = m.hasEnded := by
  rcases h with rfl | rfl <;> simp

theorem Sound.wakes (h : Sound s) (hw : Wakes s t) : Sound t := by
  obtain ⟨hprep, hnum, hend⟩ := preparing_of_unblock (n := n) hw.main
  exact
    { early := fun hm j => by
        rw [hw.apply Worker.early_unblock]
        exact h.early (hprep ▸ hm) j
      gate := fun hm j => by
        rcases hw.worker j with he | he <;> rw [he]
        · exact h.gate (hprep ▸ hm) j
        · exact (s.worker j).unblock_ne_gateWait
      sleeping := by
        rw [hw.sleeping, hprep, h.sleeping, census_congr (hw.apply Worker.counted_unblock)]
      errors := by rw [hw.errors, h.errors, census_congr (hw.apply Worker.errored_unblock)]
      living := by rw [hw.living, hw.errors, h.living, hnum]
      creating := fun k hk => h.creating k (main_of_unblock hw.main (by simp) hk)
      numbering := fun k hk => h.numbering k (main_of_unblock hw.main (by simp) hk)
      run_ended := by rw [hw.run_ended, h.run_ended, hend]
      returned := fun j hj => by
        rw [hw.run_ended]
        rcases hw.worker j with he | he <;> rw [he] at hj
        · exact h.returned j hj
        · exact h.returned j (Worker.unblock_eq_returned.mp hj) }

/-- One worker goes on, and the counters follow it. -/
theorem Sound.goes (h : Sound s) (hg : Goes s t i w)
    (hmain : t.main = s.main ∨ t.main = s.main.unblock) (hrun : t.run_ended = s.run_ended)
    (hearly : s.main.preparing = true → w.early = true)
    (hgate : s.main.preparing = false → w ≠ .gateWait) (hret : w = .returned → s.run_ended = true)
    (hsleep : t.sleeping_threads_available = s.sleeping_threads_available -
      (if (s.worker i).counted then 1 else 0) + if w.counted then 1 else 0)
    (herr : t.thread_errors_cntr = s.thread_errors_cntr -
      (if (s.worker i).errored then 1 else 0) + if w.errored then 1 else 0)
    (hliv : t.living_threads + t.thread_errors_cntr =
      s.living_threads + s.thread_errors_cntr) : Sound t := by
  obtain ⟨hprep, hnum, hend⟩ := preparing_of_unblock (n := n) hmain
  exact
    { early := fun hm => by
        rw [hprep] at hm
        exact hg.forall (P := fun w => w.early = true) (fun w hw => by rwa [w.early_unblock])
          (h.early hm) (hearly hm)
      gate := fun hm => by
        rw [hprep] at hm
        exact hg.forall (P := fun w => w ≠ .gateWait) (fun w _ => w.unblock_ne_gateWait)
          (h.gate hm) (hgate hm)
      sleeping := by
        rw [hsleep, h.sleeping, hprep, hg.census Worker.counted_unblock]
        omega
      errors := by rw [herr, h.errors, hg.census Worker.errored_unblock]
      living := by rw [hliv, h.living, hnum]
      creating := fun k hk => h.creating k (main_of_unblock hmain (by simp) hk)
      numbering := fun k hk => h.numbering k (main_of_unblock hmain (by simp) hk)
      run_ended := by rw [hrun, h.run_ended, hend]
      returned := by
        rw [hrun]
        exact hg.forall (P := fun w => w = .returned → s.run_ended = true)
          (fun w hw hu => hw (Worker.unblock_eq_returned.mp hu)) h.returned hret }

/-- Early workers are not counted, so a counted one shows that main has joined. -/
theorem Sound.joined (h : Sound s) (hv : (s.worker i).early = false) :
    s.main.preparing = false := by
  cases hm : s.main.preparing with
  | false => rfl
  | true =>
    rw [h.early hm i] at hv
    cases hv

theorem Sound.turn (h : Sound s) (hg : Goes s t i w) (ht : Turn s t (s.worker i) w) : Sound t := by
  generalize hv : s.worker i = v at ht
  cases ht with
  | work hw =>
    obtain ⟨hvc, hve, _⟩ := Worker.not_idle hw.busy
    have hwc : w.counted = false ∧ w.errored = false := by
      cases hi : w.idle with
      | false => exact ⟨(Worker.not_idle hi).1, (Worker.not_idle hi).2.1⟩
      | true => rw [(hw.hungry hi).1]; exact ⟨rfl, rfl⟩
    refine h.goes hg (Or.inl hw.same.main) hw.same.run_ended
      (fun hm => hw.early (hv ▸ h.early hm i) (h.sleeping_eq_zero hm) (h.not_ended hm))
      (fun hm he => absurd (hw.gate he) (ne_of_gt (h.sleeping_pos hm))) hw.returned ?_ ?_ ?_
    · rw [hw.same.sleeping, hv, hvc, hwc.1]
      simp
    · rw [hw.same.errors, hv, hve, hwc.2]
      simp
    · rw [hw.same.living, hw.same.errors]
  | err main run_ended sleeping errors living queue =>
    have hj := h.joined (by rw [hv]; rfl)
    refine h.goes hg (Or.inl main) run_ended (by simp [hj]) (by simp) (by simp) ?_ ?_ ?_
    · simp [sleeping, hv, Worker.counted]
    · simp [errors, hv, Worker.errored]
    · omega
  | doze main run_ended sleeping errors living queue =>
    have hj := h.joined (by rw [hv]; rfl)
    refine h.goes hg (Or.inr main) run_ended (by simp [hj]) (by simp) (by simp) ?_ ?_ ?_
    · simp [sleeping, hv, Worker.counted]
    · simp [errors, hv, Worker.errored]
    · omega
  | sleep same queue =>
    have hj := h.joined (by rw [hv]; rfl)
    refine h.goes hg (Or.inl same.main) same.run_ended (by simp [hj]) (by simp) (by simp) ?_ ?_ ?_
    · simp [same.sleeping, hv, Worker.counted]
    · simp [same.errors, hv, Worker.errored]
    · rw [same.living, same.errors]
  | rise main run_ended sleeping errors living queue =>
    have hj := h.joined (by rw [hv]; rfl)
    refine h.goes hg (Or.inl main) run_ended (by simp [hj]) (by simp) (by simp) ?_ ?_ ?_
    · simp [sleeping, hv, Worker.counted]
    · simp [errors, hv, Worker.errored]
    · omega

theorem Sound.signal (h : Sound s) (hs : Signals s t i) : Sound t := by
  have hj := h.joined (i := i) (by rw [hs.signalling]; rfl)
  refine h.goes hs.goes hs.main hs.run_ended (by simp [hj]) (by simp) (by simp) ?_ ?_ ?_
  · simp [hs.signalling, hs.sleeping, Worker.counted]
  · simp [hs.signalling, hs.errors, Worker.errored]
  · rw [hs.living, hs.errors]

theorem MainThread.numbered_eq {m : MainThread} (h : m.preparing = false) : m.numbered n = n := by
  cases m <;> first | rfl | cases h

/-- Main goes on without touching a counter. -/
theorem Sound.moves (h : Sound s) (hw : t.worker = s.worker)
    (hsleep : t.sleeping_threads_available = s.sleeping_threads_available)
    (herr : t.thread_errors_cntr = s.thread_errors_cntr)
    (hliv : t.living_threads = s.living_threads) (hm : s.main.preparing = false)
    (hm' : t.main.preparing = false) (hrun : t.run_ended = t.main.hasEnded)
    (hstays : s.run_ended = true → t.run_ended = true) : Sound t where
  early hp := by simp [hm'] at hp
  gate _ := hw ▸ h.gate hm
  sleeping := by rw [hsleep, h.sleeping, hw, hm, hm']
  errors := by rw [herr, h.errors, hw]
  living := by rw [hliv, herr, h.living, MainThread.numbered_eq hm, MainThread.numbered_eq hm']
  creating k hk := by rw [hk] at hm'; cases hm'
  numbering k hk := by rw [hk] at hm'; cases hm'
  run_ended := hrun
  returned i hi := hstays (h.returned i (hw ▸ hi))

/-- Main goes on inside its loop, or leaves it. -/
theorem Sound.looks (h : Sound s) {m : MainThread}
    (hs : s.main.preparing = false ∧ s.main.hasEnded = false)
    (hm : m.preparing = false ∧ m.hasEnded = false) : Sound { s with main := m } :=
  h.moves rfl rfl rfl rfl hs.1 hm.1 ((h.run_ended.trans hs.2).trans hm.2.symm) fun hr => hr

/-- A step of main before it joins, with the counter of living threads. -/
theorem Sound.prepares (h : Sound s) (hw : ∀ j, (t.worker j).early = true)
    (hret : ∀ j, t.worker j ≠ .returned)
    (hsleep : t.sleeping_threads_available = s.sleeping_threads_available)
    (herr : t.thread_errors_cntr = s.thread_errors_cntr) (hm : s.main.preparing = true)
    (hm' : t.main.preparing = true)
    (hliv : t.living_threads + s.main.numbered n = s.living_threads + t.main.numbered n)
    (hcr : ∀ k, t.main = .creating k → k ≤ n) (hnum : ∀ k, t.main = .numbering k → k < n)
    (hrun : t.run_ended = s.run_ended) : Sound t := by
  have hc : census Worker.counted t.worker = 0 :=
    census_eq_zero_iff.mpr fun j => (Worker.early_not (hw j)).1
  have he : census Worker.errored t.worker = 0 :=
    census_eq_zero_iff.mpr fun j => (Worker.early_not (hw j)).2
  have he' : s.thread_errors_cntr = 0 := by
    rw [h.errors, census_eq_zero_iff.mpr fun j => (Worker.early_not (h.early hm j)).2]
  have hend : t.main.hasEnded = false := by
    cases hb : t.main.hasEnded with
    | false => rfl
    | true =>
      rw [MainThread.not_preparing hb] at hm'
      cases hm'
  have hl := h.living
  exact
    { early := fun _ => hw
      gate := fun hp => by simp [hm'] at hp
      sleeping := by rw [hsleep, h.sleeping_eq_zero hm, hc, hm']; rfl
      errors := by rw [herr, he', he]
      living := by rw [herr]; omega
      creating := hcr
      numbering := hnum
      run_ended := by rw [hrun, h.not_ended hm, hend]
      returned := fun j hj => absurd hj (hret j) }

theorem Sound.not_returned (h : Sound s) (hm : s.main.preparing = true) (j : Fin n) :
    s.worker j ≠ .returned := by
  intro hj
  have := h.returned j hj
  rw [h.not_ended hm] at this
  cases this

/-- Main joins the sleepers. -/
theorem Sound.joins (h : Sound s) (hm : s.main = .joining) :
    Sound { { s with
      sleeping_threads_available := s.sleeping_threads_available + 1 }.broadcast
        .new_sleeping_thread with main := .looping } := by
  have hp : s.main.preparing = true := by rw [hm]; rfl
  have hw : ∀ j, ((s.broadcast .new_sleeping_thread).worker j).early = true ∧
      (s.broadcast .new_sleeping_thread).worker j ≠ .gateWait := by
    intro j
    rw [State.broadcast]
    dsimp only
    split
    · exact ⟨by rw [Worker.early_unblock]; exact h.early hp j, Worker.unblock_ne_gateWait _⟩
    case isFalse hb =>
      exact ⟨h.early hp j, fun hg => hb (by rw [hg]; rfl)⟩
  have hc : census Worker.counted (s.broadcast .new_sleeping_thread).worker = 0 :=
    census_eq_zero_iff.mpr fun j => (Worker.early_not (hw j).1).1
  have he : census Worker.errored (s.broadcast .new_sleeping_thread).worker = 0 :=
    census_eq_zero_iff.mpr fun j => (Worker.early_not (hw j).1).2
  have he' : s.thread_errors_cntr = 0 := by
    rw [h.errors, census_eq_zero_iff.mpr fun j => (Worker.early_not (h.early hp j)).2]
  have hl := h.living
  rw [hm] at hl
  exact
    { early := fun hm => by cases hm
      gate := fun _ j => (hw j).2
      sleeping := by
        show s.sleeping_threads_available + 1 = _
        rw [h.sleeping_eq_zero hp]
        exact congrArg (· + 1) hc.symm
      errors := he'.trans he.symm
      living := hl
      creating := by simp
      numbering := by simp
      run_ended := h.not_ended hp
      returned := fun j hj => by
        have hj' := (hw j).1
        rw [show (s.broadcast .new_sleeping_thread).worker j = .returned from hj] at hj'
        cases hj' }

theorem Sound.main (h : Sound s) (hs : mainStep original_directory s = some t) : Sound t := by
  have hmove := main_move hs
  generalize hm : s.main = m at hmove
  have hprep (hp : m.preparing = true) : s.main.preparing = true := by rwa [hm]
  have hloop (hp : m.preparing = false ∧ m.hasEnded = false) :
      s.main.preparing = false ∧ s.main.hasEnded = false := by rwa [hm]
  cases hmove with
  | enqueue =>
    have hp := hprep rfl
    exact h.prepares (h.early hp) (h.not_returned hp) rfl rfl hp rfl (by rw [hm]; rfl)
      (fun k hk => by cases hk; exact Nat.zero_le n) (by simp) rfl
  | @create k hk =>
    have hp := hprep rfl
    refine h.prepares (fun j => ?_) (fun j => ?_) rfl rfl hp rfl (by rw [hm]; rfl) (by simp)
      (fun k' hk' => by cases hk'; exact hk) rfl
    · exact (Goes.of_update (s := s) (t := s.move ⟨k, hk⟩ .starting) rfl).forall
        (P := fun w => w.early = true) (fun w hw => by rwa [w.early_unblock]) (h.early hp) rfl j
    · exact (Goes.of_update (s := s) (t := s.move ⟨k, hk⟩ .starting) rfl).forall
        (P := fun w => w ≠ .returned) (fun w hw hu => hw (Worker.unblock_eq_returned.mp hu))
        (h.not_returned hp) (by simp) j
  | @created k hk =>
    have hp := hprep rfl
    have hkn : k = n := Nat.le_antisymm (h.creating k hm) (Nat.not_lt.mp hk)
    exact h.prepares (h.early hp) (h.not_returned hp) rfl rfl hp rfl
      (by rw [hm, hkn]; rfl) (by simp) (by simp) rfl
  | @number k =>
    have hp := hprep rfl
    refine h.prepares (h.early hp) (h.not_returned hp) rfl rfl hp rfl ?_
      (fun k' hk' => by cases hk'; exact h.numbering k hm) (by simp) rfl
    rw [hm]
    simp only [MainThread.numbered]
    push_cast
    omega
  | release =>
    have hp := hprep rfl
    refine h.prepares (fun j => ?_) (fun j => ?_) rfl rfl hp rfl (by rw [hm]; rfl) (by simp)
      (by simp) rfl
    · exact broadcast_forall (s := s) (P := fun w => w.early = true)
        (fun w hw => by rwa [w.early_unblock]) (h.early hp) _ j
    · exact broadcast_forall (s := s) (P := fun w => w ≠ .returned)
        (fun w hw hu => hw (Worker.unblock_eq_returned.mp hu)) (h.not_returned hp) _ j
  | join => exact h.joins hm
  | allErr =>
    obtain ⟨hp, he⟩ := hloop ⟨rfl, rfl⟩
    exact h.moves rfl rfl rfl rfl hp rfl (h.run_ended.trans he) fun hr => hr
  | leave => exact h.moves rfl rfl rfl rfl (by rw [hm]; rfl) rfl rfl fun _ => rfl
  | report =>
    have hr : s.run_ended = true := by rw [h.run_ended, hm]; rfl
    exact h.moves rfl rfl rfl rfl (by rw [hm]; rfl) rfl hr fun _ => hr
  | _ => exact h.looks (hloop ⟨rfl, rfl⟩) ⟨rfl, rfl⟩

theorem Sound.step (h : Sound s) (hs : step fs original_directory searched_str s e = some t) :
    Sound t := by
  replace hs := step_cases hs
  cases hs with
  | main hs => exact h.main hs
  | worker i stack hs =>
    obtain ⟨w, hg, ht⟩ := worker_turn hs
    exact h.turn hg ht
  | signal i waiter hs => exact h.signal (signal_turn hs)
  | spurious thread hs => exact h.wakes (spurious_wakes hs)

theorem sound_of_reachable (h : (pfind fs original_directory searched_str n).Reachable s) :
    Sound s := by
  refine h.invariant (fun s hs => ?_) fun s e t hi hs => hi.step hs
  rw [show s = State.initial n from hs]
  exact sound_initial

/-! ## What main concludes -/

/-- All sleepers are in: every worker is counted. -/
theorem Sound.all_counted (h : Sound s) (hm : s.main.preparing = false)
    (hs : s.sleeping_threads_available = n + 1) (i : Fin n) : (s.worker i).counted = true := by
  have hc := h.sleeping
  rw [hs, hm, if_neg (by simp)] at hc
  refine census_eq_card_iff.mp ?_ i
  rw [Fintype.card_fin]
  omega

theorem Worker.not_counted {w : Worker} (h : w.errored = true) : w.counted = false := by
  cases w <;> first | rfl | cases h

/-- A worker that has failed does not sleep. -/
theorem Sound.sleeping_ne (h : Sound s) (hm : s.main.preparing = false)
    (hi : (s.worker i).errored = true) : s.sleeping_threads_available ≠ n + 1 := by
  intro hn
  have hc := h.all_counted hm hn i
  rw [Worker.not_counted hi] at hc
  cases hc

theorem Sound.all_errored (h : Sound s) (hs : s.thread_errors_cntr = n) (i : Fin n) :
    (s.worker i).errored = true := by
  refine census_eq_card_iff.mp ?_ i
  rw [Fintype.card_fin, ← h.errors, hs]

/-- As many sleepers as there are living threads, and main: every worker is counted or has left
through the error path. -/
theorem Sound.counted_or_errored (h : Sound s) (hm : s.main.preparing = false)
    (hs : s.sleeping_threads_available = s.living_threads + 1) (i : Fin n) :
    ((s.worker i).counted || (s.worker i).errored) = true := by
  have hc := h.sleeping
  have hl := h.living
  have he := h.errors
  rw [hm, if_neg (by simp)] at hc
  rw [MainThread.numbered_eq hm] at hl
  refine census_eq_card_iff (p := fun w : Worker => w.counted || w.errored).mp ?_ i
  rw [← census_add fun w => by cases w <;> simp [Worker.counted, Worker.errored], Fintype.card_fin]
  omega

/-- Conversely, where every worker is counted or has left through the error path, there are as many
sleepers as living threads, and main. -/
theorem Sound.sleeping_eq (h : Sound s) (hm : s.main.preparing = false)
    (hall : ∀ i, ((s.worker i).counted || (s.worker i).errored) = true) :
    s.sleeping_threads_available = s.living_threads + 1 := by
  have hc := h.sleeping
  have hl := h.living
  have he := h.errors
  have hcensus : census (fun w : Worker => w.counted || w.errored) s.worker = n := by
    rw [(census_eq_card_iff (p := fun w : Worker => w.counted || w.errored)).mpr hall,
      Fintype.card_fin]
  rw [← census_add fun w => by cases w <;> simp [Worker.counted, Worker.errored]] at hcensus
  rw [hm, if_neg (by simp)] at hc
  rw [MainThread.numbered_eq hm] at hl
  omega

theorem Sound.errors_pos (h : Sound s) (hi : (s.worker i).errored = true) :
    0 < s.thread_errors_cntr := by
  rw [h.errors]
  refine lt_of_le_of_ne (census_nonneg ..) fun h0 => ?_
  rw [census_eq_zero_iff.mp h0.symm i] at hi
  cases hi

theorem Sound.errors_ne (h : Sound s) (hi : (s.worker i).errored = false) :
    s.thread_errors_cntr ≠ n := by
  intro hn
  rw [h.all_errored hn i] at hi
  cases hi

/-! ## Behind the two increments of main -/

/-- Main has set `can_start`. -/
def MainThread.released : MainThread → Bool
  | .enqueuing | .creating _ | .numbering _ | .releasing => false
  | _ => true

@[simp] theorem MainThread.released_unblock (m : MainThread) :
    m.unblock.released = m.released := by cases m <;> rfl

theorem MainThread.numbered_of_released {m : MainThread} (h : m.released = true) :
    m.numbered n = n := by
  cases m <;> first | rfl | cases h

theorem main_released (hi : s.can_start = s.main.released)
    (hs : mainStep original_directory s = some t) : t.can_start = t.main.released := by
  have hmove := main_move hs
  generalize s.main = m at hmove hi
  cases hmove with
  | release => rfl
  | _ => exact hi

/-- `can_start` tells where main is. -/
theorem can_start_of_reachable (h : (pfind fs original_directory searched_str n).Reachable s) :
    s.can_start = s.main.released := by
  refine h.invariant (I := fun s => s.can_start = s.main.released) ?_ fun s e t hi hs => ?_
  · rintro _ rfl
    rfl
  · rcases step_main_cases hs with hs | ⟨hm | hm, hc, _⟩
    · exact main_released hi hs
    · rw [hc, hm, hi]
    · rw [hc, hm, hi, MainThread.released_unblock]

theorem main_joined (hm : s.main.preparing = false)
    (hs : mainStep original_directory s = some t) : t.main.preparing = false := by
  have hmove := main_move hs
  generalize s.main = m at hmove hm
  cases hmove with
  | enqueue | create | created | number | release => cases hm
  | _ => rfl

/-- Main counts itself once and for all. -/
theorem step_joined (hm : s.main.preparing = false)
    (hs : step fs original_directory searched_str s e = some t) : t.main.preparing = false := by
  rcases step_main_cases hs with hs | ht
  · exact main_joined hm hs
  · rw [(preparing_of_unblock (n := n) ht.main).1, hm]

theorem Sound.sleeping_le (h : Sound s) : s.sleeping_threads_available ≤ n + 1 := by
  have hcensus := census_le Worker.counted s.worker
  rw [Fintype.card_fin] at hcensus
  rw [h.sleeping]
  split <;> omega

variable (fs original_directory searched_str n) in
/-- The counters in every reachable state. When main has counted itself, there is always a sleeper,
and nobody has to wait for one. -/
theorem counters_mirror_positions {s : State n}
    (h : (pfind fs original_directory searched_str n).Reachable s) :
    (s.sleeping_threads_available =
      census Worker.counted s.worker + if s.main.preparing then 0 else 1) ∧
    s.sleeping_threads_available ≤ n + 1 ∧
    (s.main.preparing = false → ∀ t, (pfind fs original_directory searched_str n).Later s t →
      0 < t.sleeping_threads_available ∧ ∀ i, t.worker i ≠ .gateWait) ∧
    (s.can_start = true → s.living_threads + s.thread_errors_cntr = n) := by
  have hsound := sound_of_reachable h
  refine ⟨hsound.sleeping, hsound.sleeping_le, fun hm t ht => ?_, fun hc => ?_⟩
  · obtain ⟨ht, hm⟩ := ht.invariant (I := fun t => Sound t ∧ t.main.preparing = false)
      (fun _ _ _ hi hs => ⟨hi.1.step hs, step_joined hi.2 hs⟩) ⟨hsound, hm⟩
    exact ⟨ht.sleeping_pos hm, ht.gate hm⟩
  · rw [can_start_of_reachable h] at hc
    rw [hsound.living, MainThread.numbered_of_released hc]

/-- Main has counted itself, and the only worker has failed to open the directory. -/
theorem counters_mirror_positions_sample : ∃ s : State 1,
    (pfind (.ofTables [] [] (by decide)) [100] [] 1).Reachable s ∧ s.worker 0 = .signalling ∧
    s.living_threads + s.thread_errors_cntr = 1 ∧ s.sleeping_threads_available ≤ 1 + 1 ∧
    ∀ t, (pfind (.ofTables [] [] (by decide)) [100] [] 1).Later s t →
      0 < t.sleeping_threads_available := by
  have hrun : (Machine.perform (step (.ofTables [] [] (by decide)) [100] []) (.initial 1)
      (List.replicate 6 .main ++ List.replicate 6 (.worker 0 0#32))).map
        (fun s => (s.worker 0, s.can_start, s.main.preparing)) =
          some (.signalling, true, false) := by
    decide +kernel
  obtain ⟨s, hs, hp⟩ := Option.map_eq_some_iff.mp hrun
  simp only [Prod.mk.injEq] at hp
  have hreach : (pfind (.ofTables [] [] (by decide)) [100] [] 1).Reachable s :=
    ⟨_, Machine.run_ofFun.mpr hs⟩
  obtain ⟨_, hle, hstays, hsum⟩ :=
    counters_mirror_positions (.ofTables [] [] (by decide)) [100] [] 1 hreach
  exact ⟨s, hreach, hp.1, hsum hp.2.1, hle, fun t ht => (hstays hp.2.2 t ht).1⟩

end OsCourse.Pfind
