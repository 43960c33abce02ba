import OsCourse.Pfind.Counters

/-! # How a search ends, or hangs

Main reads the counters one after the other and then waits without looking again. The
last worker that comes to rest announces it once. If main has already taken the reads
that would have told it, and does not wait yet, nobody announces anything any more.
-/

namespace OsCourse.Pfind
open Foundations

variable {fs : FileSystem} {original_directory : Path} {searched_str : Name} {n : ℕ}
  {s t : State n} {i : Fin n} {w : Worker} {e : Event n}

def Event.isSpurious : Event n → Bool
  | .spurious _ => true
  | _ => false

/-- Has left `thread_routine`. -/
def Worker.Gone (w : Worker) : Prop := w = .exited ∨ w = .returned

/-- Main waits for a sleeper, and nobody is left to wake it. -/
def Deadlocked (s : State n) : Prop :=
  s.Blocked .new_sleeping_thread .main ∧
    ∀ i, s.Blocked .queue_not_empty (.worker i) ∨ (s.worker i).Gone

/-- Has made its last announcement, unless it is woken. -/
def Worker.quiet : Worker → Bool
  | .drowsy | .asleep | .exited => true
  | _ => false

def Quiet (s : State n) : Prop := ∀ i, (s.worker i).quiet = true

/-- Main, at this point, would still see that everybody is at rest. -/
def MainThread.Notices (n : ℕ) (thread_errors_cntr living_threads : ℤ) : MainThread → Prop
  | .readingSleepers errored_threads =>
    0 < errored_threads ∨ thread_errors_cntr = 0 ∨ thread_errors_cntr = n
  | .comparing errored_threads sleeping_threads =>
    0 < errored_threads ∧ sleeping_threads = living_threads + 1 ∨
      thread_errors_cntr = 0 ∨ thread_errors_cntr = n
  | .checkingSleeping all_threads_finished =>
    all_threads_finished = true ∨ thread_errors_cntr = 0 ∨ thread_errors_cntr = n
  | .checkingErrors all_threads_finished =>
    all_threads_finished = true ∨ thread_errors_cntr = n
  | .blocking => False
  | _ => True

def Notices (s : State n) : Prop := s.main.Notices n s.thread_errors_cntr s.living_threads

/-- Nobody wakes up spuriously, and when the last worker announces that it comes to rest (by the
broadcast before its wait, or by the signal of an error exit) main notices. -/
def Heard (s : State n) : Event n → Prop
  | .main => True
  | .worker i _ => s.worker i = .hungry → (∀ j ≠ i, (s.worker j).quiet = true) → Notices s
  | .signal i _ => (∀ j ≠ i, (s.worker j).quiet = true) → Notices s
  | .spurious _ => False

/-! ## The invariant -/

/-- When everybody is at rest, main is on its way out. -/
def Attentive (s : State n) : Prop := Quiet s → Notices s ∧ s.main ≠ .waiting

theorem Worker.quiet_of_unblock {w : Worker} (h : w.unblock.quiet = true) : w.quiet = true := by
  cases w <;> first | rfl | cases h

theorem Worker.quiet_counted {w : Worker} (h : w.quiet = true) :
    (w.counted || w.errored) = true := by
  cases w <;> first | rfl | cases h

theorem Worker.quiet_cases {w : Worker} (h : w.quiet = true) :
    w = .drowsy ∨ w = .asleep ∨ w = .exited := by
  cases w <;> simp [quiet] at h ⊢

theorem Worker.quiet_blockedOn {w : Worker} (h : w.quiet = true) :
    w.blockedOn ≠ some .new_sleeping_thread := by
  rcases quiet_cases h with rfl | rfl | rfl <;> simp [blockedOn]

theorem quiet_of_goes {w : Worker} (hg : Goes s t i w) (ht : Quiet t) :
    w.quiet = true ∧ ∀ j ≠ i, (s.worker j).quiet = true := by
  refine ⟨hg.self ▸ ht i, fun j hj => ?_⟩
  have hq := ht j
  rcases hg.others j hj with he | he <;> rw [he] at hq
  · exact hq
  · exact Worker.quiet_of_unblock hq

/-- Main wakes up, or is not waiting and goes on to notice. -/
theorem notices_of_unblock (h : Notices s) (hm : t.main = s.main.unblock)
    (herr : t.thread_errors_cntr = s.thread_errors_cntr)
    (hliv : t.living_threads = s.living_threads) : Notices t ∧ t.main ≠ .waiting := by
  unfold Notices MainThread.Notices at *
  rw [hm, herr, hliv]
  cases hs : s.main <;> rw [hs] at h <;> simp only [MainThread.unblock] <;> exact ⟨h, by simp⟩

/-- Everybody at rest: as many sleepers as living threads, and main. -/
theorem Sound.quiet_sleeping (h : Sound s) (hm : s.main.preparing = false) (hq : Quiet s) :
    s.sleeping_threads_available = s.living_threads + 1 :=
  h.sleeping_eq hm fun i => Worker.quiet_counted (hq i)

theorem Attentive.turn (h : Attentive s) (hg : Goes s t i w) (ht : Turn s t (s.worker i) w)
    (hheard : s.worker i = .hungry → (∀ j ≠ i, (s.worker j).quiet = true) → Notices s) :
    Attentive t := by
  intro hq
  obtain ⟨hw, hothers⟩ := quiet_of_goes hg hq
  generalize hv : s.worker i = v at ht
  cases ht with
  | work hwork =>
    cases hi : w.idle with
    | true =>
      rw [(hwork.hungry hi).1] at hw
      cases hw
    | false =>
      rw [Worker.counted_or_errored (Worker.quiet_counted hw)] at hi
      cases hi
  | err => cases hw
  | doze main run_ended sleeping errors living queue =>
    exact notices_of_unblock (hheard hv hothers) main errors living
  | sleep same queue =>
    have hs : Quiet s := fun j => by
      by_cases hj : j = i
      · rw [hj, hv]
        rfl
      · exact hothers j hj
    obtain ⟨hn, hm⟩ := h hs
    exact ⟨by
      unfold Notices MainThread.Notices at *
      rwa [same.main, same.errors, same.living], by rwa [same.main]⟩
  | rise => cases hw

theorem Attentive.signal (hsound : Sound s) (hs : Signals s t i)
    (hheard : (∀ j ≠ i, (s.worker j).quiet = true) → Notices s) : Attentive t := by
  intro hq
  have hj := hsound.joined (i := i) (by rw [hs.signalling]; rfl)
  exact notices_of_unblock (hheard (quiet_of_goes hs.goes hq).2) (hs.wakes (hsound.gate hj))
    hs.errors hs.living

/-- Main goes on while everybody is at rest. -/
theorem Attentive.looks (h : Attentive s) (hsound : Sound s) (hm : s.main.preparing = false)
    (hq : Quiet s) (hs : mainStep original_directory s = some t) :
    Notices t ∧ t.main ≠ .waiting := by
  obtain ⟨hn, _⟩ := h hq
  have hsleep := hsound.quiet_sleeping hm hq
  have hl := hsound.living
  rw [MainThread.numbered_eq hm] at hl
  have herr : 0 ≤ s.thread_errors_cntr := by
    rw [hsound.errors]
    exact census_nonneg ..
  have hmove := main_move hs
  unfold Notices MainThread.Notices at hn ⊢
  generalize s.main = m at hmove hn hm
  cases hmove with
  | enqueue | create | created | number | release | join => cases hm
  | readErrors | readSleepers =>
    dsimp only at hn ⊢
    exact ⟨by omega, by simp⟩
  | compare => exact ⟨by simpa using hn, by simp⟩
  | someAwake hk =>
    refine ⟨hn.imp_right fun h0 => h0.resolve_left fun h0 => hk ?_, by simp⟩
    omega
  | block hk => cases hn.resolve_right hk
  | wait => exact hn.elim
  | _ => simp

/-- While main prepares, it is not deaf to anything. -/
theorem Attentive.prepares (hm : s.main.preparing = true)
    (hs : mainStep original_directory s = some t) : Attentive t := by
  intro _
  have hmove := main_move hs
  unfold Notices MainThread.Notices
  generalize s.main = m at hmove hm
  cases hmove with
  | enqueue | create | created | number | release | join => simp
  | _ => cases hm

theorem Attentive.step (h : Attentive s) (hsound : Sound s) (hheard : Heard s e)
    (hs : step fs original_directory searched_str s e = some t) : Attentive t := by
  replace hs := step_cases hs
  cases hs with
  | main hs =>
    cases hm : s.main.preparing with
    | true => exact .prepares hm hs
    | false =>
      intro hq
      have hworker := (main_frame hm hs).1
      exact h.looks hsound hm (fun j => hworker ▸ hq j) hs
  | worker i stack hs =>
    obtain ⟨w, hg, ht⟩ := worker_turn hs
    exact h.turn hg ht hheard
  | signal i waiter hs => exact .signal hsound (signal_turn hs) hheard
  | spurious thread hs => exact hheard.elim

theorem not_deadlocked (hsound : Sound s) (h : Attentive s) : ¬ Deadlocked s := by
  rintro ⟨⟨_, hm⟩, hall⟩
  have hrun : s.run_ended = false := by
    rw [hsound.run_ended, hm]
    rfl
  have hq : Quiet s := by
    intro j
    rcases hall j with hb | hexit | hret
    · have hb : (s.worker j).blockedOn = some .queue_not_empty := hb
      cases hv : s.worker j <;> rw [hv] at hb <;> first | rfl | cases hb
    · rw [hexit]
      rfl
    · rw [hsound.returned j hret] at hrun
      cases hrun
  exact (h hq).2 hm

theorem attentive_initial : Attentive (State.initial n) := fun _ => ⟨trivial, by simp [State.initial]⟩

theorem attentive_of_reachable
    (h : ((pfind fs original_directory searched_str n).guarded fun s e _ => Heard s e).Reachable s) :
    Sound s ∧ Attentive s := by
  refine h.invariant (I := fun s => Sound s ∧ Attentive s) (fun s hs => ?_) fun s e t hi hs => ?_
  · rw [show s = State.initial n from hs]
    exact ⟨sound_initial, attentive_initial⟩
  · obtain ⟨hs, hheard⟩ := hs
    exact ⟨hi.1.step hs, hi.2.step hi.1 hheard hs⟩

/-! ## An announcement that main misses -/

variable (fs original_directory searched_str) in
/-- Some run without spurious wake-ups leads from `s` to `u`. -/
def Leads : State n → State n → Prop :=
  Machine.Leads (step fs original_directory searched_str) fun e => e.isSpurious = false

theorem Leads.head {u : State n} (he : e.isSpurious = false)
    (hs : step fs original_directory searched_str s e = some t)
    (h : Leads fs original_directory searched_str t u) :
    Leads fs original_directory searched_str s u := Machine.Leads.head he hs h

/-- From each of these points main goes on to wait. -/
theorem blocking_leads (hm : s.main = .blocking) :
    Leads fs original_directory searched_str s { s with main := .waiting } :=
  .head (e := .main) rfl (by simp [step, mainStep, hm, MainThread.hasExited]) (.refl _)

theorem checkingErrors_leads (hm : s.main = .checkingErrors false)
    (herr : s.thread_errors_cntr ≠ n) :
    Leads fs original_directory searched_str s { s with main := .waiting } :=
  .head (e := .main) (t := { s with main := .blocking }) rfl
    (by simp [step, mainStep, hm, MainThread.hasExited, herr]) (blocking_leads rfl)

theorem checkingSleeping_leads (hm : s.main = .checkingSleeping false)
    (herr : s.thread_errors_cntr ≠ n) (hsleep : s.sleeping_threads_available ≠ n + 1) :
    Leads fs original_directory searched_str s { s with main := .waiting } :=
  .head (e := .main) (t := { s with main := .checkingErrors false }) rfl
    (by simp [step, mainStep, hm, MainThread.hasExited, hsleep]) (checkingErrors_leads rfl herr)

theorem comparing_leads {e k : ℤ} (hm : s.main = .comparing e k)
    (he : ¬ (0 < e ∧ k = s.living_threads + 1)) (herr : s.thread_errors_cntr ≠ n)
    (hsleep : s.sleeping_threads_available ≠ n + 1) :
    Leads fs original_directory searched_str s { s with main := .waiting } :=
  .head (e := .main) (t := { s with main := .checkingSleeping false }) rfl
    (by simpa [step, mainStep, hm, MainThread.hasExited] using he)
    (checkingSleeping_leads rfl herr hsleep)

theorem readingSleepers_leads {e : ℤ} (hm : s.main = .readingSleepers e)
    (he : ¬ 0 < e) (herr : s.thread_errors_cntr ≠ n)
    (hsleep : s.sleeping_threads_available ≠ n + 1) :
    Leads fs original_directory searched_str s { s with main := .waiting } :=
  .head (e := .main) (t := { s with main := .comparing e s.sleeping_threads_available }) rfl
    (by simp [step, mainStep, hm, MainThread.hasExited])
    (comparing_leads rfl (fun h => he h.1) herr hsleep)

/-- Main does not notice that everybody is at rest, and waits. -/
theorem unnoticed_leads (h : Sound s) (hq : Quiet s) (hn : ¬ Notices s) :
    Leads fs original_directory searched_str s { s with main := .waiting } := by
  have hp : s.main.preparing = false := by
    cases hc : s.main.preparing with
    | false => rfl
    | true =>
      unfold Notices MainThread.Notices at hn
      cases hm : s.main <;> rw [hm] at hc hn <;> first | exact absurd trivial hn | cases hc
  have hsleep := h.quiet_sleeping hp hq
  have hl := h.living
  rw [MainThread.numbered_eq hp] at hl
  unfold Notices MainThread.Notices at hn
  cases hm : s.main <;> rw [hm] at hn <;> simp only [not_or, not_true_eq_false] at hn
  case blocking => exact blocking_leads hm
  case checkingErrors f =>
    obtain rfl : f = false := by simpa using hn.1
    exact checkingErrors_leads hm hn.2
  case checkingSleeping f =>
    obtain rfl : f = false := by simpa using hn.1
    exact checkingSleeping_leads hm hn.2.2 (by omega)
  case comparing e k => exact comparing_leads hm hn.1 hn.2.2 (by omega)
  case readingSleepers e => exact readingSleepers_leads hm hn.1 hn.2.2 (by omega)

variable (fs original_directory searched_str) in
/-- The drowsy workers of a list fall asleep. -/
theorem drowsy_leads (l : List (Fin n)) (hq : Quiet s) (hm : s.main = .waiting) :
    ∃ u, Leads fs original_directory searched_str s u ∧ Quiet u ∧ u.main = .waiting ∧
      (∀ j ∈ l, u.worker j ≠ .drowsy) ∧ ∀ j, s.worker j ≠ .drowsy → u.worker j ≠ .drowsy := by
  induction l generalizing s with
  | nil => exact ⟨s, .refl s, hq, hm, by simp, fun _ h => h⟩
  | cons i l ih =>
    by_cases hi : s.worker i = .drowsy
    · have hmove : ∀ j, (s.move i .asleep).worker j = if j = i then .asleep else s.worker j :=
        fun j => Function.update_apply ..
      have hq' : Quiet (s.move i .asleep) := by
        intro j
        rw [hmove]
        split
        · rfl
        · exact hq j
      obtain ⟨u, hu, hqu, hmu, hl, hkeep⟩ := ih hq' hm
      have hkeep' : ∀ j, s.worker j ≠ .drowsy ∨ j = i → u.worker j ≠ .drowsy := by
        intro j hj
        refine hkeep j ?_
        rw [hmove]
        split
        · simp
        case isFalse hne => exact hj.resolve_right hne
      have hstep : step fs original_directory searched_str s (.worker i 0#32) =
          some (s.move i .asleep) := by
        simp [step, workerStep, hm, hi, MainThread.hasExited]
      refine ⟨u, hu.head rfl hstep, hqu, hmu, ?_, fun j hj => hkeep' j (Or.inl hj)⟩
      intro j hj
      rcases List.mem_cons.mp hj with rfl | hj
      · exact hkeep' j (Or.inr rfl)
      · exact hl j hj
    · obtain ⟨u, hu, hqu, hmu, hl, hkeep⟩ := ih hq hm
      exact ⟨u, hu, hqu, hmu, by simpa [hkeep i hi] using hl, hkeep⟩

theorem unnoticed_deadlocks (h : Sound s) (hq : Quiet s) (hn : ¬ Notices s) :
    ∃ u, Leads fs original_directory searched_str s u ∧ Deadlocked u := by
  obtain ⟨u, hu, hqu, hmu, hl, _⟩ := drowsy_leads fs original_directory searched_str
    (s := { s with main := .waiting }) (List.finRange n) hq rfl
  refine ⟨u, (unnoticed_leads h hq hn).trans hu, ⟨rfl, hmu⟩, fun j => ?_⟩
  rcases Worker.quiet_cases (hqu j) with hw | hw | hw
  · exact absurd hw (hl j (List.mem_finRange j))
  · refine Or.inl ?_
    show (u.worker j).blockedOn = _
    rw [hw]
    rfl
  · exact Or.inr (Or.inl hw)

theorem quiet_move {u : State n} {w : Worker} (hw : w.quiet = true)
    (h : ∀ j ≠ i, (u.worker j).quiet = true) : Quiet (u.move i w) := by
  intro j
  by_cases hj : j = i
  · subst hj
    rwa [move_self]
  · rw [move_of_ne _ _ hj]
    exact h j hj

theorem notices_congr (hm : t.main = s.main) (herr : t.thread_errors_cntr = s.thread_errors_cntr)
    (hliv : t.living_threads = s.living_threads) : Notices t ↔ Notices s := by
  unfold Notices
  rw [hm, herr, hliv]

theorem not_waiting_of_not_notices (h : ¬ Notices s) : s.main ≠ .waiting := by
  intro hm
  unfold Notices MainThread.Notices at h
  rw [hm] at h
  exact h trivial

theorem MainThread.unblock_of_ne {m : MainThread} (h : m ≠ .waiting) : m.unblock = m := by
  cases m <;> first | rfl | exact absurd rfl h

/-- The announcement that main misses is the last one. -/
theorem unheard_quiet (he : e.isSpurious = false) (hn : ¬ Heard s e)
    (hs : step fs original_directory searched_str s e = some t) : Quiet t ∧ ¬ Notices t := by
  replace hs := step_cases hs
  cases hs with
  | main hs => exact absurd trivial hn
  | worker i stack hs =>
    obtain ⟨hv, hn⟩ := Classical.not_imp.mp hn
    obtain ⟨hothers, hn⟩ := Classical.not_imp.mp hn
    rw [workerStep, hv] at hs
    cases hs
    refine ⟨quiet_move rfl fun j hj => ?_, ?_⟩
    · rw [State.broadcast]
      dsimp only
      rw [if_neg (Worker.quiet_blockedOn (hothers j hj))]
      exact hothers j hj
    · have hm : s.main.unblock = s.main :=
        MainThread.unblock_of_ne (not_waiting_of_not_notices hn)
      exact (notices_congr (s := s) (by exact hm) (by rfl) (by rfl)).not.mpr hn
  | signal i waiter hs =>
    obtain ⟨hothers, hnot⟩ := Classical.not_imp.mp hn
    have hv := (signal_turn hs).signalling
    cases waiter with
    | none =>
      rw [signalStep, Option.ite_none_right_eq_some] at hs
      cases hs.2
      exact ⟨quiet_move rfl hothers, (notices_congr (s := s) rfl rfl rfl).not.mpr hnot⟩
    | some thread =>
      rw [signalStep, Option.ite_none_right_eq_some] at hs
      obtain ⟨⟨_, hb⟩, _⟩ := hs
      cases thread with
      | main => exact absurd hb.2 (not_waiting_of_not_notices hnot)
      | worker j =>
        by_cases hj : j = i
        · have hb : (s.worker j).blockedOn = some .new_sleeping_thread := hb
          rw [hj, hv] at hb
          cases hb
        · exact absurd hb (Worker.quiet_blockedOn (hothers j hj))
  | spurious thread hs => cases he

/-- Exactly the announcements that main misses can leave it waiting for ever. -/
theorem hangs_only_unheard (fs : FileSystem) (original_directory : Path) (searched_str : Name)
    (n : ℕ) :
    (∀ s, ((pfind fs original_directory searched_str n).guarded fun s e _ => Heard s e).Reachable s →
      ¬ Deadlocked s) ∧
    ∀ s e t, (pfind fs original_directory searched_str n).Reachable s → e.isSpurious = false →
      step fs original_directory searched_str s e = some t → ¬ Heard s e →
      ∃ u, Leads fs original_directory searched_str t u ∧ Deadlocked u := by
  refine ⟨fun s hs => ?_, fun s e t hs he hstep hn => ?_⟩
  · obtain ⟨hsound, hattentive⟩ := attentive_of_reachable hs
    exact not_deadlocked hsound hattentive
  · obtain ⟨hq, hnt⟩ := unheard_quiet he hn hstep
    exact unnoticed_deadlocks ((sound_of_reachable hs).step hstep) hq hnt

/-! ## Runs of one worker on an empty directory -/

instance (n : ℕ) (thread_errors_cntr living_threads : ℤ) :
    (m : MainThread) → Decidable (m.Notices n thread_errors_cntr living_threads)
  | .readingSleepers _ | .comparing .. | .checkingSleeping _ => inferInstanceAs (Decidable (_ ∨ _))
  | .checkingErrors _ => inferInstanceAs (Decidable (_ ∨ _))
  | .blocking => .isFalse id
  | .enqueuing | .creating _ | .numbering _ | .releasing | .joining | .looping | .readingErrors
  | .waiting | .left | .reporting | .exited .. => .isTrue trivial

instance (s : State n) : Decidable (Notices s) :=
  inferInstanceAs (Decidable (s.main.Notices n s.thread_errors_cntr s.living_threads))

instance (s : State n) : (e : Event n) → Decidable (Heard s e)
  | .main => .isTrue trivial
  | .worker i _ => inferInstanceAs
      (Decidable (s.worker i = .hungry → (∀ j ≠ i, (s.worker j).quiet = true) → Notices s))
  | .signal i _ => inferInstanceAs (Decidable ((∀ j ≠ i, (s.worker j).quiet = true) → Notices s))
  | .spurious _ => .isFalse id

instance : DecidablePred Worker.Gone := fun _ => inferInstanceAs (Decidable (_ ∨ _))

instance (s : State n) : Decidable (Deadlocked s) := inferInstanceAs (Decidable (_ ∧ _))

def emptyFolder : FileSystem := .ofTables [([100], [])] [] (by decide)

/-- Steps of main, and of the first worker. -/
def mainSteps : ℕ → List (Event (n + 1)) := (List.replicate · .main)
def workerSteps : ℕ → List (Event (n + 1)) := (List.replicate · (.worker 0 0#32))

/-- The worker announces that it found the queue empty between the last look of main and its
wait. -/
def missedAnnouncement : List (Event 1) := mainSteps 6 ++ workerSteps 9 ++ mainSteps 6

theorem last_announcement_missed :
    ∃ s, ((pfind emptyFolder [100] [] 1).guarded fun _ e _ => !e.isSpurious).Reachable s ∧
      Deadlocked s := by
  have hrun : (Machine.perform (fun s e => if !e.isSpurious then step emptyFolder [100] [] s e
      else none) (.initial 1) (missedAnnouncement ++ workerSteps 2 ++ mainSteps 1)).map
        (fun s => decide (Deadlocked s)) = some true := by decide +kernel
  obtain ⟨s, hs, hd⟩ := Option.map_eq_some_iff.mp hrun
  exact ⟨s, ⟨_, Machine.run_guarded_ofFun.mpr hs⟩, of_decide_eq_true hd⟩

/-- A search that ends, and the announcement above. -/
theorem hangs_only_unheard_sample :
    (∃ s, ((pfind emptyFolder [100] [] 1).guarded fun s e _ => Heard s e).Reachable s ∧
      s.worker 0 = .asleep ∧ ¬ Deadlocked s) ∧
    ∃ s t, (pfind emptyFolder [100] [] 1).Reachable s ∧ s.main = .blocking ∧
      step emptyFolder [100] [] s (.worker 0 0#32) = some t ∧
      ∃ u, Leads emptyFolder [100] [] t u ∧ Deadlocked u := by
  have h := hangs_only_unheard emptyFolder [100] [] 1
  constructor
  · have hrun : (Machine.perform (fun s e => if Heard s e then step emptyFolder [100] [] s e
        else none) (.initial 1) (mainSteps 6 ++ workerSteps 9 ++ mainSteps 7 ++ workerSteps 2)).map
          (fun s => s.worker 0) = some .asleep := by decide +kernel
    obtain ⟨s, hs, hasleep⟩ := Option.map_eq_some_iff.mp hrun
    have hreach : ((pfind emptyFolder [100] [] 1).guarded fun s e _ => Heard s e).Reachable s :=
      ⟨_, Machine.run_guarded_ofFun.mpr hs⟩
    exact ⟨s, hreach, hasleep, h.1 s hreach⟩
  · have hrun : (Machine.perform (step emptyFolder [100] []) (.initial 1)
        missedAnnouncement).map (fun s => (s.main, decide (Heard s (.worker 0 0#32)),
          (step emptyFolder [100] [] s (.worker 0 0#32)).isSome)) =
        some (.blocking, false, true) := by decide +kernel
    obtain ⟨s, hs, hp⟩ := Option.map_eq_some_iff.mp hrun
    obtain ⟨hmain, hp⟩ := Prod.mk.inj hp
    obtain ⟨hheard, hsome⟩ := Prod.mk.inj hp
    obtain ⟨t, ht⟩ := Option.isSome_iff_exists.mp hsome
    have hreach : (pfind emptyFolder [100] [] 1).Reachable s := ⟨_, Machine.run_ofFun.mpr hs⟩
    exact ⟨s, t, hreach, hmain, ht, h.2 s _ t hreach rfl ht (of_decide_eq_false hheard)⟩

end OsCourse.Pfind
