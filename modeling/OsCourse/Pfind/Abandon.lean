import OsCourse.Pfind.Hang
import OsCourse.Pfind.Ledger

/-! # Work that is left behind

A worker that leaves through the error path leaves the directories that it enqueued. The
others may already be counted as asleep, although they have been woken, and main may be
about to compare a count of sleepers that it read before with the number of threads that
are still living.
-/

namespace OsCourse.Pfind
open Foundations

variable {fs : FileSystem} {original_directory : Path} {searched_str : Name} {n : ℕ}
  {s t : State n} {i : Fin n} {v w : Worker} {e : Event n}

/-- The queue is empty, and nobody is between a successful `deQueue` and the end of its
`folder_scan`. -/
def Done (s : State n) : Prop :=
  s.directories_queue = [] ∧ ∀ i, (s.worker i).directory = none

/-- Everybody has left through the error path. -/
def AllErrored (s : State n) : Prop := ∀ i, (s.worker i).errored = true

/-- After one more error, main would take the sleepers that it has counted for all that are still
living. -/
def MainThread.Misled (living_threads : ℤ) : MainThread → Prop
  | .comparing errored_threads sleeping_threads =>
    0 < errored_threads ∧ sleeping_threads = living_threads
  | _ => False

/-- A worker that fails while another has not: if there is work in the queue, another worker is on
its way to it; and if main is misled, there is no work left. -/
def HandsOver (s : State n) : Event n → Prop
  | .worker i _ => s.worker i = .erring → (∃ j ≠ i, (s.worker j).errored = false) →
      (s.directories_queue ≠ [] → ∃ j ≠ i, (s.worker j).idle = false) ∧
        (s.main.Misled s.living_threads → Done s)
  | _ => True

/-! ## The invariant -/

/-- There is no work left, or nobody to do it. -/
def Settled (s : State n) : Prop := Done s ∨ AllErrored s

/-- If there is work in the queue, somebody is on the way to it, or everybody has failed. -/
def Attended (s : State n) : Prop :=
  s.directories_queue ≠ [] → (∃ i, (s.worker i).idle = false) ∨ AllErrored s

/-- Main has found that everybody is at rest. -/
def MainThread.Convinced (living_threads : ℤ) : MainThread → Prop
  | .comparing errored_threads sleeping_threads =>
    0 < errored_threads ∧ sleeping_threads = living_threads + 1
  | .checkingSleeping all_threads_finished | .checkingErrors all_threads_finished =>
    all_threads_finished = true
  | .left | .reporting | .exited .. => True
  | _ => False

/-- What main has found is true. -/
def Informed (s : State n) : Prop := s.main.Convinced s.living_threads → Settled s

theorem Done.turn (h : Done s) (hg : Goes s t i w) (ht : Turn s t (s.worker i) w) : Done t := by
  obtain ⟨hq, hd⟩ := h
  have hall : ∀ w : Worker, w.directory = none → w.unblock.directory = none := by simp
  have hv := hd i
  generalize s.worker i = v at ht hv
  cases ht with
  | work hw =>
    obtain ⟨hq', hw'⟩ := hw.quiet hq hv
    exact ⟨hq', hg.forall hall hd hw'⟩
  | err _ _ _ _ _ queue | doze _ _ _ _ _ queue | sleep _ queue | rise _ _ _ _ _ queue =>
    exact ⟨queue.trans hq, hg.forall hall hd rfl⟩

theorem AllErrored.no_turn (h : AllErrored s) (ht : Turn s t (s.worker i) w) : False := by
  have hv := h i
  generalize s.worker i = v at ht hv
  cases ht with
  | work hw =>
    rw [(Worker.not_idle hw.busy).2.1] at hv
    cases hv
  | err | doze | sleep | rise => cases hv

theorem Settled.turn (h : Settled s) (hg : Goes s t i w) (ht : Turn s t (s.worker i) w) :
    Settled t := by
  rcases h with h | h
  · exact Or.inl (h.turn hg ht)
  · exact (h.no_turn ht).elim

theorem Settled.goes_exited (h : Settled s) (hs : Signals s t i) : Settled t := by
  rcases h with ⟨hq, hd⟩ | h
  · exact Or.inl ⟨hs.books.queue.trans hq,
      hs.goes.forall (P := fun w => w.directory = none) (by simp) hd rfl⟩
  · exact Or.inr (hs.goes.forall (P := fun w => w.errored = true) (by simp) h rfl)

theorem Settled.congr (h : Settled s) (hq : t.directories_queue = s.directories_queue)
    (hd : ∀ j, (t.worker j).directory = (s.worker j).directory)
    (he : ∀ j, (t.worker j).errored = (s.worker j).errored) : Settled t := by
  rcases h with ⟨hq', hd'⟩ | h
  · exact Or.inl ⟨hq.trans hq', fun j => (hd j).trans (hd' j)⟩
  · exact Or.inr fun j => (he j).trans (h j)

/-- The last worker fails. -/
theorem allErrored_of_goes (hg : Goes s t i .signalling)
    (h : ¬ ∃ j ≠ i, (s.worker j).errored = false) : AllErrored t := by
  intro j
  by_cases hj : j = i
  · rw [hj, hg.self]
    rfl
  · rw [hg.apply Worker.errored_unblock, Function.update_of_ne hj]
    by_contra hne
    exact h ⟨j, hj, by simpa using hne⟩

/-! ## Somebody attends to the queue -/

theorem Attended.goes (h : Attended s) (hg : Goes s t i w)
    (hq : t.directories_queue = s.directories_queue) (hv : (s.worker i).idle = true)
    (he : (s.worker i).errored = true → w.errored = true) : Attended t := by
  intro hne
  rcases h (hq ▸ hne) with ⟨j, hj⟩ | hall
  · left
    have hji : j ≠ i := by
      rintro rfl
      rw [hv] at hj
      cases hj
    refine ⟨j, ?_⟩
    rcases hg.others j hji with hj' | hj' <;> rw [hj']
    · exact hj
    · rwa [Worker.idle_unblock]
  · exact Or.inr (hg.forall (P := fun w => w.errored = true) (by simp) hall (he (hall i)))

theorem Attended.turn (h : Attended s) (hg : Goes s t i w) (ht : Turn s t (s.worker i) w)
    (hkeep : s.worker i = .erring → (∃ j ≠ i, (s.worker j).errored = false) →
      s.directories_queue ≠ [] → ∃ j ≠ i, (s.worker j).idle = false) : Attended t := by
  generalize hv : s.worker i = v at ht
  cases ht with
  | work hw =>
    intro hne
    left
    refine ⟨i, ?_⟩
    rw [hg.self]
    cases hi : w.idle with
    | false => rfl
    | true => exact absurd (hw.hungry hi).2 hne
  | err main run_ended sleeping errors living queue =>
    intro hne
    by_cases hex : ∃ j ≠ i, (s.worker j).errored = false
    · obtain ⟨j, hji, hj⟩ := hkeep hv hex (queue ▸ hne)
      left
      refine ⟨j, ?_⟩
      rcases hg.others j hji with hj' | hj' <;> rw [hj']
      · exact hj
      · rwa [Worker.idle_unblock]
    · exact Or.inr (allErrored_of_goes hg hex)
  | doze _ _ _ _ _ queue | sleep _ queue =>
    exact h.goes hg queue (by rw [hv]; rfl) (by simp [hv, Worker.errored])
  | rise => exact fun _ => Or.inl ⟨i, by rw [hg.self]; rfl⟩

theorem Attended.signal (h : Attended s) (hs : Signals s t i) : Attended t :=
  h.goes hs.goes hs.books.queue (by rw [hs.signalling]; rfl) fun _ => rfl

theorem Attended.congr (h : Attended s) (hq : t.directories_queue = s.directories_queue)
    (hi : ∀ j, (t.worker j).idle = (s.worker j).idle)
    (he : ∀ j, (t.worker j).errored = (s.worker j).errored) : Attended t := by
  intro hne
  rcases h (hq ▸ hne) with ⟨j, hj⟩ | h
  · exact Or.inl ⟨j, (hi j).trans hj⟩
  · exact Or.inr fun j => (he j).trans (h j)

theorem Worker.idle_of_early {w : Worker} (h : w.early = true) : w.idle = false := by
  cases w <;> first | rfl | cases h

theorem Attended.main (h : Attended s) (hsound : Sound s)
    (hs : mainStep original_directory s = some t) : Attended t := by
  cases hm : s.main.preparing with
  | true =>
    intro _
    rcases isEmpty_or_nonempty (Fin n) with hn | ⟨⟨j⟩⟩
    · exact Or.inr fun j => hn.elim j
    · refine Or.inl ⟨j, Worker.idle_of_early ?_⟩
      rcases main_workers hs j with he | he | ⟨_, he⟩ <;> rw [he]
      · exact hsound.early hm j
      · rw [Worker.early_unblock]
        exact hsound.early hm j
      · rfl
  | false =>
    have hworker := (main_frame hm hs).1
    rcases main_books hs with ⟨he, _⟩ | ⟨_, hb, _⟩
    · rw [he] at hm
      cases hm
    · exact h.congr hb.queue (fun j => by rw [hworker]) fun j => by rw [hworker]

theorem Attended.step (h : Attended s) (hsound : Sound s) (hkeep : HandsOver s e)
    (hs : step fs original_directory searched_str s e = some t) : Attended t := by
  replace hs := step_cases hs
  cases hs with
  | main hs => exact h.main hsound hs
  | worker i stack hs =>
    obtain ⟨w, hg, ht⟩ := worker_turn hs
    exact h.turn hg ht fun hv hex => (hkeep hv hex).1
  | signal i waiter hs => exact h.signal (signal_turn hs)
  | spurious thread hs =>
    have hw := spurious_wakes hs
    exact h.congr hw.books.queue (hw.apply Worker.idle_unblock) (hw.apply Worker.errored_unblock)

/-- Where everybody is counted as asleep or has failed, there is no work left. -/
theorem Attended.settled (h : Attended s)
    (hall : ∀ i, ((s.worker i).counted || (s.worker i).errored) = true) : Settled s := by
  have hidle : ∀ i, (s.worker i).idle = true := fun i => Worker.counted_or_errored (hall i)
  by_cases hq : s.directories_queue = []
  · exact Or.inl ⟨hq, fun i => Worker.directory_of_idle (hidle i)⟩
  · rcases h hq with ⟨i, hi⟩ | herr
    · rw [hidle i] at hi
      cases hi
    · exact Or.inr herr

/-! ## Main is informed -/

theorem MainThread.convinced_unblock {m : MainThread} {l : ℤ} :
    m.unblock.Convinced l ↔ m.Convinced l := by
  cases m <;> rfl

theorem MainThread.misled_of_convinced {m : MainThread} {l : ℤ} (h : m.Convinced (l - 1)) :
    m.Misled l ∨ m.Convinced l := by
  cases m
  case comparing e k => exact Or.inl ⟨h.1, by have := h.2; omega⟩
  all_goals exact Or.inr h

theorem Informed.turn (h : Informed s) (hg : Goes s t i w) (ht : Turn s t (s.worker i) w)
    (hkeep : s.worker i = .erring → (∃ j ≠ i, (s.worker j).errored = false) →
      s.main.Misled s.living_threads → Done s) : Informed t := by
  intro hc
  have hsettled : s.main.Convinced s.living_threads → Settled t := fun hc => (h hc).turn hg ht
  generalize hv : s.worker i = v at ht
  cases ht with
  | work hw => exact hsettled (by rwa [← hw.same.main, ← hw.same.living])
  | sleep same => exact hsettled (by rwa [← same.main, ← same.living])
  | rise main _ _ _ living => exact hsettled (by rwa [← main, ← living])
  | doze main _ _ _ living =>
    rw [main, living, MainThread.convinced_unblock] at hc
    exact hsettled hc
  | err main run_ended sleeping errors living queue =>
    rw [main, living] at hc
    rcases MainThread.misled_of_convinced hc with hmis | hc
    · by_cases hex : ∃ j ≠ i, (s.worker j).errored = false
      · exact Or.inl ((hkeep hv hex hmis).turn hg
          (hv ▸ .err main run_ended sleeping errors living queue))
      · exact Or.inr (allErrored_of_goes hg hex)
    · exact hsettled hc

theorem Informed.signal (h : Informed s) (hs : Signals s t i) : Informed t := by
  intro hc
  have hm : t.main.Convinced t.living_threads ↔ s.main.Convinced s.living_threads := by
    rw [hs.living]
    rcases hs.main with he | he <;> rw [he]
    exact MainThread.convinced_unblock
  exact (h (hm.mp hc)).goes_exited hs

theorem Informed.wakes (h : Informed s) (hw : Wakes s t) : Informed t := by
  intro hc
  have hm : t.main.Convinced t.living_threads ↔ s.main.Convinced s.living_threads := by
    rw [hw.living]
    rcases hw.main with he | he <;> rw [he]
    exact MainThread.convinced_unblock
  exact (h (hm.mp hc)).congr hw.books.queue (hw.apply Worker.directory_unblock)
    (hw.apply Worker.errored_unblock)

theorem Informed.main (h : Informed s) (hsound : Sound s) (hatt : Attended s)
    (hs : mainStep original_directory s = some t) : Informed t := by
  intro hc
  have hmove := main_move hs
  generalize hm : s.main = m at hmove
  cases hmove with
  | readSleepers => exact hatt.settled (hsound.counted_or_errored (by rw [hm]; rfl) hc.2)
  | compare => exact h (by rw [hm]; simpa [MainThread.Convinced] using hc)
  | allSleep hk =>
    have hall := hsound.all_counted (by rw [hm]; rfl) hk
    exact hatt.settled fun i => by rw [hall i]; rfl
  | someAwake => exact h (by rw [hm]; exact hc)
  | allErr hk => exact Or.inr (hsound.all_errored hk)
  | allFinished => exact h (by rw [hm]; rfl)
  | block => cases hc
  | leave | report => exact h (by rw [hm]; trivial)
  | quit hrun =>
    rw [hsound.run_ended, hm] at hrun
    cases hrun
  | _ => exact hc.elim

theorem Informed.step (h : Informed s) (hsound : Sound s) (hatt : Attended s)
    (hkeep : HandsOver s e) (hs : step fs original_directory searched_str s e = some t) :
    Informed t := by
  replace hs := step_cases hs
  cases hs with
  | main hs => exact h.main hsound hatt hs
  | worker i stack hs =>
    obtain ⟨w, hg, ht⟩ := worker_turn hs
    exact h.turn hg ht fun hv hex => (hkeep hv hex).2
  | signal i waiter hs => exact h.signal (signal_turn hs)
  | spurious thread hs => exact h.wakes (spurious_wakes hs)

theorem settled_of_left
    (h : ((pfind fs original_directory searched_str n).guarded
      fun s e _ => HandsOver s e).Reachable s) (hleft : s.main.hasLeft = true) : Settled s := by
  have hinv : Sound s ∧ Attended s ∧ Informed s := by
    refine h.invariant (I := fun s => Sound s ∧ Attended s ∧ Informed s) (fun s hs => ?_)
      fun s e t hi hs => ?_
    · rw [show s = State.initial n from hs]
      exact ⟨sound_initial, fun hne => absurd rfl hne, fun hc => hc.elim⟩
    · obtain ⟨hs, hkeep⟩ := hs
      exact ⟨hi.1.step hs, hi.2.1.step hi.1 hkeep hs, hi.2.2.step hi.1 hi.2.1 hkeep hs⟩
  refine hinv.2.2 ?_
  cases hm : s.main <;> rw [hm] at hleft <;> trivial

theorem done_of_left
    (h : ((pfind fs original_directory searched_str n).guarded
      fun s e _ => HandsOver s e).Reachable s) (hleft : s.main.hasLeft = true)
    (halive : ∃ i, (s.worker i).errored = false) :
    Done s ∧ ∀ d ∈ s.enqueued, d ∈ s.scanned ∨ d ∈ s.failed := by
  have hdone : Done s := by
    refine (settled_of_left h hleft).resolve_right fun hall => ?_
    obtain ⟨i, hi⟩ := halive
    rw [hall i] at hi
    cases hi
  obtain ⟨es, hrun⟩ := h
  have hbooks := books_of_reachable hrun.of_guarded.reachable
  exact ⟨hdone, hbooks.all_finished hdone.1 hdone.2⟩

/-! ## A worker that leaves work behind -/

/-- Main has left although some worker has not failed and there is work left. -/
def Abandoned (s : State n) : Prop :=
  s.main.hasLeft = true ∧ (∃ i, (s.worker i).errored = false) ∧ ¬ Done s

/-- Main goes on to leave its loop. -/
theorem checkingErrors_leaves (hm : s.main = .checkingErrors true)
    (herr : s.thread_errors_cntr ≠ n) :
    Leads fs original_directory searched_str s { s with main := .left } :=
  .head (e := .main) rfl (by simp [step, mainStep, hm, MainThread.hasExited, herr]) (.refl _)

theorem checkingSleeping_leaves (hm : s.main = .checkingSleeping true)
    (herr : s.thread_errors_cntr ≠ n) (hsleep : s.sleeping_threads_available ≠ n + 1) :
    Leads fs original_directory searched_str s { s with main := .left } :=
  .head (e := .main) (t := { s with main := .checkingErrors true }) rfl
    (by simp [step, mainStep, hm, MainThread.hasExited, hsleep]) (checkingErrors_leaves rfl herr)

theorem comparing_leaves {e k : ℤ} (hm : s.main = .comparing e k) (he : 0 < e)
    (hk : k = s.living_threads + 1) (herr : s.thread_errors_cntr ≠ n)
    (hsleep : s.sleeping_threads_available ≠ n + 1) :
    Leads fs original_directory searched_str s { s with main := .left } :=
  .head (e := .main) (t := { s with main := .checkingSleeping true }) rfl
    (by simp [step, mainStep, hm, MainThread.hasExited, he, hk])
    (checkingSleeping_leaves rfl herr hsleep)

theorem looping_leaves (hm : s.main = .looping) (hrun : s.run_ended = false)
    (hpos : 0 < s.thread_errors_cntr) (herr : s.thread_errors_cntr ≠ n)
    (hsleep : s.sleeping_threads_available ≠ n + 1)
    (hliving : s.sleeping_threads_available = s.living_threads + 1) :
    Leads fs original_directory searched_str s { s with main := .left } :=
  .head (e := .main) (t := { s with main := .readingErrors }) rfl
    (by simp [step, mainStep, hm, MainThread.hasExited, hrun]) <|
  .head (e := .main) (t := { s with main := .readingSleepers s.thread_errors_cntr }) rfl rfl <|
  .head (e := .main) (t := { s with
    main := .comparing s.thread_errors_cntr s.sleeping_threads_available }) rfl rfl <|
  comparing_leaves rfl hpos hliving herr hsleep

variable (fs original_directory searched_str) in
/-- Wherever main is in its loop, it goes on to leave it or to wait. -/
theorem main_leads (hp : s.main.preparing = false) (hl : s.main.hasLeft = false)
    (hrun : s.run_ended = false) (herr : s.thread_errors_cntr ≠ n)
    (hsleep : s.sleeping_threads_available ≠ n + 1) :
    ∃ m, (m = .left ∨ m = .waiting) ∧
      Leads fs original_directory searched_str s { s with main := m } := by
  have hcomparing : ∀ (u : State n) {e k : ℤ}, u.main = .comparing e k →
      u.thread_errors_cntr ≠ n → u.sleeping_threads_available ≠ n + 1 →
      ∃ m, (m = .left ∨ m = .waiting) ∧
        Leads fs original_directory searched_str u { u with main := m } := by
    intro u e k hm herr hsleep
    by_cases hek : 0 < e ∧ k = u.living_threads + 1
    · exact ⟨_, Or.inl rfl, comparing_leaves hm hek.1 hek.2 herr hsleep⟩
    · exact ⟨_, Or.inr rfl, comparing_leads hm hek herr hsleep⟩
  have hreading : ∃ m, (m = .left ∨ m = .waiting) ∧
      Leads fs original_directory searched_str { s with main := .readingErrors }
        { s with main := m } := by
    obtain ⟨m, hm, h⟩ := hcomparing { s with
      main := .comparing s.thread_errors_cntr s.sleeping_threads_available } rfl herr hsleep
    refine ⟨m, hm, .head (e := .main)
      (t := { s with main := .readingSleepers s.thread_errors_cntr }) rfl rfl ?_⟩
    exact .head (e := .main) rfl rfl h
  cases hm : s.main with
  | looping =>
    obtain ⟨m, hcases, h⟩ := hreading
    refine ⟨m, hcases, .head (e := .main) rfl ?_ h⟩
    simp [step, mainStep, hm, MainThread.hasExited, hrun]
  | readingErrors =>
    obtain ⟨m, hcases, h⟩ := hreading
    refine ⟨m, hcases, ?_⟩
    rwa [← hm] at h
  | readingSleepers e =>
    obtain ⟨m, hcases, h⟩ := hcomparing
      { s with main := .comparing e s.sleeping_threads_available } rfl herr hsleep
    refine ⟨m, hcases, .head (e := .main) rfl ?_ h⟩
    simp [step, mainStep, hm, MainThread.hasExited]
  | comparing e k => exact hcomparing s hm herr hsleep
  | checkingSleeping f =>
    cases f with
    | true => exact ⟨_, Or.inl rfl, checkingSleeping_leaves hm herr hsleep⟩
    | false => exact ⟨_, Or.inr rfl, checkingSleeping_leads hm herr hsleep⟩
  | checkingErrors f =>
    cases f with
    | true => exact ⟨_, Or.inl rfl, checkingErrors_leaves hm herr⟩
    | false => exact ⟨_, Or.inr rfl, checkingErrors_leads hm herr⟩
  | blocking => exact ⟨_, Or.inr rfl, blocking_leads hm⟩
  | waiting =>
    refine ⟨.waiting, Or.inr rfl, ?_⟩
    rw [← hm]
    exact .refl s
  | enqueuing | creating | numbering | releasing | joining =>
    rw [hm] at hp
    cases hp
  | left | reporting | exited =>
    rw [hm] at hl
    cases hl

/-- Some hungry workers are counted as asleep, and nothing else happens. -/
structure Dozes (s t : State n) : Prop where
  worker : ∀ j, t.worker j = s.worker j ∨ s.worker j = .hungry ∧ t.worker j = .drowsy
  queue : t.directories_queue = s.directories_queue
  left : t.main.hasLeft = s.main.hasLeft

theorem Dozes.trans {u : State n} (h : Dozes s t) (h' : Dozes t u) : Dozes s u := by
  refine ⟨fun j => ?_, h'.queue.trans h.queue, h'.left.trans h.left⟩
  rcases h.worker j with he | ⟨hv, he⟩
  · rw [← he]
    exact h'.worker j
  · refine Or.inr ⟨hv, ?_⟩
    rcases h'.worker j with he' | ⟨hv', _⟩
    · exact he'.trans he
    · rw [he] at hv'
      cases hv'

theorem Dozes.apply (h : Dozes s t) {α : Type*} {g : Worker → α}
    (hg : g .drowsy = g .hungry) (j : Fin n) : g (t.worker j) = g (s.worker j) := by
  rcases h.worker j with he | ⟨hv, he⟩
  · rw [he]
  · rw [he, hv, hg]

theorem Worker.idle_blockedOn {w : Worker} (h : w.idle = true) :
    w.blockedOn ≠ some .new_sleeping_thread := by
  cases w <;> cases h <;> simp [blockedOn]

theorem MainThread.not_hasExited {m : MainThread} (h : m.hasLeft = false) :
    m.hasExited = false := by
  cases m <;> first | rfl | cases h

variable (fs original_directory searched_str) in
/-- The hungry workers of a list are counted. -/
theorem hungry_leads (l : List (Fin n)) (hidle : ∀ j, (s.worker j).idle = true)
    (hl : s.main.hasLeft = false) :
    ∃ u, Leads fs original_directory searched_str s u ∧ Dozes s u ∧
      ∀ j ∈ l, u.worker j ≠ .hungry := by
  induction l generalizing s with
  | nil => exact ⟨s, .refl s, ⟨fun _ => Or.inl rfl, rfl, rfl⟩, by simp⟩
  | cons i l ih =>
    by_cases hi : s.worker i = .hungry
    · let t := ({ s with
        sleeping_threads_available := s.sleeping_threads_available + 1 }.broadcast
          .new_sleeping_thread).move i .drowsy
      have hstep : step fs original_directory searched_str s (.worker i 0#32) = some t := by
        simp [step, workerStep, hi, MainThread.not_hasExited hl, t]
      have ht : Dozes s t := by
        refine ⟨fun j => ?_, rfl, MainThread.hasLeft_unblock s.main⟩
        by_cases hj : j = i
        · subst hj
          exact Or.inr ⟨hi, move_self ..⟩
        · refine Or.inl ((move_of_ne _ _ hj).trans ?_)
          exact if_neg (Worker.idle_blockedOn (hidle j))
      obtain ⟨u, hu, hd, hne⟩ := ih (s := t) (fun j => (ht.apply rfl j).trans (hidle j))
        (ht.left.trans hl)
      refine ⟨u, hu.head rfl hstep, ht.trans hd, fun j hj => ?_⟩
      rcases List.mem_cons.mp hj with rfl | hj
      · rcases hd.worker j with he | ⟨_, he⟩ <;> rw [he]
        · rw [show t.worker j = .drowsy from move_self ..]
          simp
        · simp
      · exact hne j hj
    · obtain ⟨u, hu, hd, hne⟩ := ih hidle hl
      refine ⟨u, hu, hd, fun j hj => ?_⟩
      rcases List.mem_cons.mp hj with rfl | hj
      · rcases hd.worker j with he | ⟨_, he⟩ <;> rw [he]
        · exact hi
        · simp
      · exact hne j hj

theorem Worker.counted_or_errored_of_idle {w : Worker} (h : w.idle = true) (hw : w ≠ .hungry) :
    (w.counted || w.errored) = true := by
  simpa [idle, hw] using h

/-- Everybody rests, and the worker that has just failed signals: main leaves its loop. -/
theorem signal_leaves (hs : Sound s) (hi : s.worker i = .signalling)
    (hp : s.main.preparing = false) (hl : s.main.hasLeft = false)
    (halive : ∃ j, (s.worker j).errored = false)
    (hall : ∀ j, ((s.worker j).counted || (s.worker j).errored) = true) :
    ∃ u, Leads fs original_directory searched_str s u ∧ u.main = .left ∧
      u.directories_queue = s.directories_queue ∧
      ∀ j, (u.worker j).errored = (s.worker j).errored := by
  have herrored : (s.worker i).errored = true := by
    rw [hi]
    rfl
  have hpos : 0 < s.thread_errors_cntr := hs.errors_pos herrored
  have herr : s.thread_errors_cntr ≠ n := by
    obtain ⟨j, hj⟩ := halive
    exact hs.errors_ne hj
  have hliving := hs.sleeping_eq hp hall
  have hsleep : s.sleeping_threads_available ≠ n + 1 := hs.sleeping_ne hp herrored
  have hrun : s.run_ended = false := by
    rw [hs.run_ended]
    cases hm : s.main <;> rw [hm] at hl <;> first | rfl | cases hl
  obtain ⟨m, rfl | rfl, h⟩ := main_leads fs original_directory searched_str hp hl hrun herr hsleep
  · exact ⟨_, h, rfl, rfl, fun _ => rfl⟩
  · let t := { s with main := MainThread.looping }.move i .exited
    have hstep : step fs original_directory searched_str { s with main := .waiting }
        (.signal i (some .main)) = some t := by
      simp [step, signalStep, hi, MainThread.hasExited, State.Blocked, State.unblock, t,
        MainThread.unblock]
    have ht : ∀ j, (t.worker j).errored = (s.worker j).errored := by
      intro j
      by_cases hj : j = i
      · subst hj
        rw [hi, show t.worker j = .exited from move_self ..]
        rfl
      · rw [show t.worker j = s.worker j from move_of_ne _ _ hj]
    exact ⟨_, h.trans (.head rfl hstep (looping_leaves rfl hrun hpos herr hsleep hliving)), rfl,
      rfl, ht⟩

theorem Dozes.abandons {u : State n} (hd : Dozes s t) (hm : u.main = .left)
    (hq : u.directories_queue = t.directories_queue)
    (he : ∀ j, (u.worker j).errored = (t.worker j).errored)
    (halive : ∃ j, (s.worker j).errored = false) (hne : s.directories_queue ≠ []) :
    Abandoned u := by
  refine ⟨by rw [hm]; rfl, ?_, fun h => hne ?_⟩
  · obtain ⟨j, hj⟩ := halive
    exact ⟨j, ((he j).trans (hd.apply rfl j)).trans hj⟩
  · rw [← hd.queue, ← hq]
    exact h.1

/-- There is work in the queue, but nobody attends to it. -/
theorem unattended_leads (hs : Sound s) (hi : s.worker i = .signalling)
    (hidle : ∀ j, (s.worker j).idle = true) (halive : ∃ j, (s.worker j).errored = false)
    (hne : s.directories_queue ≠ []) :
    ∃ u, Leads fs original_directory searched_str s u ∧ Abandoned u := by
  cases hl : s.main.hasLeft with
  | true => exact ⟨s, .refl s, hl, halive, fun h => hne h.1⟩
  | false =>
    obtain ⟨t, ht, hd, hhungry⟩ :=
      hungry_leads fs original_directory searched_str (List.finRange n) hidle hl
    have hall : ∀ j, ((t.worker j).counted || (t.worker j).errored) = true := fun j =>
      Worker.counted_or_errored_of_idle ((hd.apply rfl j).trans (hidle j))
        (hhungry j (List.mem_finRange j))
    have hi' : t.worker i = .signalling := by
      rcases hd.worker i with he | ⟨hv, _⟩
      · rw [he, hi]
      · rw [hi] at hv
        cases hv
    have hsound : Sound t := ht.invariant (fun _ _ _ hs hstep => hs.step hstep) hs
    have halive' : ∃ j, (t.worker j).errored = false := by
      obtain ⟨j, hj⟩ := halive
      exact ⟨j, (hd.apply rfl j).trans hj⟩
    obtain ⟨u, hu, hm, hq, he⟩ := signal_leaves hsound hi' (hsound.joined (by rw [hi']; rfl))
      (hd.left.trans hl) halive' hall
    exact ⟨u, ht.trans hu, hd.abandons hm hq he halive hne⟩

/-- Main takes the living threads for as many as the sleepers that it has counted. -/
theorem misled_leads {e k : ℤ} (hs : Sound s) (hi : (s.worker i).errored = true)
    (hm : s.main = .comparing e k) (he : 0 < e) (hk : k = s.living_threads + 1)
    (halive : ∃ j, (s.worker j).errored = false) (hdone : ¬ Done s) :
    ∃ u, Leads fs original_directory searched_str s u ∧ Abandoned u := by
  have herr : s.thread_errors_cntr ≠ n := by
    obtain ⟨j, hj⟩ := halive
    exact hs.errors_ne hj
  have hsleep : s.sleeping_threads_available ≠ n + 1 := hs.sleeping_ne (by rw [hm]; rfl) hi
  exact ⟨_, comparing_leaves hm he hk herr hsleep, rfl, halive, hdone⟩

/-- A worker that does not hand its work over can leave it behind. -/
theorem not_handed_over_leads (hs : Sound s)
    (hstep : step fs original_directory searched_str s e = some t) (hn : ¬ HandsOver s e) :
    ∃ u, Leads fs original_directory searched_str t u ∧ Abandoned u := by
  have hsound := hs.step hstep
  replace hstep := step_cases hstep
  cases hstep with
  | worker i stack hstep =>
    obtain ⟨hv, hn⟩ := Classical.not_imp.mp hn
    obtain ⟨⟨j, hji, hj⟩, hn⟩ := Classical.not_imp.mp hn
    rw [workerStep, hv] at hstep
    obtain rfl := Option.some.inj hstep
    set t := State.move { s with
      thread_errors_cntr := s.thread_errors_cntr + 1
      living_threads := s.living_threads - 1 } i .signalling with ht
    have hself : t.worker i = .signalling := move_self ..
    have hothers : ∀ k ≠ i, t.worker k = s.worker k := fun k hk => move_of_ne _ _ hk
    have halive : ∃ k, (t.worker k).errored = false := ⟨j, by rw [hothers j hji, hj]⟩
    rcases not_and_or.mp hn with hn | hn
    · obtain ⟨hne, hidle⟩ := Classical.not_imp.mp hn
      refine unattended_leads hsound hself (fun k => ?_) halive hne
      by_cases hk : k = i
      · rw [hk, hself]
        rfl
      · rw [hothers k hk]
        exact Bool.not_eq_false _ ▸ fun hf => hidle ⟨k, hk, hf⟩
    · obtain ⟨hmis, hdone⟩ := Classical.not_imp.mp hn
      have hdone' : ¬ Done t := by
        rintro ⟨hq, hd⟩
        refine hdone ⟨hq, fun k => ?_⟩
        by_cases hk : k = i
        · rw [hk, hv]
          rfl
        · rw [← hothers k hk]
          exact hd k
      cases hm : s.main with
      | comparing e k =>
        rw [hm] at hmis
        refine misled_leads (k := k) hsound (i := i) ?_ hm hmis.1 ?_ halive hdone'
        · rw [hself]
          rfl
        · rw [hmis.2]
          exact (Int.sub_add_cancel s.living_threads 1).symm
      | _ =>
        rw [hm] at hmis
        exact hmis.elim
  | main hstep | signal | spurious => exact absurd trivial hn

/-- Nothing is left behind if every worker that fails hands its work over: when main has left its
loop and some worker has not failed, every directory that was enqueued has been scanned or has
failed to scan. After a worker that does not, main can leave with work left. -/
theorem nothing_left_behind (fs : FileSystem) (original_directory : Path) (searched_str : Name)
    (n : ℕ) :
    (∀ s, ((pfind fs original_directory searched_str n).guarded
        fun s e _ => HandsOver s e).Reachable s → s.main.hasLeft = true →
      (∃ i, (s.worker i).errored = false) →
      Done s ∧ ∀ d ∈ s.enqueued, d ∈ s.scanned ∨ d ∈ s.failed) ∧
    ∀ s e t, (pfind fs original_directory searched_str n).Reachable s →
      step fs original_directory searched_str s e = some t → ¬ HandsOver s e →
      ∃ u, Leads fs original_directory searched_str t u ∧ Abandoned u :=
  ⟨fun _ hs hleft halive => done_of_left hs hleft halive,
    fun _ _ _ hs hstep hn => not_handed_over_leads (sound_of_reachable hs) hstep hn⟩

/-! ## Runs of two workers on a directory that cannot be scanned -/

instance (living_threads : ℤ) : (m : MainThread) → Decidable (m.Misled living_threads)
  | .comparing .. => inferInstanceAs (Decidable (_ ∧ _))
  | .enqueuing | .creating _ | .numbering _ | .releasing | .joining | .looping | .readingErrors
  | .readingSleepers _ | .checkingSleeping _ | .checkingErrors _ | .blocking | .waiting | .left
  | .reporting | .exited .. => .isFalse id

instance (s : State n) : Decidable (Done s) := inferInstanceAs (Decidable (_ ∧ _))

instance (s : State n) : (e : Event n) → Decidable (HandsOver s e)
  | .worker i _ => inferInstanceAs
      (Decidable (s.worker i = .erring → (∃ j ≠ i, (s.worker j).errored = false) →
        (s.directories_queue ≠ [] → ∃ j ≠ i, (s.worker j).idle = false) ∧
          (s.main.Misled s.living_threads → Done s)))
  | .main | .signal .. | .spurious _ => .isTrue trivial

/-- `d` has an entry `b` that `lstat` fails on, and an empty directory `a`. -/
def brokenFolder : FileSystem :=
  .ofTables [([100], [[98], [97]]), ([100, 47, 97], [])] [([100, 47, 97], 0o040755#32)] (by decide)

/-- Steps of the second worker. -/
def otherSteps : ℕ → List (Event (n + 2)) := (List.replicate · (.worker 1 0#32))

/-- The second worker sleeps when the first enqueues `d/a`, and then fails. -/
def failingScan : List (Event 2) :=
  mainSteps 8 ++ workerSteps 4 ++ otherSteps 6 ++ workerSteps 7

theorem work_left_behind :
    ∃ s, (pfind brokenFolder [100] [1] 2).Reachable s ∧ s.main.hasLeft = true ∧
      (s.worker 1).errored = false ∧ s.directories_queue = [[100, 47, 97]] := by
  have hrun : (Machine.perform (step brokenFolder [100] [1]) (.initial 2)
      (failingScan ++ workerSteps 1 ++ mainSteps 6)).map
        (fun s => (s.main.hasLeft, (s.worker 1).errored, s.directories_queue)) =
      some (true, false, [[100, 47, 97]]) := by decide +kernel
  obtain ⟨s, hs, hp⟩ := Option.map_eq_some_iff.mp hrun
  simp only [Prod.mk.injEq] at hp
  exact ⟨s, ⟨_, Machine.run_ofFun.mpr hs⟩, hp⟩

/-- A run in which the second worker is up again before the first fails, and the run above. -/
theorem nothing_left_behind_sample :
    (∃ s, ((pfind brokenFolder [100] [1] 2).guarded fun s e _ => HandsOver s e).Reachable s ∧
      s.failed = [[100]] ∧ s.enqueued = [[100], [100, 47, 97]] ∧ Done s ∧
      ∀ d ∈ s.enqueued, d ∈ s.scanned ∨ d ∈ s.failed) ∧
    ∃ s t, (pfind brokenFolder [100] [1] 2).Reachable s ∧ s.worker 0 = .erring ∧
      s.worker 1 = .woken ∧ step brokenFolder [100] [1] s (.worker 0 0#32) = some t ∧
      ∃ u, Leads brokenFolder [100] [1] t u ∧ Abandoned u := by
  have h := nothing_left_behind brokenFolder [100] [1] 2
  constructor
  · have hrun : (Machine.perform (fun s e => if HandsOver s e then step brokenFolder [100] [1] s e
        else none) (.initial 2) (failingScan ++ otherSteps 1 ++ workerSteps 1 ++ [.signal 0 none] ++
          otherSteps 10 ++ mainSteps 6)).map
          (fun s => (s.main.hasLeft, (s.worker 1).errored, s.failed, s.enqueued)) =
        some (true, false, [[100]], [[100], [100, 47, 97]]) := by decide +kernel
    obtain ⟨s, hs, hp⟩ := Option.map_eq_some_iff.mp hrun
    simp only [Prod.mk.injEq] at hp
    obtain ⟨hleft, halive, hfailed, henqueued⟩ := hp
    have hreach : ((pfind brokenFolder [100] [1] 2).guarded
        fun s e _ => HandsOver s e).Reachable s := ⟨_, Machine.run_guarded_ofFun.mpr hs⟩
    exact ⟨s, hreach, hfailed, henqueued, h.1 s hreach hleft ⟨1, halive⟩⟩
  · have hrun : (Machine.perform (step brokenFolder [100] [1]) (.initial 2) failingScan).map
        (fun s => (s.worker 0, s.worker 1, decide (HandsOver s (.worker 0 0#32)),
          (step brokenFolder [100] [1] s (.worker 0 0#32)).isSome)) =
        some (.erring, .woken, false, true) := by decide +kernel
    obtain ⟨s, hs, hp⟩ := Option.map_eq_some_iff.mp hrun
    simp only [Prod.mk.injEq] at hp
    obtain ⟨herring, hwoken, hhands, hsome⟩ := hp
    obtain ⟨t, ht⟩ := Option.isSome_iff_exists.mp hsome
    have hreach : (pfind brokenFolder [100] [1] 2).Reachable s := ⟨_, Machine.run_ofFun.mpr hs⟩
    exact ⟨s, t, hreach, herring, hwoken, ht, h.2 s _ t hreach ht (of_decide_eq_false hhands)⟩

end OsCourse.Pfind
