import OsCourse.Pfind.Abandon

/-! # The exit status

`all_threads_are_error` is set while main checks the errors, behind a check of the sleepers that
may already have been enough. Still it tells the truth: it is only set when every worker has
left through the error path, and a worker that has left does not sleep.
-/

namespace OsCourse.Pfind
open Foundations

variable {fs : FileSystem} {original_directory : Path} {searched_str : Name} {n : ℕ}
  {s t : State n} {i : Fin n} {e : Event n}

/-! ## The flag -/

/-- Main sets the flag where it finds that the errors are as many as the workers. -/
theorem main_flag (hs : mainStep original_directory s = some t) :
    t.all_threads_are_error = s.all_threads_are_error ∨ s.thread_errors_cntr = n := by
  have hmove := main_move hs
  generalize s.main = m at hmove
  cases hmove with
  | allErr h => exact Or.inr h
  | _ => exact Or.inl rfl

/-- Main exits with the status that the flag says. -/
theorem main_exits {found status : ℤ} (hs : mainStep original_directory s = some t)
    (hm : t.main = .exited found status) :
    status = if t.all_threads_are_error then 1 else 0 := by
  have hmove := main_move hs
  generalize s.main = m at hmove
  cases hmove with
  | report =>
    cases hm
    rfl
  | _ => cases hm

/-! ## Status 1 is the truth -/

theorem AllErrored.step (h : AllErrored s) (hsound : Sound s)
    (hs : step fs original_directory searched_str s e = some t) : AllErrored t := by
  replace hs := step_cases hs
  cases hs with
  | main hs =>
    intro j
    rcases main_workers hs j with hj | hj | ⟨hp, _⟩
    · rw [hj]
      exact h j
    · rw [hj, Worker.errored_unblock]
      exact h j
    · have hearly := (Worker.early_not (hsound.early hp j)).2
      rw [h j] at hearly
      cases hearly
  | worker i stack hs =>
    obtain ⟨w, _, ht⟩ := worker_turn hs
    exact (h.no_turn ht).elim
  | signal i waiter hs =>
    exact (signal_turn hs).goes.forall (P := fun w => w.errored = true) (by simp) h rfl
  | spurious thread hs =>
    intro j
    rw [(spurious_wakes hs).apply Worker.errored_unblock]
    exact h j

/-- The flag tells the truth about the workers, and the status about the flag. -/
structure Truthful (s : State n) : Prop where
  flag : s.all_threads_are_error = true → AllErrored s
  status : ∀ found status, s.main = .exited found status →
    status = if s.all_threads_are_error then 1 else 0

theorem Truthful.frame (h : Truthful s) (he : Elsewhere s t) (hall : AllErrored s → AllErrored t) :
    Truthful t where
  flag ht := hall (h.flag (he.flag ▸ ht))
  status found status ht := by
    rw [he.flag]
    exact h.status found status (main_of_unblock he.main (by simp) ht)

theorem Truthful.step (h : Truthful s) (hsound : Sound s)
    (hs : step fs original_directory searched_str s e = some t) : Truthful t := by
  have hall : AllErrored s → AllErrored t := fun ha => ha.step hsound hs
  rcases step_main_cases hs with hs | ht
  · refine ⟨fun ht => hall ?_, fun found status hm => main_exits hs hm⟩
    rcases main_flag hs with hflag | herr
    · exact h.flag (hflag ▸ ht)
    · exact hsound.all_errored herr
  · exact h.frame ht hall

theorem truthful_of_reachable (h : (pfind fs original_directory searched_str n).Reachable s) :
    Sound s ∧ Truthful s := by
  refine h.invariant (I := fun s => Sound s ∧ Truthful s) (fun s hs => ?_)
    fun s e t hi hs => ⟨hi.1.step hs, hi.2.step hi.1 hs⟩
  rw [show s = State.initial n from hs]
  refine ⟨sound_initial, ⟨fun hf => ?_, fun _ _ hm => ?_⟩⟩
  · cases hf
  · cases hm

/-! ## The truth is status 1 -/

/-- Main is in its last look at the counters or behind it, where it has set the flag. -/
def MainThread.Concludes (all_threads_are_error : Bool) : MainThread → Prop
  | .readingErrors | .readingSleepers _ | .comparing .. | .checkingSleeping _
  | .checkingErrors _ => True
  | .left | .reporting => all_threads_are_error = true
  | .exited _ status => status = 1
  | _ => False

theorem MainThread.concludes_unblock {m : MainThread} {flag : Bool} (h : m.Concludes flag) :
    m.unblock = m := by
  cases m <;> first | rfl | exact h.elim

theorem Sound.all_errors (h : Sound s) (hall : AllErrored s) : s.thread_errors_cntr = n := by
  rw [h.errors, census_eq_card_iff.mpr hall, Fintype.card_fin]

theorem AllErrored.main (h : AllErrored s) (hsound : Sound s) (hn : 0 < n)
    (hc : s.main.Concludes s.all_threads_are_error)
    (hs : mainStep original_directory s = some t) :
    t.main.Concludes t.all_threads_are_error := by
  have hmove := main_move hs
  generalize hm : s.main = m at hmove hc
  cases hmove with
  | readErrors | readSleepers | compare | someAwake => trivial
  | allSleep hk =>
    have hp : s.main.preparing = false := by rw [hm]; rfl
    exact absurd hk (hsound.sleeping_ne (i := ⟨0, hn⟩) hp (h _))
  | allErr => rfl
  | allFinished hk | block hk => exact absurd (hsound.all_errors h) hk
  | leave => exact hc
  | report => exact if_pos hc
  | _ => exact hc.elim

theorem AllErrored.concludes (h : AllErrored s) (hsound : Sound s) (hn : 0 < n)
    (hc : s.main.Concludes s.all_threads_are_error)
    (hs : Pfind.step fs original_directory searched_str s e = some t) :
    t.main.Concludes t.all_threads_are_error := by
  rcases step_main_cases hs with hs | ht
  · exact h.main hsound hn hc hs
  · have hm := ht.main
    rw [MainThread.concludes_unblock hc, or_self] at hm
    rwa [hm, ht.flag]

/-- From its look at the errors on, main goes on to exit by itself. -/
theorem AllErrored.exits (h : AllErrored s) (hsound : Sound s) (hn : 0 < n)
    (hm : s.main = .readingErrors) :
    ∃ t, Machine.perform (Pfind.step fs original_directory searched_str) s (List.replicate 7 .main) =
      some t ∧ t.main = .exited s.counter 1 := by
  have hp : s.main.preparing = false := by rw [hm]; rfl
  have hsleep := hsound.sleeping_ne (i := ⟨0, hn⟩) hp (h _)
  have herr := hsound.all_errors h
  have hreading : Pfind.step fs original_directory searched_str s .main =
      some { s with main := .readingSleepers s.thread_errors_cntr } := by
    rw [Pfind.step, mainStep, hm]
    rfl
  have hsleeping : ∀ b, Pfind.step fs original_directory searched_str
      { s with main := .checkingSleeping b } .main =
        some { s with main := .checkingErrors b } := fun b => by
    rw [Pfind.step, mainStep]
    dsimp only
    rw [if_neg hsleep]
    rfl
  have herrors : ∀ b, Pfind.step fs original_directory searched_str
      { s with main := .checkingErrors b } .main =
        some { s with all_threads_are_error := true, main := .left } := fun b => by
    rw [Pfind.step, mainStep]
    dsimp only
    rw [if_pos herr]
    rfl
  refine ⟨{ s with all_threads_are_error := true, run_ended := true, main := .exited s.counter 1 },
    ?_, rfl⟩
  calc Machine.perform (Pfind.step fs original_directory searched_str) s (List.replicate 7 .main)
    _ = Machine.perform (Pfind.step fs original_directory searched_str)
        { s with main := .readingSleepers s.thread_errors_cntr } (List.replicate 6 .main) :=
      Machine.perform_cons hreading _
    _ = Machine.perform (Pfind.step fs original_directory searched_str)
        { s with main := .checkingSleeping _ } (List.replicate 4 .main) := rfl
    _ = Machine.perform (Pfind.step fs original_directory searched_str)
        { s with main := .checkingErrors _ } (List.replicate 3 .main) :=
      Machine.perform_cons (hsleeping _) _
    _ = Machine.perform (Pfind.step fs original_directory searched_str)
        { s with all_threads_are_error := true, main := .left } (List.replicate 2 .main) :=
      Machine.perform_cons (herrors _) _
    _ = _ := rfl

/-- Status 1 means that every worker has counted its error on the error path, and where all of them
have counted it before a look of main at the counters, main goes on to exit, and with status 1. -/
theorem status_tells_errors (fs : FileSystem) (original_directory : Path) (searched_str : Name)
    (n : ℕ) (hn : 0 < n) :
    (∀ s found, (pfind fs original_directory searched_str n).Reachable s →
      s.main = .exited found 1 → AllErrored s) ∧
    ∀ s, (pfind fs original_directory searched_str n).Reachable s → s.main = .readingErrors →
      AllErrored s →
      (∀ t found status, (pfind fs original_directory searched_str n).Later s t →
        t.main = .exited found status → status = 1) ∧
      ∃ t, Machine.perform (step fs original_directory searched_str) s (List.replicate 7 .main) =
        some t ∧ t.main = .exited s.counter 1 := by
  constructor
  · intro s found hs hm
    obtain ⟨_, htruth⟩ := truthful_of_reachable hs
    refine htruth.flag ?_
    have hstatus := htruth.status found 1 hm
    by_contra hflag
    rw [if_neg hflag] at hstatus
    cases hstatus
  · intro s hs hm hall
    have hsound := sound_of_reachable hs
    refine ⟨fun t found status hlater ht => ?_, hall.exits hsound hn hm⟩
    have hinv : Sound t ∧ AllErrored t ∧ t.main.Concludes t.all_threads_are_error := by
      refine hlater.invariant (I := fun s => Sound s ∧ AllErrored s ∧
        s.main.Concludes s.all_threads_are_error) (fun s e t hi hs => ?_) ⟨hsound, hall, ?_⟩
      · exact ⟨hi.1.step hs, hi.2.1.step hi.1 hs, hi.2.1.concludes hi.1 hn hi.2.2 hs⟩
      · rw [hm]
        trivial
    have hconcludes := hinv.2.2
    rwa [ht] at hconcludes

/-- The only worker finds no directory `d`. -/
theorem status_tells_errors_sample :
    (∃ s, (pfind (.ofTables [] [] (by decide)) [100] [] 1).Reachable s ∧
      s.main = .exited 0 1 ∧ AllErrored s) ∧
    ∃ s, (pfind (.ofTables [] [] (by decide)) [100] [] 1).Reachable s ∧ s.main = .readingErrors ∧
      ∃ t, Machine.perform (step (.ofTables [] [] (by decide)) [100] []) s
        (List.replicate 7 .main) = some t ∧ t.main = .exited s.counter 1 := by
  have h := status_tells_errors (.ofTables [] [] (by decide)) [100] [] 1 (by decide)
  constructor
  · have hrun : (Machine.perform (step (.ofTables [] [] (by decide)) [100] []) (.initial 1)
        (mainSteps 6 ++ workerSteps 6 ++ mainSteps 8)).map State.main = some (.exited 0 1) := by
      decide +kernel
    obtain ⟨s, hs, hm⟩ := Option.map_eq_some_iff.mp hrun
    have hreach : (pfind (.ofTables [] [] (by decide)) [100] [] 1).Reachable s :=
      ⟨_, Machine.run_ofFun.mpr hs⟩
    exact ⟨s, hreach, hm, h.1 s 0 hreach hm⟩
  · have hrun : (Machine.perform (step (.ofTables [] [] (by decide)) [100] []) (.initial 1)
        (mainSteps 6 ++ workerSteps 6 ++ mainSteps 1)).map (fun s => (s.main, s.worker 0)) =
          some (.readingErrors, .signalling) := by
      decide +kernel
    obtain ⟨s, hs, hp⟩ := Option.map_eq_some_iff.mp hrun
    obtain ⟨hm, hw⟩ := Prod.mk.inj hp
    have hreach : (pfind (.ofTables [] [] (by decide)) [100] [] 1).Reachable s :=
      ⟨_, Machine.run_ofFun.mpr hs⟩
    have hall : AllErrored s := fun i => by
      rw [Fin.eq_zero i, hw]
      rfl
    exact ⟨s, hreach, hm, (h.2 s hreach hm hall).2⟩

end OsCourse.Pfind
