import OsCourse.Pfind.Abandon
import OsCourse.Pfind.Tree

/-! # The entries of one directory

`folder_scan` does not leave an entry alone on which `lstat` has failed: it goes on with the mode
that is in `dir_metadata` from an entry before, or from the stack. Such an entry is followed if that
mode is a directory's, and else it is counted if it matches.
-/

namespace OsCourse.Pfind
open Foundations

variable (fs : FileSystem) (original_directory : Path) (searched_str : Name)

/-! ## What the source makes of a listing -/

/-- `dir_metadata.st_mode` after `lstat` on an entry. -/
def modeAfter (directory : Path) (st_mode : BitVec 32) (d_name : Name) : BitVec 32 :=
  (fs.lstat (join directory d_name)).getD st_mode

/-- The entries that are enqueued. -/
def followed (directory : Path) : BitVec 32 → List Name → List Path
  | _, [] => []
  | st_mode, d_name :: rest =>
    (if ¬ IsDots d_name ∧ S_ISDIR (modeAfter fs directory st_mode d_name) then
      [join directory d_name] else []) ++
      followed directory (modeAfter fs directory st_mode d_name) rest

/-- The number of entries that are counted. -/
def countedIn (directory : Path) : BitVec 32 → List Name → ℕ
  | _, [] => 0
  | st_mode, d_name :: rest =>
    (if ¬ IsDots d_name ∧ ¬ S_ISDIR (modeAfter fs directory st_mode d_name) ∧
      searched_str <:+: d_name then 1 else 0) +
      countedIn directory (modeAfter fs directory st_mode d_name) rest

/-- `lstat` fails on some entry. -/
def failsOn (directory : Path) (names : List Name) : Bool :=
  names.any fun d_name => (fs.lstat (join directory d_name)).isNone

/-- Wherever `lstat` fails, the mode from before is no directory's and the name does not match. -/
def StaleHarmless (directory : Path) : BitVec 32 → List Name → Prop
  | _, [] => True
  | st_mode, d_name :: rest =>
    (fs.lstat (join directory d_name) = none → ¬ IsDots d_name →
      ¬ S_ISDIR st_mode ∧ ¬ searched_str <:+: d_name) ∧
      StaleHarmless directory (modeAfter fs directory st_mode d_name) rest

instance decidableStaleHarmless (directory : Path) : (st_mode : BitVec 32) →
    (names : List Name) → Decidable (StaleHarmless fs searched_str directory st_mode names)
  | _, [] => .isTrue trivial
  | st_mode, d_name :: rest =>
    have := decidableStaleHarmless directory (modeAfter fs directory st_mode d_name) rest
    inferInstanceAs (Decidable ((fs.lstat (join directory d_name) = none → ¬ IsDots d_name →
      ¬ S_ISDIR st_mode ∧ ¬ searched_str <:+: d_name) ∧
        StaleHarmless fs searched_str directory (modeAfter fs directory st_mode d_name) rest))

variable {directory : Path} {d_name : Name}

/-- An entry that `lstat` succeeds on is followed and counted as it should be. -/
theorem followed_examined (st_mode : BitVec 32) {st_mode' : BitVec 32} (rest : List Name)
    (hl : fs.lstat (join directory d_name) = some st_mode') :
    followed fs directory st_mode (d_name :: rest) =
        (if isSubdirectory fs directory d_name then [join directory d_name] else []) ++
          followed fs directory st_mode' rest ∧
      countedIn fs searched_str directory st_mode (d_name :: rest) =
        (if isMatch fs searched_str directory d_name then 1 else 0) +
          countedIn fs searched_str directory st_mode' rest := by
  simp [followed, countedIn, modeAfter, hl, isSubdirectory, isMatch, and_assoc]

/-- One that it fails on is neither a subdirectory nor a match, and leaves the mode. -/
theorem followed_unexamined (st_mode : BitVec 32) (rest : List Name)
    (hl : fs.lstat (join directory d_name) = none) :
    isSubdirectory fs directory d_name = false ∧ isMatch fs searched_str directory d_name = false ∧
      followed fs directory st_mode (d_name :: rest) =
        (if ¬ IsDots d_name ∧ S_ISDIR st_mode then [join directory d_name] else []) ++
          followed fs directory st_mode rest ∧
      countedIn fs searched_str directory st_mode (d_name :: rest) =
        (if ¬ IsDots d_name ∧ ¬ S_ISDIR st_mode ∧ searched_str <:+: d_name then 1 else 0) +
          countedIn fs searched_str directory st_mode rest := by
  simp [followed, countedIn, modeAfter, hl, isSubdirectory, isMatch]

theorem subdirectoriesOf_cons (directory : Path) (d_name : Name) (rest : List Name) :
    subdirectoriesOf fs directory (d_name :: rest) =
      (if isSubdirectory fs directory d_name then [join directory d_name] else []) ++
        subdirectoriesOf fs directory rest := by
  simp only [subdirectoriesOf, List.filter_cons]
  split <;> rfl

theorem countP_cons_eq (p : Name → Bool) (d_name : Name) (rest : List Name) :
    (d_name :: rest).countP p = (if p d_name then 1 else 0) + rest.countP p := by
  rw [List.countP_cons, Nat.add_comm]

/-- Nothing that should be followed or counted is left out. -/
theorem length_subdirectoriesOf_le (directory : Path) (st_mode : BitVec 32) (names : List Name) :
    (subdirectoriesOf fs directory names).length ≤ (followed fs directory st_mode names).length ∧
      names.countP (isMatch fs searched_str directory) ≤
        countedIn fs searched_str directory st_mode names := by
  induction names generalizing st_mode with
  | nil => exact ⟨le_rfl, le_rfl⟩
  | cons d_name rest ih =>
    rw [subdirectoriesOf_cons, countP_cons_eq]
    cases hl : fs.lstat (join directory d_name) with
    | some st_mode' =>
      obtain ⟨hf, hc⟩ := followed_examined fs searched_str st_mode rest hl
      rw [hf, hc, List.length_append, List.length_append]
      exact ⟨Nat.add_le_add_left (ih st_mode').1 _, Nat.add_le_add_left (ih st_mode').2 _⟩
    | none =>
      obtain ⟨hsub, hmatch, hf, hc⟩ := followed_unexamined fs searched_str st_mode rest hl
      rw [hf, hc, hsub, hmatch, List.length_append, List.length_append]
      simp only [Bool.false_eq_true, if_false, List.length_nil, Nat.zero_add]
      exact ⟨(ih st_mode).1.trans (Nat.le_add_left ..), (ih st_mode).2.trans (Nat.le_add_left ..)⟩

/-- The listing is treated as it should be exactly if the stale modes do no harm. -/
theorem followed_iff (st_mode : BitVec 32) (names : List Name) :
    (followed fs directory st_mode names = subdirectoriesOf fs directory names ∧
      countedIn fs searched_str directory st_mode names =
        names.countP (isMatch fs searched_str directory)) ↔
      StaleHarmless fs searched_str directory st_mode names := by
  induction names generalizing st_mode with
  | nil => simp [followed, countedIn, subdirectoriesOf, StaleHarmless]
  | cons d_name rest ih =>
    rw [subdirectoriesOf_cons, countP_cons_eq, StaleHarmless]
    cases hl : fs.lstat (join directory d_name) with
    | some st_mode' =>
      obtain ⟨hf, hc⟩ := followed_examined fs searched_str st_mode rest hl
      rw [hf, hc, List.append_right_inj, Nat.add_left_cancel_iff, ih, modeAfter, hl]
      simp
    | none =>
      obtain ⟨hsub, hmatch, hf, hc⟩ := followed_unexamined fs searched_str st_mode rest hl
      obtain ⟨hle, hle'⟩ := length_subdirectoriesOf_le fs searched_str directory st_mode rest
      rw [hf, hc, hsub, hmatch, modeAfter, hl, Option.getD_none, ← ih st_mode]
      by_cases hdots : IsDots d_name
      · simp [hdots]
      by_cases hdir : S_ISDIR st_mode
      · refine iff_of_false (fun h => ?_) (by simp [hdots, hdir])
        have hlen := congrArg List.length h.1
        simp [hdots, hdir] at hlen
        omega
      by_cases hname : searched_str <:+: d_name
      · refine iff_of_false (fun h => ?_) (by simp [hdots, hname])
        have hcount := h.2
        simp [hdots, hdir, hname] at hcount
        omega
      · simp [hdir, hname]

/-! ## The steps of a worker -/

/-- What is still to be followed and counted, and what will be returned. -/
def Scan.remaining (scan : Scan) : List Path × ℕ × Bool :=
  (followed fs scan.directory scan.st_mode scan.entries,
    countedIn fs searched_str scan.directory scan.st_mode scan.entries,
    scan.res || failsOn fs scan.directory scan.entries)

/-- The same for a worker that is inside the loop. -/
def Worker.remaining : Worker → Option (List Path × ℕ × Bool)
  | .scanning scan | .announcing scan _ | .yielding scan _ => some (scan.remaining fs searched_str)
  | .enqueuing scan new_directory _ =>
    some (new_directory :: (scan.remaining fs searched_str).1, (scan.remaining fs searched_str).2)
  | .counting scan => some ((scan.remaining fs searched_str).1,
      (scan.remaining fs searched_str).2.1 + 1, (scan.remaining fs searched_str).2.2)
  | _ => none

@[simp] theorem Worker.remaining_unblock (w : Worker) :
    w.unblock.remaining fs searched_str = w.remaining fs searched_str := by cases w <;> rfl

theorem Worker.remaining_of_early {w : Worker} (h : w.early = true) :
    w.remaining fs searched_str = none := by
  cases w <;> first | rfl | cases h

variable {fs original_directory searched_str}

theorem Scan.examine_remaining {scan : Scan} {rest : List Name} {empty_queue : Bool} {w : Worker}
    (he : scan.entries = d_name :: rest)
    (hw : scan.examine fs searched_str d_name rest empty_queue = some w) :
    w.remaining fs searched_str = some (scan.remaining fs searched_str) := by
  rw [Scan.remaining, he, followed, countedIn, failsOn, List.any_cons, ← failsOn]
  unfold Scan.examine at hw
  dsimp only at hw
  split at hw
  · cases hw
  cases hl : fs.lstat (join scan.directory d_name) with
  | none =>
    rw [hl] at hw
    dsimp only at hw
    rw [modeAfter, hl, Option.getD_none]
    split_ifs at hw with hdots hdir hname <;> cases hw <;>
      simp [Worker.remaining, Scan.remaining, Nat.add_comm, *]
  | some st_mode =>
    rw [hl] at hw
    dsimp only at hw
    rw [modeAfter, hl, Option.getD_some]
    split_ifs at hw with hdots hdir hname <;> cases hw <;>
      simp [Worker.remaining, Scan.remaining, Nat.add_comm, *]

variable {n : ℕ} {s t u : State n} {i : Fin n} {e : Event n}
  {r : List Path × ℕ × Bool}

variable (fs original_directory searched_str) in
/-- A run in which worker `i` does not leave its `folder_scan`, with the paths that its steps put into
the queue and what they add to `counter`. The others take any steps between. -/
inductive ScanRun (i : Fin n) (s : State n) : List Path → ℕ → State n → Prop
  | start : ScanRun i s [] 0 s
  | own {ps qs : List Path} {k m : ℕ} {t u : State n} {stack : BitVec 32} (h : ScanRun i s ps k t)
      (hs : step fs original_directory searched_str t (.worker i stack) = some u)
      (hin : (u.worker i).directory ≠ none) (hqueue : u.enqueued = t.enqueued ++ qs)
      (hcounter : u.counter = t.counter + m) : ScanRun i s (ps ++ qs) (k + m) u
  | other {ps : List Path} {k : ℕ} {t u : State n} {e : Event n} (h : ScanRun i s ps k t)
      (hs : step fs original_directory searched_str t e = some u)
      (he : ∀ stack, e ≠ .worker i stack) : ScanRun i s ps k u

theorem worker_remaining {stack : BitVec 32} {qs : List Path} {m : ℕ}
    (hr : (t.worker i).remaining fs searched_str = some r)
    (hs : workerStep fs searched_str t i stack = some u) (hin : (u.worker i).directory ≠ none)
    (hqueue : u.enqueued = t.enqueued ++ qs) (hcounter : u.counter = t.counter + m) :
    ∃ r', (u.worker i).remaining fs searched_str = some r' ∧ qs ++ r'.1 = r.1 ∧
      m + r'.2.1 = r.2.1 ∧ r'.2.2 = r.2.2 := by
  have hkeeps : u.enqueued = t.enqueued → u.counter = t.counter →
      (u.worker i).remaining fs searched_str = some r →
      ∃ r', (u.worker i).remaining fs searched_str = some r' ∧ qs ++ r'.1 = r.1 ∧
        m + r'.2.1 = r.2.1 ∧ r'.2.2 = r.2.2 := by
    intro hq hc hw
    rw [hq, List.self_eq_append_right] at hqueue
    rw [hc] at hcounter
    have hm : m = 0 := by omega
    rw [hqueue, hm]
    exact ⟨r, hw, rfl, Nat.zero_add _, rfl⟩
  have hmove := worker_move hs
  generalize t.worker i = v at hmove hr
  cases hmove with
  | @examine scan d_name rest w _ he hw =>
    refine hkeeps rfl rfl ?_
    rw [move_self, Scan.examine_remaining he hw]
    exact hr
  | @finish scan _ =>
    -- a worker that returns is no longer in its scan
    refine absurd ?_ hin
    cases scan.res with
    | true =>
      rw [State.scanReturns, if_pos rfl, move_self]
      rfl
    | false =>
      rw [State.scanReturns, if_neg (by simp), move_self]
      rfl
  | @enqueue scan p _ =>
    cases hr
    have hqs : qs = [p] := (List.append_cancel_left hqueue).symm
    have hm : m = 0 := by
      have hc : t.counter = t.counter + m := hcounter
      omega
    rw [hqs, hm]
    exact ⟨scan.remaining fs searched_str, by rw [move_self]; rfl, rfl, Nat.zero_add _, rfl⟩
  | announce | yield => exact hkeeps rfl rfl (by rw [move_self]; exact hr)
  | @count scan _ =>
    cases hr
    have hqs : qs = [] := List.self_eq_append_right.mp hqueue
    have hm : m = 1 := by
      have hc : t.counter + 1 = t.counter + m := hcounter
      omega
    rw [hqs, hm]
    exact ⟨scan.remaining fs searched_str, by rw [move_self]; rfl, rfl, Nat.add_comm _ _, rfl⟩
  | _ => cases hr

/-- The others leave a worker in its scan alone. -/
theorem other_remaining (hsound : Sound t)
    (hr : (t.worker i).remaining fs searched_str = some r)
    (hs : step fs original_directory searched_str t e = some u)
    (he : ∀ stack, e ≠ .worker i stack) :
    (u.worker i).remaining fs searched_str = some r := by
  have hsame : u.worker i = t.worker i ∨ u.worker i = (t.worker i).unblock →
      (u.worker i).remaining fs searched_str = some r := by
    rintro (hw | hw)
    · rw [hw, hr]
    · rw [hw, Worker.remaining_unblock, hr]
  unfold step at hs
  split at hs
  · cases hs
  cases e with
  | main =>
    rcases main_workers hs i with hw | hw | ⟨hp, _⟩
    · exact hsame (Or.inl hw)
    · exact hsame (Or.inr hw)
    · rw [Worker.remaining_of_early fs searched_str (hsound.early hp i)] at hr
      cases hr
  | worker j stack =>
    have hj : i ≠ j := fun hij => he stack (hij ▸ rfl)
    obtain ⟨w, hg, _⟩ := worker_turn hs
    exact hsame (hg.others i hj)
  | signal j waiter =>
    have hsignal := signal_turn hs
    by_cases hj : i = j
    · rw [hj, hsignal.signalling] at hr
      cases hr
    · exact hsame (hsignal.goes.others i hj)
  | spurious thread => exact hsame ((spurious_wakes hs).worker i)

/-- What a run has put into the queue and counted, with what remains, is what there was to do. -/
theorem ScanRun.remaining {ps : List Path} {k : ℕ} (hsound : Sound s)
    (hr : (s.worker i).remaining fs searched_str = some r)
    (h : ScanRun fs original_directory searched_str i s ps k t) :
    Sound t ∧ ∃ r', (t.worker i).remaining fs searched_str = some r' ∧ ps ++ r'.1 = r.1 ∧
      k + r'.2.1 = r.2.1 ∧ r'.2.2 = r.2.2 := by
  induction h with
  | start => exact ⟨hsound, r, hr, rfl, Nat.zero_add _, rfl⟩
  | own h hs hin hqueue hcounter ih =>
    obtain ⟨hsound, r', hr', hps, hk, hres⟩ := ih
    have hworker := hs
    unfold step at hworker
    split at hworker
    · cases hworker
    obtain ⟨r'', hr'', hqs, hm, hres'⟩ := worker_remaining hr' hworker hin hqueue hcounter
    refine ⟨hsound.step hs, r'', hr'', ?_, ?_, hres'.trans hres⟩
    · rw [List.append_assoc, hqs, hps]
    · rw [Nat.add_assoc, hm, hk]
  | other h hs he ih =>
    obtain ⟨hsound, r', hr', hrest⟩ := ih
    exact ⟨hsound.step hs, r', other_remaining hsound hr' hs he, hrest⟩

/-! ## The scan comes to its end -/

theorem ScanRun.trans {ps qs : List Path} {k m : ℕ}
    (h : ScanRun fs original_directory searched_str i s ps k t)
    (h' : ScanRun fs original_directory searched_str i t qs m u) :
    ScanRun fs original_directory searched_str i s (ps ++ qs) (k + m) u := by
  induction h' with
  | start => rwa [List.append_nil, Nat.add_zero]
  | own h' hs hin hqueue hcounter ih =>
    rw [← List.append_assoc, ← Nat.add_assoc]
    exact ih.own hs hin hqueue hcounter
  | other h' hs he ih => exact ih.other hs he

/-- A step of worker `i` inside its scan that enqueues and counts nothing. -/
theorem ScanRun.quiet {ps : List Path} {k : ℕ} {stack : BitVec 32}
    (h : ScanRun fs original_directory searched_str i s ps k t)
    (hs : step fs original_directory searched_str t (.worker i stack) = some u)
    (hin : (u.worker i).directory ≠ none) (hqueue : u.enqueued = t.enqueued)
    (hcounter : u.counter = t.counter) :
    ScanRun fs original_directory searched_str i s ps k u := by
  have hown : ScanRun fs original_directory searched_str i s (ps ++ []) (k + 0) u :=
    h.own hs hin (by rw [hqueue, List.append_nil]) (by rw [hcounter, Nat.cast_zero, add_zero])
  rwa [List.append_nil, Nat.add_zero] at hown

theorem worker_step {stack : BitVec 32} (hexit : t.main.hasExited = false) :
    step fs original_directory searched_str t (.worker i stack) =
      workerStep fs searched_str t i stack := by
  rw [step, if_neg (by simp [hexit])]

/-- The variables of the loop that worker `w` is in. -/
def Worker.scan : Worker → Option Scan
  | .scanning scan | .enqueuing scan .. | .announcing scan _ | .yielding scan _ | .counting scan =>
    some scan
  | _ => none

variable (fs searched_str) in
theorem Scan.examine_scan (scan : Scan) (rest : List Name) (empty_queue : Bool)
    (hfits : (join scan.directory d_name).length < PATH_MAX) :
    ∃ w st_mode res, scan.examine fs searched_str d_name rest empty_queue = some w ∧
      w.scan = some ⟨scan.directory, rest, st_mode, res⟩ := by
  unfold Scan.examine
  simp only [if_neg (Nat.not_le.mpr hfits)]
  cases hl : fs.lstat (join scan.directory d_name) <;> dsimp only <;> split_ifs <;>
    exact ⟨_, _, _, rfl, rfl⟩

/-- From anywhere in the loop, the worker goes on to the next turn. -/
theorem exists_turn {w : Worker} {scan : Scan} (hw : w.scan = some scan)
    (hexit : s.main.hasExited = false) (hcounter : s.counter ≠ INT_MAX) (hv : s.worker i = w) :
    ∃ ps k t, ScanRun fs original_directory searched_str i s ps k t ∧
      t.worker i = .scanning scan ∧ t.main = s.main ∧ t.run_ended = s.run_ended ∧
      t.counter ≤ s.counter + 1 := by
  have hstart : ScanRun fs original_directory searched_str i s [] 0 s := .start
  have hyields : ∀ {u : State n} {ps k b}, u.main = s.main →
      ScanRun fs original_directory searched_str i s ps k u → u.worker i = .yielding scan b →
      ScanRun fs original_directory searched_str i s ps k (u.move i (.scanning scan)) := by
    intro u ps k b hm h hu
    have hstep : step fs original_directory searched_str u (.worker i 0#32) =
        some (u.move i (.scanning scan)) := by
      rw [worker_step (by rw [hm, hexit]), workerStep, hu]
    exact h.quiet hstep (by rw [move_self]; simp [Worker.directory]) rfl rfl
  have hannounces : ∀ {u : State n} {ps k b}, u.main = s.main →
      ScanRun fs original_directory searched_str i s ps k u → u.worker i = .announcing scan b →
      ScanRun fs original_directory searched_str i s ps k
        (((u.broadcast .queue_not_empty).move i (.yielding scan b)).move i (.scanning scan)) := by
    intro u ps k b hm h hu
    have hstep : step fs original_directory searched_str u (.worker i 0#32) =
        some ((u.broadcast .queue_not_empty).move i (.yielding scan b)) := by
      rw [worker_step (by rw [hm, hexit]), workerStep, hu]
    exact hyields hm (h.quiet hstep (by rw [move_self]; simp [Worker.directory]) rfl rfl)
      (move_self ..)
  cases w <;> cases hw
  case scanning => exact ⟨[], 0, s, hstart, hv, rfl, rfl, by omega⟩
  case enqueuing p b =>
    have hstep : step fs original_directory searched_str s (.worker i 0#32) =
        some ((enQueue s p).move i (.announcing scan b)) := by
      rw [worker_step hexit, workerStep, hv]
    have hown : ScanRun fs original_directory searched_str i s ([] ++ [p]) (0 + 0)
        ((enQueue s p).move i (.announcing scan b)) :=
      hstart.own hstep (by rw [move_self]; simp [Worker.directory]) rfl
        (by simp [State.move, enQueue])
    exact ⟨_, _, _, hannounces (by rfl) hown (move_self ..), move_self .., rfl, rfl,
      by simp [State.move, State.broadcast, enQueue]⟩
  case announcing b =>
    exact ⟨_, _, _, hannounces (by rfl) hstart hv, move_self .., rfl, rfl,
      by simp [State.move, State.broadcast]⟩
  case yielding b =>
    exact ⟨_, _, _, hyields (by rfl) hstart hv, move_self .., rfl, rfl, by simp [State.move]⟩
  case counting =>
    have hstep : step fs original_directory searched_str s (.worker i 0#32) =
        some ({ s with counter := s.counter + 1 }.move i (.scanning scan)) := by
      rw [worker_step hexit, workerStep, hv]
      exact if_neg hcounter
    have hown : ScanRun fs original_directory searched_str i s ([] ++ []) (0 + 1)
        ({ s with counter := s.counter + 1 }.move i (.scanning scan)) :=
      hstart.own hstep (by rw [move_self]; simp [Worker.directory]) (by simp [State.move]) rfl
    exact ⟨_, _, _, hown, move_self .., rfl, rfl, le_rfl⟩

/-- A worker that reads a listing whose entries fit comes to its end by itself. -/
theorem exists_scanRun (names : List Name) {st_mode : BitVec 32} {res : Bool}
    (hexit : s.main.hasExited = false) (hrun : s.run_ended = false)
    (hfits : ∀ d_name ∈ names, (join directory d_name).length < PATH_MAX)
    (hcounter : s.counter + names.length ≤ INT_MAX)
    (hw : s.worker i = .scanning ⟨directory, names, st_mode, res⟩) :
    ∃ ps k t scan, ScanRun fs original_directory searched_str i s ps k t ∧
      t.worker i = .scanning scan ∧ scan.entries = [] := by
  induction names generalizing s st_mode res with
  | nil => exact ⟨[], 0, s, _, .start, hw, rfl⟩
  | cons d_name rest ih =>
    rw [List.length_cons, Nat.cast_succ] at hcounter
    rw [List.forall_mem_cons] at hfits
    obtain ⟨w, st_mode', res', hexamine, hscan⟩ := Scan.examine_scan fs searched_str
      ⟨directory, d_name :: rest, st_mode, res⟩ rest s.empty_queue hfits.1
    have hstep : step fs original_directory searched_str s (.worker i 0#32) = some (s.move i w) := by
      rw [worker_step hexit, workerStep, hw]
      dsimp only
      rw [hrun]
      exact congrArg (Option.map (s.move i)) hexamine
    have hin : ((s.move i w).worker i).directory ≠ none := by
      rw [move_self]
      cases w <;> cases hscan <;> simp [Worker.directory]
    have hstart : ScanRun fs original_directory searched_str i s [] 0 s := .start
    obtain ⟨ps, k, t, hturn, ht, hm, hended, hcount⟩ :=
      exists_turn hscan (s := s.move i w) hexit (by simp only [State.move]; omega) (move_self ..)
    obtain ⟨qs, m, u, scan, hrest, hu, hend⟩ := ih (s := t) (by rw [hm]; exact hexit)
      (by rw [hended]; exact hrun) hfits.2 (by simp only [State.move] at hcount; omega) ht
    exact ⟨_, _, u, scan, ((hstart.quiet hstep hin rfl rfl).trans hturn).trans hrest, hu, hend⟩

/-- `folder_scan` enqueues exactly the subdirectories among the entries of a listing and counts
exactly the matches, if and only if no entry that `lstat` fails on meets a stale mode that is a
directory's, or matches. It comes to the end of the listing if the paths fit and the counter does
not overflow, and returns 1 exactly if `lstat` has failed on some entry. -/
theorem listing_treated_iff {names : List Name} {st_mode : BitVec 32}
    (hreach : (pfind fs original_directory searched_str n).Reachable s)
    (hw : s.worker i = .scanning ⟨directory, names, st_mode, false⟩) :
    (∀ ps k t scan, ScanRun fs original_directory searched_str i s ps k t →
      t.worker i = .scanning scan → scan.entries = [] →
      (ps = subdirectoriesOf fs directory names ∧
        k = names.countP (isMatch fs searched_str directory) ↔
          StaleHarmless fs searched_str directory st_mode names) ∧
        scan.res = failsOn fs directory names) ∧
    (s.main.hasExited = false → s.run_ended = false →
      (∀ d_name ∈ names, (join directory d_name).length < PATH_MAX) →
      s.counter + names.length ≤ INT_MAX →
      ∃ ps k t scan, ScanRun fs original_directory searched_str i s ps k t ∧
        t.worker i = .scanning scan ∧ scan.entries = []) := by
  refine ⟨fun ps k t scan hrun ht hend => ?_, fun hexit hrun hfits hcounter =>
    exists_scanRun names hexit hrun hfits hcounter hw⟩
  have hs : (s.worker i).remaining fs searched_str = some (Scan.remaining fs searched_str
      ⟨directory, names, st_mode, false⟩) := by
    rw [hw]
    rfl
  obtain ⟨_, r, hr, hps, hk, hres⟩ := hrun.remaining (sound_of_reachable hreach) hs
  rw [ht] at hr
  obtain rfl := Option.some.inj hr
  rw [Scan.remaining, hend] at hps hk hres
  have hps' : ps = followed fs directory st_mode names := by
    rw [← List.append_nil ps]
    exact hps
  have hk' : k = countedIn fs searched_str directory st_mode names := hk
  refine ⟨by rw [hps', hk', followed_iff], ?_⟩
  have hres' : (scan.res || false) = (false || failsOn fs directory names) := hres
  rwa [Bool.or_false, Bool.false_or] at hres'

/-- `d` has an empty directory `a`, and an entry `b` that `lstat` fails on. -/
def staleFolder : FileSystem :=
  .ofTables [([100], [[97], [98]]), ([100, 47, 97], [])] [([100, 47, 97], 0o040755#32)] (by decide)

/-- After `a`, the entry `b` passes for a directory. -/
theorem unexamined_followed : staleFolder.lstat [100, 47, 98] = none ∧
    ∃ s, (pfind staleFolder [100] [1] 1).Reachable s ∧ [100, 47, 98] ∈ s.enqueued := by
  refine ⟨rfl, ?_⟩
  have hrun : (Machine.perform (step staleFolder [100] [1]) (.initial 1)
      (mainSteps 6 ++ workerSteps 11)).map State.enqueued =
        some [[100], [100, 47, 97], [100, 47, 98]] := by decide +kernel
  obtain ⟨s, hs, henqueued⟩ := Option.map_eq_some_iff.mp hrun
  exact ⟨s, ⟨_, Machine.run_ofFun.mpr hs⟩, by rw [henqueued]; decide⟩

theorem listing_treated_iff_sample : ∃ s ps k t scan,
    (pfind brokenFolder [100] [1] 1).Reachable s ∧
      ScanRun brokenFolder [100] [1] 0 s ps k t ∧ t.worker 0 = .scanning scan ∧
      scan.entries = [] ∧ ps = [[100, 47, 97]] ∧ k = 0 ∧ scan.res = true := by
  have hrun : (Machine.perform (step brokenFolder [100] [1]) (.initial 1)
      (mainSteps 6 ++ workerSteps 5)).map
        (fun s => (s.worker 0, s.main.hasExited, s.run_ended, s.counter)) =
      some (.scanning ⟨[100], [[98], [97]], 0#32, false⟩, false, false, 0) := by decide +kernel
  obtain ⟨s, hs, hp⟩ := Option.map_eq_some_iff.mp hrun
  simp only [Prod.mk.injEq] at hp
  obtain ⟨hw, hexit, hended, hcounter⟩ := hp
  have hreach : (pfind brokenFolder [100] [1] 1).Reachable s := ⟨_, Machine.run_ofFun.mpr hs⟩
  have h := listing_treated_iff hreach hw
  obtain ⟨ps, k, t, scan, hscan, ht, hend⟩ :=
    h.2 hexit hended (by decide) (by rw [hcounter]; decide)
  obtain ⟨htreated, hres⟩ := h.1 ps k t scan hscan ht hend
  obtain ⟨hps, hk⟩ := htreated.mpr (by decide)
  exact ⟨s, ps, k, t, scan, hreach, hscan, ht, hend, hps.trans (by decide), hk.trans (by decide),
    hres.trans (by decide)⟩

end OsCourse.Pfind
