import OsCourse.Pfind.Listing

/-! # The buffers of `folder_scan`

The path of an entry is put together in `result`, of `PATH_MAX` bytes, without a look at its length,
and copied to `new_directory`, of as many. `opendir` has accepted the path of the directory, but not
that of the entry.
-/

namespace OsCourse.Pfind
open Foundations

/-- The path, the separator unless it is there already, the name and the terminating zero need no
more than `PATH_MAX` bytes. -/
def Fits (directory : Path) (d_name : Name) : Prop :=
  directory.length + (if directory.getLast? = some slash then 0 else 1) + d_name.length < PATH_MAX

instance (directory : Path) (d_name : Name) : Decidable (Fits directory d_name) :=
  inferInstanceAs (Decidable (_ < _))

theorem length_join (directory : Path) (d_name : Name) : (join directory d_name).length =
    directory.length + (if directory.getLast? = some slash then 0 else 1) + d_name.length := by
  rw [join, withSlash]
  split <;> simp only [List.length_append, List.length_singleton, Nat.add_zero]

theorem fits_iff (directory : Path) (d_name : Name) :
    Fits directory d_name ↔ (join directory d_name).length < PATH_MAX := by
  rw [Fits, length_join]

variable (fs : FileSystem) (original_directory : Path) (searched_str : Name)

/-- The directories that a search comes to, and what it takes for one because of a stale mode. -/
inductive Entered : Path → Prop
  | root : Entered original_directory
  | entry {directory p : Path} {names : List Name} {stack : BitVec 32} (h : Entered directory)
      (hopen : fs.opendir directory = some names) (hp : p ∈ followed fs directory stack names) :
      Entered p

/-- Whatever directory is entered, the paths of its entries fit. -/
def Fitting : Prop :=
  ∀ directory names, Entered fs original_directory directory →
    fs.opendir directory = some names → ∀ d_name ∈ names, Fits directory d_name

/-- The next step of worker `i` puts together the path of the entry `d_name` of `directory`. -/
def State.Examines {n : ℕ} (s : State n) (i : Fin n) (directory : Path) (d_name : Name) : Prop :=
  s.main.hasExited = false ∧ s.run_ended = false ∧
    ∃ rest st_mode res, s.worker i = .scanning ⟨directory, d_name :: rest, st_mode, res⟩

/-- No path of a run is longer than the buffer that it is in, or comes into. -/
structure PathsInside {n : ℕ} (s : State n) : Prop where
  result : ∀ i directory d_name, s.Examines i directory d_name →
    (join directory d_name).length + 1 ≤ PATH_MAX
  new_directory : ∀ i scan new_directory queue_was_empty,
    s.worker i = .enqueuing scan new_directory queue_was_empty →
      new_directory.length + 1 ≤ PATH_MAX
  queue : ∀ p ∈ s.enqueued, p = original_directory ∨ p.length + 1 ≤ PATH_MAX

/-- A worker is in an entered directory, and has what it reads and follows from its listing. -/
structure Worker.Charted (w : Worker) : Prop where
  entered : ∀ d, w.directory = some d → Entered fs original_directory d
  listing : ∀ scan r, w.scan = some scan → w.remaining fs searched_str = some r →
    ∃ names stack, fs.opendir scan.directory = some names ∧ scan.entries ⊆ names ∧
      r.1 ⊆ followed fs scan.directory stack names

/-- The new directory that a worker has allocated is no longer than its block. -/
def Worker.Short (w : Worker) : Prop :=
  ∀ scan new_directory queue_was_empty, w = .enqueuing scan new_directory queue_was_empty →
    new_directory.length + 1 ≤ PATH_MAX

/-- The queue holds what main was given and what fitted into `new_directory`. -/
def Queueable (p : Path) : Prop := p = original_directory ∨ p.length + 1 ≤ PATH_MAX

/-- `Q` holds of every path that was ever put into the queue, and `W` of every worker. -/
structure State.Holds (W : Worker → Prop) (Q : Path → Prop) {n : ℕ} (s : State n) : Prop where
  enqueued : ∀ p ∈ s.enqueued, Q p
  workers : ∀ i, W (s.worker i)

/-- Every path that is in the hands of the search comes from the tree. -/
abbrev Mapped {n : ℕ} (s : State n) : Prop :=
  s.Holds (Worker.Charted fs original_directory searched_str) (Entered fs original_directory)

/-- Worker `i` goes to a position of which `W` holds, and puts nothing but `Q` into the queue. -/
def Proceeds (W : Worker → Prop) (Q : Path → Prop) {n : ℕ} (s t : State n) (i : Fin n) : Prop :=
  ∃ w, Goes s t i w ∧ W w ∧ ∀ p ∈ t.enqueued, p ∈ s.enqueued ∨ Q p

/-- What a search keeps: `W` of a worker that is in no directory, `Q` of the first directory, and
both over every step of a worker. -/
structure Kept (W : Worker → Prop) (Q : Path → Prop) : Prop where
  root : Q original_directory
  idle : ∀ w : Worker, w.directory = none → W w
  unblock : ∀ w, W w → W w.unblock
  worker : ∀ {n : ℕ} {s t : State n} {i : Fin n} {stack : BitVec 32}, Books s → s.Holds W Q →
    workerStep fs searched_str s i stack = some t → Proceeds W Q s t i

variable {fs original_directory searched_str} {n : ℕ} {s t : State n} {i : Fin n} {v w : Worker}
  {e : Event n} {directory : Path} {d_name : Name} {W : Worker → Prop} {Q : Path → Prop}

theorem Worker.directory_of_scan {scan : Scan} (h : w.scan = some scan) :
    w.directory = some scan.directory := by
  cases w <;> cases h <;> rfl

theorem Worker.scan_of_directory (h : w.directory = none) : w.scan = none := by
  cases w <;> first | rfl | cases h

@[simp] theorem Worker.scan_unblock (w : Worker) : w.unblock.scan = w.scan := by cases w <;> rfl

namespace Worker.Charted

theorem of_none (h : w.directory = none) : w.Charted fs original_directory searched_str where
  entered d hd := by rw [h] at hd; cases hd
  listing scan r hscan := by rw [scan_of_directory h] at hscan; cases hscan

theorem unblock (h : w.Charted fs original_directory searched_str) :
    w.unblock.Charted fs original_directory searched_str where
  entered d hd := h.entered d (by rwa [directory_unblock] at hd)
  listing scan r hscan hr := by
    rw [scan_unblock] at hscan
    rw [remaining_unblock] at hr
    exact h.listing scan r hscan hr

/-- A worker that goes on in its listing. -/
theorem onward {scan scan' : Scan} {r r' : List Path × ℕ × Bool}
    (h : v.Charted fs original_directory searched_str) (hv : v.scan = some scan)
    (hw : w.scan = some scan') (hd : scan'.directory = scan.directory)
    (he : scan'.entries ⊆ scan.entries) (hr : v.remaining fs searched_str = some r)
    (hr' : w.remaining fs searched_str = some r') (hsub : r'.1 ⊆ r.1) :
    w.Charted fs original_directory searched_str where
  entered d hwd := by
    apply h.entered
    rw [directory_of_scan hv, ← hd, ← directory_of_scan hw, hwd]
  listing scan'' r'' hscan hrest := by
    obtain rfl : scan' = scan'' := Option.some.inj (hw.symm.trans hscan)
    obtain rfl : r' = r'' := Option.some.inj (hr'.symm.trans hrest)
    obtain ⟨names, stack, hopen, hentries, hfollowed⟩ := h.listing scan r hv hr
    rw [hd]
    exact ⟨names, stack, hopen, List.Subset.trans he hentries, List.Subset.trans hsub hfollowed⟩

end Worker.Charted

/-! ## Steps -/

theorem Scan.examine_isSome {scan : Scan} {rest : List Name} {empty_queue : Bool} :
    (scan.examine fs searched_str d_name rest empty_queue).isSome ↔ Fits scan.directory d_name := by
  rw [fits_iff]
  constructor
  · intro h
    by_contra hlong
    rw [examine, if_pos (Nat.not_lt.mp hlong)] at h
    cases h
  · intro hfits
    obtain ⟨w, _, _, hw, _⟩ := examine_scan fs searched_str scan rest empty_queue hfits
    rw [hw]
    rfl

theorem Scan.examine_charted {scan : Scan} {rest : List Name} {empty_queue : Bool}
    (h : (Worker.scanning scan).Charted fs original_directory searched_str)
    (he : scan.entries = d_name :: rest)
    (hw : scan.examine fs searched_str d_name rest empty_queue = some w) :
    w.Charted fs original_directory searched_str := by
  have hfits : Fits scan.directory d_name :=
    examine_isSome.mp (Option.isSome_iff_exists.mpr ⟨w, hw⟩)
  obtain ⟨w', st_mode, res, hw', hscan⟩ :=
    examine_scan fs searched_str scan rest empty_queue ((fits_iff ..).mp hfits)
  obtain rfl : w = w' := Option.some.inj (hw.symm.trans hw')
  apply h.onward rfl hscan rfl (by rw [he]; exact List.subset_cons_self ..) rfl
    (examine_remaining he hw)
  exact List.Subset.refl _

theorem Scan.examine_short {scan : Scan} {rest : List Name} {empty_queue : Bool}
    (hw : scan.examine fs searched_str d_name rest empty_queue = some w) : w.Short := by
  intro scan' new_directory b he
  subst he
  have hfits : Fits scan.directory d_name :=
    examine_isSome.mp (Option.isSome_iff_exists.mpr ⟨_, hw⟩)
  have hjoin : new_directory = join scan.directory d_name := by
    rw [examine, if_neg (Nat.not_le.mpr ((fits_iff ..).mp hfits))] at hw
    dsimp only at hw
    split_ifs at hw <;> cases hw
    rfl
  rw [hjoin]
  exact (fits_iff ..).mp hfits

theorem scanReturns_proceeds (hidle : ∀ w : Worker, w.directory = none → W w) (s : State n)
    (i : Fin n) (d : Path) (res : Bool) : Proceeds W Q s (s.scanReturns i d res) i := by
  cases res with
  | true => exact ⟨.erring, .of_update rfl, hidle _ rfl, fun p => Or.inl⟩
  | false => exact ⟨.loopHead, .of_update rfl, hidle _ rfl, fun p => Or.inl⟩

namespace State.Holds

theorem goes (h : s.Holds W Q) (hunblock : ∀ w, W w → W w.unblock) (hp : Proceeds W Q s t i) :
    t.Holds W Q := by
  obtain ⟨w, hg, hw, henqueued⟩ := hp
  refine ⟨fun p hp => ?_, hg.forall hunblock h.workers hw⟩
  rcases henqueued p hp with hp | hp
  · exact h.enqueued p hp
  · exact hp

theorem main (hk : Kept fs original_directory searched_str W Q) (h : s.Holds W Q)
    (hs : mainStep original_directory s = some t) : t.Holds W Q where
  enqueued p hp := by
    rcases main_books hs with ⟨_, rfl⟩ | ⟨_, hb, _⟩
    · rcases List.mem_append.mp hp with hp | hp
      · exact h.enqueued p hp
      · rw [List.mem_singleton.mp hp]
        exact hk.root
    · rw [hb.enqueued] at hp
      exact h.enqueued p hp
  workers j := by
    rcases main_workers hs j with hw | hw | ⟨_, hw⟩ <;> rw [hw]
    · exact h.workers j
    · exact hk.unblock _ (h.workers j)
    · exact hk.idle _ rfl

theorem step (hk : Kept fs original_directory searched_str W Q) (h : s.Holds W Q) (hbooks : Books s)
    (hs : step fs original_directory searched_str s e = some t) : t.Holds W Q := by
  replace hs := step_cases hs
  cases hs with
  | main hs => exact h.main hk hs
  | worker i stack hs => exact h.goes hk.unblock (hk.worker hbooks h hs)
  | signal i waiter hs =>
    have hsignal := signal_turn hs
    exact h.goes hk.unblock ⟨.exited, hsignal.goes, hk.idle _ rfl, fun p hp => Or.inl (by
      rwa [hsignal.books.enqueued] at hp)⟩
  | spurious thread hs =>
    have hwakes := spurious_wakes hs
    refine ⟨fun p hp => h.enqueued p (by rwa [hwakes.books.enqueued] at hp), fun j => ?_⟩
    rcases hwakes.worker j with hw | hw <;> rw [hw]
    · exact h.workers j
    · exact hk.unblock _ (h.workers j)

end State.Holds

theorem Kept.of_reachable (hk : Kept fs original_directory searched_str W Q)
    (h : (pfind fs original_directory searched_str n).Reachable s) : s.Holds W Q := by
  obtain ⟨as, h⟩ := h
  refine h.history_invariant (I := fun _ s => s.Holds W Q)
    (fun s hs => ?_) fun as s e t hrun hh hs => hh.step hk (books_of_reachable hrun.reachable) hs
  rw [show s = State.initial n from hs]
  refine ⟨fun p hp => ?_, fun i => hk.idle _ rfl⟩
  cases hp

theorem mapped_kept : Kept fs original_directory searched_str
    (Worker.Charted fs original_directory searched_str) (Entered fs original_directory) where
  root := .root
  idle _ := .of_none
  unblock _ := .unblock
  worker {n s t i stack} hbooks hm hs := by
    have hidle : ∀ w : Worker, w.directory = none →
        w.Charted fs original_directory searched_str := fun _ => .of_none
    have hc := hm.workers i
    have hmove := worker_move hs
    generalize s.worker i = v at hmove hc
    cases hmove with
    | start | head | pass =>
      exact ⟨_, .of_update rfl, .of_none (by split <;> rfl), fun p => Or.inl⟩
    | @take d rest hq =>
      have hin : d ∈ s.enqueued := by
        rw [hbooks.fifo, hq]
        exact List.mem_append_right _ List.mem_cons_self
      refine ⟨.opening d, .of_update rfl, ⟨fun d' hd' => ?_, fun _ _ hscan => ?_⟩, fun p => Or.inl⟩
      · obtain rfl : d = d' := Option.some.inj hd'
        exact hm.enqueued d hin
      · cases hscan
    | fail => exact scanReturns_proceeds hidle s i _ true
    | @enter d names hopen =>
      refine ⟨.scanning ⟨d, names, stack, false⟩, .of_update rfl, ⟨hc.entered, ?_⟩, fun p => Or.inl⟩
      intro scan r hscan hr
      cases hscan
      cases hr
      exact ⟨names, stack, hopen, List.Subset.refl _, List.Subset.refl _⟩
    | examine _ he hw => exact ⟨_, .of_update rfl, Scan.examine_charted hc he hw, fun p => Or.inl⟩
    | finish => exact scanReturns_proceeds hidle s i _ _
    | @enqueue scan d b =>
      obtain ⟨names, stack, hopen, _, hfollowed⟩ := hc.listing scan _ rfl rfl
      refine ⟨.announcing scan b, .of_update rfl, ?_, fun p hp => ?_⟩
      · apply hc.onward rfl rfl rfl (List.Subset.refl _) rfl rfl
        exact List.subset_cons_self ..
      · rcases List.mem_append.mp hp with hp | hp
        · exact Or.inl hp
        · rw [List.mem_singleton.mp hp]
          have hdir : Entered fs original_directory scan.directory := hc.entered _ rfl
          exact Or.inr (hdir.entry hopen (hfollowed List.mem_cons_self))
    | announce =>
      exact ⟨_, .broadcast (by rfl) _ i _, hc.onward rfl rfl rfl (List.Subset.refl _) rfl rfl
        (List.Subset.refl _), fun p => Or.inl⟩
    | yield | count =>
      exact ⟨_, .of_update rfl, hc.onward rfl rfl rfl (List.Subset.refl _) rfl rfl
        (List.Subset.refl _), fun p => Or.inl⟩
    | doze => exact ⟨_, .broadcast (by rfl) _ i _, .of_none rfl, fun p => Or.inl⟩
    | starve | err | sleep | rise => exact ⟨_, .of_update rfl, .of_none rfl, fun p => Or.inl⟩

theorem mapped_of_reachable (h : (pfind fs original_directory searched_str n).Reachable s) :
    Mapped fs original_directory searched_str s := mapped_kept.of_reachable h

theorem Worker.Short.of_none (h : w.directory = none) : w.Short := by
  intro scan new_directory b he
  subst he
  cases h

theorem short_kept :
    Kept fs original_directory searched_str Worker.Short (Queueable original_directory) where
  root := Or.inl rfl
  idle _ := .of_none
  unblock w h scan new_directory b he := by
    refine h scan new_directory b ?_
    cases w <;> first | exact he | cases he
  worker {n s t i stack} _ hm hs := by
    have hc := hm.workers i
    have hmove := worker_move hs
    generalize s.worker i = v at hmove hc
    cases hmove with
    | start | head | pass =>
      exact ⟨_, .of_update rfl, .of_none (by split <;> rfl), fun p => Or.inl⟩
    | fail => exact scanReturns_proceeds (fun _ => .of_none) s i _ true
    | examine _ _ hw => exact ⟨_, .of_update rfl, Scan.examine_short hw, fun p => Or.inl⟩
    | finish => exact scanReturns_proceeds (fun _ => .of_none) s i _ _
    | @enqueue scan d b =>
      refine ⟨.announcing scan b, .of_update rfl, nofun, fun p hp => ?_⟩
      rcases List.mem_append.mp hp with hp | hp
      · exact Or.inl hp
      · rw [List.mem_singleton.mp hp]
        exact Or.inr (Or.inr (hc scan d b rfl))
    | announce | doze => exact ⟨_, .broadcast (by rfl) _ i _, nofun, fun p => Or.inl⟩
    | take | enter | yield | count | starve | err | sleep | rise =>
      exact ⟨_, .of_update rfl, nofun, fun p => Or.inl⟩

/-! ## The buffers -/

/-- What came into `new_directory` and into the queue was in `result` before. -/
theorem paths_inside (h : (pfind fs original_directory searched_str n).Reachable s) :
    PathsInside original_directory s ↔
      ∀ i directory d_name, s.Examines i directory d_name → Fits directory d_name := by
  have hshort := short_kept.of_reachable h
  constructor
  · intro hinside i directory d_name he
    exact (fits_iff ..).mpr (hinside.result i directory d_name he)
  · intro hfits
    exact {
      result := fun i directory d_name he => (fits_iff ..).mp (hfits i directory d_name he)
      new_directory := hshort.workers
      queue := hshort.enqueued }

/-- The step that puts a path together is defined exactly if the path fits. -/
theorem State.Examines.step_isSome (h : s.Examines i directory d_name) (stack : BitVec 32) :
    (step fs original_directory searched_str s (.worker i stack)).isSome ↔
      Fits directory d_name := by
  obtain ⟨hexit, hended, rest, st_mode, res, hw⟩ := h
  rw [worker_step hexit, workerStep, hw, hended]
  dsimp only
  rw [Option.isSome_map, Scan.examine_isSome]

theorem Mapped.fits (hfitting : Fitting fs original_directory)
    (h : Mapped fs original_directory searched_str s) (he : s.Examines i directory d_name) :
    Fits directory d_name := by
  obtain ⟨_, _, rest, st_mode, res, hw⟩ := he
  have hc := h.workers i
  rw [hw] at hc
  obtain ⟨names, _, hopen, hentries, _⟩ := hc.listing _ _ rfl rfl
  exact hfitting _ _ (hc.entered _ rfl) hopen d_name (hentries List.mem_cons_self)

theorem fitting_ofTables {listings : List (Path × List Name)} {modes : List (Path × BitVec 32)}
    {h : ∀ entry ∈ listings, ListingOk entry}
    (hfits : ∀ entry ∈ listings, ∀ d_name ∈ entry.2, Fits entry.1 d_name) :
    Fitting (.ofTables listings modes h) original_directory :=
  fun _ _ _ hopen => hfits _ (mem_of_lookup hopen)

variable (searched_str) in
/-- A search with one thread comes to read the first directory. -/
theorem exists_scanning_root {names : List Name}
    (hopen : fs.opendir original_directory = some names) :
    ∃ s, (pfind fs original_directory searched_str 1).Reachable s ∧
      s.worker 0 = .scanning ⟨original_directory, names, 0#32, false⟩ ∧
      s.main.hasExited = false ∧ s.run_ended = false := by
  have hrun : ∃ s, Machine.perform (step fs original_directory searched_str) (.initial 1)
      (mainSteps 6 ++ workerSteps 4) = some s ∧ s.worker 0 = .opening original_directory ∧
        s.main.hasExited = false ∧ s.run_ended = false := ⟨_, rfl, rfl, rfl, rfl⟩
  obtain ⟨s, hs, hw, hexit, hended⟩ := hrun
  have hstep : step fs original_directory searched_str s (.worker 0 0#32) =
      some (s.move 0 (.scanning ⟨original_directory, names, 0#32, false⟩)) := by
    rw [worker_step hexit, workerStep, hw]
    dsimp only
    rw [hopen]
  refine ⟨s.move 0 (.scanning ⟨original_directory, names, 0#32, false⟩), ?_, move_self .., hexit, hended⟩
  exact Machine.Reachable.step ⟨_, Machine.run_ofFun.mpr hs⟩ hstep

/-- However the threads take turns, the buffers are kept exactly as long as every entry that a worker
comes to examine fits, and the step that examines one is defined exactly if it does. In a search that
enters only directories whose entries fit, no buffer overflows. -/
theorem paths_inside_iff (fs : FileSystem) (original_directory : Path) (searched_str : Name)
    (n : ℕ) :
    (∀ s, (pfind fs original_directory searched_str n).Reachable s →
      (PathsInside original_directory s ↔
        ∀ i directory d_name, s.Examines i directory d_name → Fits directory d_name) ∧
      ∀ i directory d_name stack, s.Examines i directory d_name →
        ((step fs original_directory searched_str s (.worker i stack)).isSome ↔
          Fits directory d_name)) ∧
    (∀ (scan : Scan) (d_name : Name) rest empty_queue,
      (scan.examine fs searched_str d_name rest empty_queue).isSome ↔
        Fits scan.directory d_name) ∧
    (Fitting fs original_directory → ∀ s,
      (pfind fs original_directory searched_str n).Reachable s →
        PathsInside original_directory s) :=
  ⟨fun _ h => ⟨paths_inside h, fun _ _ _ stack he => he.step_isSome stack⟩,
    fun _ _ _ _ => Scan.examine_isSome,
    fun hfitting _ h => (paths_inside h).mpr fun _ _ _ => (mapped_of_reachable h).fits hfitting⟩

theorem paths_inside_iff_sample :
    (∃ s, (pfind staleFolder [100] [1] 1).Reachable s ∧ s.Examines 0 [100] [97] ∧
      (step staleFolder [100] [1] s (.worker 0 0#32)).isSome) ∧
    (Scan.examine staleFolder [1] ⟨[100], [[98]], 0#32, false⟩ [98] [] true).isSome ∧
    ∃ s, (pfind staleFolder [100] [1] 1).Reachable s ∧
      s.enqueued = [[100], [100, 47, 97], [100, 47, 98]] ∧ PathsInside [100] s := by
  obtain ⟨hexact, hexamine, hruns⟩ := paths_inside_iff staleFolder [100] [1] 1
  have hopen : staleFolder.opendir [100] = some [[97], [98]] := rfl
  obtain ⟨u, hu, hw, hexit, hended⟩ := exists_scanning_root [1] hopen
  have hexamines : u.Examines 0 [100] [97] := ⟨hexit, hended, _, _, _, hw⟩
  have hrun : (Machine.perform (step staleFolder [100] [1]) (.initial 1)
      (mainSteps 6 ++ workerSteps 11)).map State.enqueued =
        some [[100], [100, 47, 97], [100, 47, 98]] := by decide +kernel
  obtain ⟨s, hs, henqueued⟩ := Option.map_eq_some_iff.mp hrun
  have hreach : (pfind staleFolder [100] [1] 1).Reachable s := ⟨_, Machine.run_ofFun.mpr hs⟩
  exact ⟨⟨u, hu, hexamines, ((hexact u hu).2 _ _ _ _ hexamines).mpr (by decide)⟩,
    (hexamine ..).mpr (by decide), s, hreach, henqueued,
    hruns (fitting_ofTables (by decide)) s hreach⟩

/-- `ddd…d/`, twenty times. -/
def deepDirectory : Path := (List.replicate 20 (List.replicate 200 100 ++ [slash])).flatten

def longName : Name := List.replicate NAME_MAX 97

theorem length_deepDirectory : deepDirectory.length = 4020 := by
  simp only [deepDirectory, List.length_flatten, List.map_replicate, List.sum_replicate,
    List.length_append, List.length_replicate, List.length_singleton, smul_eq_mul]

theorem length_longName : longName.length = NAME_MAX := by rw [longName, List.length_replicate]

theorem deepDirectory_ok : ListingOk (deepDirectory, [longName]) := by
  refine ⟨?_, ?_, List.nodup_singleton _, fun d_name hd => ?_⟩
  · apply List.ne_nil_of_length_pos
    rw [length_deepDirectory]
    decide
  · rw [length_deepDirectory]
    decide
  · rw [List.mem_singleton.mp hd]
    refine ⟨?_, length_longName.le, fun hslash => ?_⟩
    · apply List.ne_nil_of_length_pos
      rw [length_longName]
      decide
    · exact absurd (List.eq_of_mem_replicate hslash) (by decide)

/-- A directory of 4020 bytes that holds an entry with a name of 255. -/
def deepFolder : FileSystem :=
  .ofTables [(deepDirectory, [longName])] [] fun entry h => by
    rw [List.mem_singleton.mp h]
    exact deepDirectory_ok

/-- The entry of `deepFolder` does not fit, and the search comes to examine it. -/
theorem entry_overflows : longName.length ≤ NAME_MAX ∧
    deepFolder.opendir deepDirectory = some [longName] ∧
    ∃ s, (pfind deepFolder deepDirectory [97] 1).Reachable s ∧
      s.Examines 0 deepDirectory longName ∧
      PATH_MAX < (join deepDirectory longName).length + 1 ∧
      ∀ stack, step deepFolder deepDirectory [97] s (.worker 0 stack) = none := by
  have hopen : deepFolder.opendir deepDirectory = some [longName] := by
    simp [deepFolder, FileSystem.ofTables, lookup]
  obtain ⟨s, hreach, hw, hexit, hended⟩ := exists_scanning_root [97] hopen
  have hlong : ¬ Fits deepDirectory longName := by
    rw [Fits, length_deepDirectory, length_longName, PATH_MAX, NAME_MAX]
    omega
  have hexamines : s.Examines 0 deepDirectory longName := ⟨hexit, hended, _, _, _, hw⟩
  refine ⟨length_longName.le, hopen, s, hreach, hexamines, ?_, fun stack => ?_⟩
  · rw [fits_iff, not_lt] at hlong
    rw [Nat.lt_add_one_iff]
    exact hlong
  · rw [← Option.not_isSome_iff_eq_none, hexamines.step_isSome]
    exact hlong

end OsCourse.Pfind
