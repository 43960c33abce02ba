import OsCourse.Pfind.Abandon
import OsCourse.Pfind.Tree

/-! # A search without errors is complete

What the queue and the workers hold, together with what has been found, is worth the
whole tree at every point of every run. When main leaves its loop nothing is held any
more, so everything has been found.
-/

namespace OsCourse.Pfind
open Foundations

variable {fs : FileSystem} {original_directory : Path} {searched_str : Name} {n k : ℕ}
  {s t : State n} {i : Fin n} {v w : Worker} {e : Event n} {p : Path}

variable (fs searched_str)

/-- The worth of a directory: itself, and its matches. -/
def worth (p : Path) : Multiset Path × ℤ := ({p}, matchesIn fs searched_str p)

/-- The worth of the tree below a directory. -/
def worthBelow (k : ℕ) (p : Path) : Multiset Path × ℤ :=
  ((directories fs k p).map (worth fs searched_str)).sum

/-- The worth of an entry. -/
def worthOfEntry (k : ℕ) (directory : Path) (d_name : Name) : Multiset Path × ℤ :=
  (if isSubdirectory fs directory d_name then
      worthBelow fs searched_str k (join directory d_name) else 0) +
    (0, if isMatch fs searched_str directory d_name then 1 else 0)

/-- The worth of what remains to be read of a directory. -/
def worthOf (k : ℕ) (directory : Path) (names : List Name) : Multiset Path × ℤ :=
  (names.map (worthOfEntry fs searched_str k directory)).sum

/-- The worth of what a worker holds. -/
def Worker.held (k : ℕ) : Worker → Multiset Path × ℤ
  | .opening directory => worthOf fs searched_str k directory ((fs.opendir directory).getD [])
  | .scanning scan | .announcing scan _ | .yielding scan _ =>
    worthOf fs searched_str k scan.directory scan.entries
  | .enqueuing scan new_directory _ =>
    worthBelow fs searched_str k new_directory +
      worthOf fs searched_str k scan.directory scan.entries
  | .counting scan => (0, 1) + worthOf fs searched_str k scan.directory scan.entries
  | _ => 0

/-- A scan without errors, which has only searchable directories ahead. -/
def Scan.Clean (k : ℕ) (scan : Scan) : Prop :=
  scan.res = false ∧ Entries fs (Searchable fs k) scan.directory scan.entries

/-- A worker that has met no error. -/
def Worker.Clean (k : ℕ) : Worker → Prop
  | .opening directory => Searchable fs k directory
  | .scanning scan | .announcing scan _ | .yielding scan _ | .counting scan => scan.Clean fs k
  | .enqueuing scan new_directory _ => scan.Clean fs k ∧ Searchable fs k new_directory
  | .erring | .signalling | .exited => False
  | _ => True

variable {fs searched_str}

@[simp] theorem Worker.held_unblock (w : Worker) :
    w.unblock.held fs searched_str k = w.held fs searched_str k := by cases w <;> rfl

theorem Worker.clean_unblock {w : Worker} (h : w.Clean fs k) : w.unblock.Clean fs k := by
  cases w <;> exact h

theorem worthOf_eq (directory : Path) (names : List Name) :
    worthOf fs searched_str k directory names =
      ((subdirectoriesOf fs directory names).map (worthBelow fs searched_str k)).sum +
        (0, (names.countP (isMatch fs searched_str directory) : ℤ)) := by
  induction names with
  | nil => rfl
  | cons d_name names ih =>
    have hsub : ((subdirectoriesOf fs directory (d_name :: names)).map
        (worthBelow fs searched_str k)).sum =
        (if isSubdirectory fs directory d_name then
          worthBelow fs searched_str k (join directory d_name) else 0) +
        ((subdirectoriesOf fs directory names).map (worthBelow fs searched_str k)).sum := by
      rw [subdirectoriesOf, List.filter_cons]
      split
      · rw [List.map_cons, List.map_cons, List.sum_cons]
        rfl
      · rw [zero_add]
        rfl
    have hcount : ((0 : Multiset Path),
        ((d_name :: names).countP (isMatch fs searched_str directory) : ℤ)) =
        (0, if isMatch fs searched_str directory d_name then 1 else 0) +
          (0, (names.countP (isMatch fs searched_str directory) : ℤ)) := by
      rw [List.countP_cons, Prod.mk_add_mk, add_zero, add_comm]
      push_cast
      rfl
    rw [worthOf, List.map_cons, List.sum_cons, ← worthOf, ih, hsub, hcount, worthOfEntry]
    abel

theorem worthBelow_eq (h : Searchable fs k p) :
    worthBelow fs searched_str k p =
      ({p}, 0) + worthOf fs searched_str k p ((fs.opendir p).getD []) := by
  have hown : worth fs searched_str p =
      ({p}, 0) + (0, (((fs.opendir p).getD []).countP (isMatch fs searched_str p) : ℤ)) := by
    rw [Prod.mk_add_mk, add_zero, zero_add]
    rfl
  rw [worthBelow, directories, sum_nodes _ h.bounded, hown, worthOf_eq, add_assoc, add_comm (0, _)]
  rfl

/-! ## Worth is kept -/

/-- What has been found. -/
def State.found (s : State n) : Multiset Path × ℤ := (s.dequeued, s.counter)

variable (fs searched_str) in
/-- The worth of what waits in the queue. -/
def State.queued (k : ℕ) (s : State n) : Multiset Path × ℤ :=
  (s.directories_queue.map (worthBelow fs searched_str k)).sum

variable (fs original_directory searched_str) in
/-- What has been found and what is held are worth the tree, once main has enqueued its root. -/
def Balanced (k : ℕ) (s : State n) : Prop :=
  s.found + s.queued fs searched_str k + ∑ i, (s.worker i).held fs searched_str k =
    if s.main = .enqueuing then 0 else worthBelow fs searched_str k original_directory

variable (fs) in
/-- Nothing has failed, and everything that is waiting can be searched. -/
structure Clean (k : ℕ) (s : State n) : Prop where
  queue : ∀ p ∈ s.directories_queue, Searchable fs k p
  worker : ∀ i, (s.worker i).Clean fs k
  failed : s.failed = []

variable (fs searched_str) in
/-- A worker that goes from `v` to `w` meets no error and loses nothing. -/
structure Searches (k : ℕ) (s t : State n) (v w : Worker) : Prop where
  queue : ∀ p ∈ t.directories_queue, Searchable fs k p
  worker : w.Clean fs k
  failed : t.failed = []
  worth : t.found + t.queued fs searched_str k + w.held fs searched_str k =
    s.found + s.queued fs searched_str k + v.held fs searched_str k

/-- What `lstat` finds of an entry decides what happens to it. -/
theorem Scan.examine_worth {scan : Scan} {d_name : Name} {rest : List Name} {empty_queue : Bool}
    (hres : scan.res = false)
    (he : Entries fs (Searchable fs k) scan.directory (d_name :: rest))
    (hw : scan.examine fs searched_str d_name rest empty_queue = some w) :
    w.Clean fs k ∧ w.held fs searched_str k =
      worthOf fs searched_str k scan.directory (d_name :: rest) := by
  obtain ⟨hfits, st_mode, hl, hdir⟩ := he d_name (List.mem_cons_self ..)
  have hrest : Entries fs (Searchable fs k) scan.directory rest :=
    fun d hd => he d (List.mem_cons_of_mem _ hd)
  rw [worthOf, List.map_cons, List.sum_cons, ← worthOf, worthOfEntry, isSubdirectory, isMatch, hl]
  unfold Scan.examine at hw
  simp only [hl, if_neg (Nat.not_le.mpr hfits)] at hw
  split_ifs at hw with hdots hisdir hmatch <;> cases hw
  · refine ⟨⟨hres, hrest⟩, ?_⟩
    simp [Worker.held, hdots]
  · refine ⟨⟨⟨hres, hrest⟩, hdir hdots hisdir⟩, ?_⟩
    simp [Worker.held, hdots, hisdir]
  · refine ⟨⟨hres, hrest⟩, ?_⟩
    simp [Worker.held, hdots, hisdir, hmatch]
  · refine ⟨⟨hres, hrest⟩, ?_⟩
    simp [Worker.held, hdots, hisdir, hmatch]

/-- Nothing that is worth something changes. -/
theorem Clean.same (h : Clean fs k s) (hb : SameBooks s t) (hc : t.counter = s.counter)
    (hw : w.Clean fs k) (hheld : w.held fs searched_str k = v.held fs searched_str k) :
    Searches fs searched_str k s t v w where
  queue p hp := h.queue p (hb.queue ▸ hp)
  worker := hw
  failed := hb.failed.trans h.failed
  worth := by
    rw [hheld, State.found, State.queued, hb.dequeued, hb.queue, hc]
    rfl

/-- The worth of a directory that is taken from the queue is that of its entries and its own. -/
theorem take_searches (h : Clean fs k s) {d : Path} {rest : List Path}
    (hq : s.directories_queue = d :: rest) :
    Searches fs searched_str k s ({ s with
      directories_queue := rest
      dequeued := s.dequeued ++ [d] }.move i (.opening d)) .dequeuing (.opening d) := by
  have hsd : Searchable fs k d := h.queue d (by rw [hq]; exact List.mem_cons_self ..)
  refine ⟨fun p hp => h.queue p ?_, hsd, h.failed, ?_⟩
  · rw [hq]
    exact List.mem_cons_of_mem _ hp
  · have hfound : State.found ({ s with
        directories_queue := rest, dequeued := s.dequeued ++ [d] }.move i (.opening d)) =
        s.found + ({d}, 0) := by
      rw [State.found, State.found, Prod.mk_add_mk, add_zero]
      rfl
    have hqueued : s.queued fs searched_str k =
        ({d}, 0) + worthOf fs searched_str k d ((fs.opendir d).getD []) +
          (rest.map (worthBelow fs searched_str k)).sum := by
      rw [State.queued, hq, List.map_cons, List.sum_cons, worthBelow_eq hsd]
    rw [hfound, hqueued]
    show s.found + ({d}, 0) + (rest.map (worthBelow fs searched_str k)).sum +
      worthOf fs searched_str k d ((fs.opendir d).getD []) = _ + 0
    abel

theorem enqueue_searches (h : Clean fs k s) {scan : Scan} {d : Path} {b : Bool}
    (hclean : (Worker.enqueuing scan d b).Clean fs k) :
    Searches fs searched_str k s ((enQueue s d).move i (.announcing scan b))
      (.enqueuing scan d b) (.announcing scan b) := by
  refine ⟨fun p hp => ?_, hclean.1, h.failed, ?_⟩
  · rcases List.mem_append.mp hp with hp | hp
    · exact h.queue p hp
    · rw [List.mem_singleton.mp hp]
      exact hclean.2
  · have hqueued : State.queued fs searched_str k ((enQueue s d).move i (.announcing scan b)) =
        s.queued fs searched_str k + worthBelow fs searched_str k d := by
      show ((s.directories_queue ++ [d]).map (worthBelow fs searched_str k)).sum = _
      rw [List.map_append, List.sum_append, List.map_singleton, List.sum_singleton]
      rfl
    rw [hqueued, add_assoc, add_assoc, ← add_assoc _ (worthBelow fs searched_str k d)]
    show s.found + _ = _
    rw [Worker.held, Worker.held]
    abel

theorem worker_searches {stack : BitVec 32} (h : Clean fs k s)
    (hrun : s.run_ended = true → (s.worker i).directory = none)
    (hs : workerStep fs searched_str s i stack = some t) :
    ∃ w, Goes s t i w ∧ Searches fs searched_str k s t (s.worker i) w := by
  have hclean := h.worker i
  have hmove := worker_move hs
  generalize s.worker i = v at hmove hclean hrun ⊢
  cases hmove with
  | start | head | pass =>
    exact ⟨_, .of_update rfl, h.same ⟨rfl, rfl, rfl, rfl, rfl⟩ rfl (by split <;> trivial)
      (by split <;> rfl)⟩
  | take hq => exact ⟨_, .of_update rfl, take_searches h hq⟩
  | fail hopen =>
    obtain ⟨names, hopen', _⟩ := Searchable.opendir hclean
    rw [hopen] at hopen'
    cases hopen'
  | enter hopen =>
    obtain ⟨names, hopen', hentries⟩ := Searchable.opendir hclean
    obtain rfl := Option.some.inj (hopen.symm.trans hopen')
    refine ⟨_, .of_update rfl, h.same ⟨rfl, rfl, rfl, rfl, rfl⟩ rfl ⟨rfl, hentries⟩ ?_⟩
    rw [Worker.held, Worker.held, hopen]
    rfl
  | @examine scan d_name rest w _ he hw =>
    obtain ⟨hres, hentries⟩ := hclean
    rw [he] at hentries
    obtain ⟨hclean', hheld⟩ := Scan.examine_worth hres hentries hw
    refine ⟨w, .of_update rfl, h.same ⟨rfl, rfl, rfl, rfl, rfl⟩ rfl hclean' ?_⟩
    rw [hheld, ← he]
    rfl
  | @finish scan hend =>
    have he : scan.entries = [] := hend.resolve_left fun hr => by cases hrun hr
    rw [hclean.1]
    refine ⟨.loopHead, .of_update rfl, h.queue, trivial, h.failed, ?_⟩
    rw [Worker.held, he]
    rfl
  | enqueue => exact ⟨_, .of_update rfl, enqueue_searches h hclean⟩
  | @count scan _ =>
    refine ⟨_, .of_update rfl, h.queue, hclean, h.failed, ?_⟩
    have hfound : State.found ({ s with counter := s.counter + 1 }.move i (.scanning scan)) =
        s.found + (0, 1) := by
      rw [State.found, State.found, Prod.mk_add_mk, add_zero]
      rfl
    rw [hfound, Worker.held, Worker.held]
    show _ + s.queued fs searched_str k + _ = _
    abel
  | announce =>
    exact ⟨_, .broadcast (by rfl) _ i _, h.same ⟨rfl, rfl, rfl, rfl, rfl⟩ rfl hclean rfl⟩
  | yield =>
    exact ⟨_, .of_update rfl, h.same ⟨rfl, rfl, rfl, rfl, rfl⟩ rfl hclean rfl⟩
  | doze =>
    exact ⟨_, .broadcast (by rfl) _ i _, h.same ⟨rfl, rfl, rfl, rfl, rfl⟩ rfl trivial rfl⟩
  | starve | sleep | rise =>
    exact ⟨_, .of_update rfl, h.same ⟨rfl, rfl, rfl, rfl, rfl⟩ rfl trivial rfl⟩
  | err => cases hclean

theorem Balanced.goes (h : Balanced fs original_directory searched_str k s) (hg : Goes s t i w)
    (hm : t.main = s.main ∨ t.main = s.main.unblock)
    (hw : Searches fs searched_str k s t (s.worker i) w) :
    Balanced fs original_directory searched_str k t := by
  have hsum := hg.sum (g := Worker.held fs searched_str k) Worker.held_unblock
  have hmain : t.main = .enqueuing ↔ s.main = .enqueuing := by
    refine ⟨main_of_unblock hm (by simp), fun he => ?_⟩
    rcases hm with hm | hm <;> rw [hm, he]
    rfl
  have hcancel : t.found + t.queued fs searched_str k + ∑ j, (t.worker j).held fs searched_str k +
      (s.worker i).held fs searched_str k =
      s.found + s.queued fs searched_str k + ∑ j, (s.worker j).held fs searched_str k +
        (s.worker i).held fs searched_str k := by
    rw [add_assoc, hsum, add_comm (∑ j, (s.worker j).held fs searched_str k), ← add_assoc, hw.worth]
    abel
  unfold Balanced at *
  simp only [hmain]
  rw [← h]
  exact add_right_cancel hcancel

theorem Clean.goes (h : Clean fs k s) (hg : Goes s t i w)
    (hw : Searches fs searched_str k s t (s.worker i) w) : Clean fs k t :=
  ⟨hw.queue, hg.forall (fun _ => Worker.clean_unblock) h.worker hw.worker, hw.failed⟩

/-! ## The other threads -/

theorem Worker.held_of_early {w : Worker} (h : w.early = true) :
    w.held fs searched_str k = 0 := by
  cases w <;> first | rfl | cases h

variable (fs searched_str k) in
theorem main_held (h : Sound s) (hs : mainStep original_directory s = some t) (j : Fin n) :
    (t.worker j).held fs searched_str k = (s.worker j).held fs searched_str k := by
  rcases main_workers hs j with he | he | ⟨hm, he⟩ <;> rw [he]
  · exact Worker.held_unblock _
  · rw [Worker.held_of_early (h.early hm j)]
    rfl

theorem Clean.main (h : Clean fs k s) (hroot : Searchable fs k original_directory)
    (hs : mainStep original_directory s = some t) : Clean fs k t := by
  have hworker : ∀ j, (t.worker j).Clean fs k := by
    intro j
    rcases main_workers hs j with he | he | ⟨_, he⟩ <;> rw [he]
    · exact h.worker j
    · exact Worker.clean_unblock (h.worker j)
    · trivial
  rcases main_books hs with ⟨_, rfl⟩ | ⟨_, hb, _⟩
  · refine ⟨fun p hp => ?_, hworker, h.failed⟩
    rcases List.mem_append.mp hp with hp | hp
    · exact h.queue p hp
    · rwa [List.mem_singleton.mp hp]
  · exact ⟨fun p hp => h.queue p (hb.queue ▸ hp), hworker, hb.failed.trans h.failed⟩

theorem Balanced.main (h : Balanced fs original_directory searched_str k s) (hsound : Sound s)
    (hs : mainStep original_directory s = some t) :
    Balanced fs original_directory searched_str k t := by
  have hheld := main_held fs searched_str k hsound hs
  unfold Balanced at *
  simp only [hheld]
  rcases main_books hs with ⟨hm, rfl⟩ | ⟨hm, hb, hc⟩
  · rw [if_pos hm] at h
    rw [if_neg (by simp)]
    have hqueued : State.queued fs searched_str k
        { enQueue s original_directory with main := .creating 0 } =
          s.queued fs searched_str k + worthBelow fs searched_str k original_directory := by
      show ((s.directories_queue ++ [original_directory]).map (worthBelow fs searched_str k)).sum = _
      rw [List.map_append, List.sum_append, List.map_singleton, List.sum_singleton]
      rfl
    rw [hqueued, ← add_assoc, add_right_comm]
    show s.found + s.queued fs searched_str k + _ + _ = _
    rw [h, zero_add]
  · rw [if_neg hm] at h
    rw [if_neg (main_ne_enqueuing hs), ← h, State.found, State.queued, hb.dequeued, hb.queue, hc]
    rfl

theorem Clean.wakes (h : Clean fs k s) (hw : Wakes s t) : Clean fs k t := by
  refine ⟨fun p hp => h.queue p (hw.books.queue ▸ hp), fun j => ?_, hw.books.failed.trans h.failed⟩
  rcases hw.worker j with he | he <;> rw [he]
  · exact h.worker j
  · exact Worker.clean_unblock (h.worker j)

theorem Balanced.wakes (h : Balanced fs original_directory searched_str k s) (hw : Wakes s t) :
    Balanced fs original_directory searched_str k t := by
  have hheld := hw.apply (g := Worker.held fs searched_str k) Worker.held_unblock
  have hmain : t.main = .enqueuing ↔ s.main = .enqueuing := by
    refine ⟨main_of_unblock hw.main (by simp), fun he => ?_⟩
    rcases hw.main with hm | hm <;> rw [hm, he]
    rfl
  unfold Balanced at *
  simp only [hheld, hmain]
  rw [← h, State.found, State.queued, hw.books.dequeued, hw.books.queue, hw.counter]
  rfl

/-! ## Runs without errors -/

variable (fs original_directory searched_str) in
/-- What holds at every point of a search without errors. -/
structure Searching (k : ℕ) (s : State n) : Prop where
  sound : Sound s
  attended : Attended s
  informed : Informed s
  clean : Clean fs k s
  balanced : Balanced fs original_directory searched_str k s

theorem Worker.Clean.not_errored {w : Worker} (h : w.Clean fs k) :
    w.errored = false ∧ w ≠ .erring := by
  cases w <;> first | exact h.elim | exact ⟨rfl, by simp⟩

theorem Clean.handsOver (h : Clean fs k s) (e : Event n) : HandsOver s e := by
  cases e with
  | worker i stack => exact fun hv => absurd hv (h.worker i).not_errored.2
  | main | signal | spurious => trivial

theorem Clean.done (h : Clean fs k s) (hn : 0 < n) (hs : Settled s) : Done s := by
  refine hs.resolve_right fun hall => ?_
  have he := hall ⟨0, hn⟩
  rw [(h.worker ⟨0, hn⟩).not_errored.1] at he
  cases he

theorem Searching.done (h : Searching fs original_directory searched_str k s) (hn : 0 < n)
    (hleft : s.main.hasLeft = true) : Done s := by
  refine h.clean.done hn (h.informed ?_)
  cases hm : s.main <;> rw [hm] at hleft <;> trivial

theorem Searching.step (h : Searching fs original_directory searched_str k s)
    (hroot : Searchable fs k original_directory)
    (hs : step fs original_directory searched_str s e = some t) :
    Searching fs original_directory searched_str k t := by
  have hkeep := h.clean.handsOver e
  have hcb : Clean fs k t ∧ Balanced fs original_directory searched_str k t := by
    have hs' := hs
    replace hs' := step_cases hs'
    cases hs' with
    | main hs' => exact ⟨h.clean.main hroot hs', h.balanced.main h.sound hs'⟩
    | worker i stack hs' =>
      have hrun : s.run_ended = true → (s.worker i).directory = none := by
        intro hrun
        refine (h.done i.pos ?_).2 i
        rw [h.sound.run_ended] at hrun
        cases hm : s.main <;> rw [hm] at hrun <;> first | rfl | cases hrun
      obtain ⟨w, hg, hw⟩ := worker_searches h.clean hrun hs'
      obtain ⟨_, _, ht⟩ := worker_turn hs'
      exact ⟨h.clean.goes hg hw, h.balanced.goes hg ht.main hw⟩
    | signal i waiter hs' =>
      have hv := (signal_turn hs').signalling
      have hc := h.clean.worker i
      rw [hv] at hc
      cases hc
    | spurious thread hs' =>
      have hw := spurious_wakes hs'
      exact ⟨h.clean.wakes hw, h.balanced.wakes hw⟩
  exact ⟨h.sound.step hs, h.attended.step h.sound hkeep hs,
    h.informed.step h.sound h.attended hkeep hs, hcb.1, hcb.2⟩

theorem searching_initial : Searching fs original_directory searched_str k (State.initial n) where
  sound := sound_initial
  attended hne := absurd rfl hne
  informed hc := hc.elim
  clean := ⟨by simp [State.initial], fun _ => trivial, rfl⟩
  balanced := by
    have hzero : ∑ i, ((State.initial n).worker i).held fs searched_str k = 0 :=
      Finset.sum_eq_zero fun _ _ => rfl
    rw [Balanced, hzero]
    rfl

theorem searching_of_reachable (hroot : Searchable fs k original_directory)
    (h : (pfind fs original_directory searched_str n).Reachable s) :
    Searching fs original_directory searched_str k s := by
  refine h.invariant (fun s hs => ?_) fun s e t hi hs => hi.step hroot hs
  rw [show s = State.initial n from hs]
  exact searching_initial

/-- The worth of a tree: its directories, and its matches. -/
theorem worthBelow_eq_directories (k : ℕ) (p : Path) :
    worthBelow fs searched_str k p =
      (↑(directories fs k p), (matchesBelow fs searched_str k p : ℤ)) := by
  rw [worthBelow, matchesBelow]
  generalize directories fs k p = l
  induction l with
  | nil => rfl
  | cons d l ih =>
    rw [List.map_cons, List.sum_cons, ih, worth, Prod.mk_add_mk, List.map_cons, List.sum_cons]
    push_cast
    rfl

theorem Searching.counter_eq (h : Searching fs original_directory searched_str k s) (hn : 0 < n)
    (hleft : s.main.hasLeft = true) :
    s.counter = matchesBelow fs searched_str k original_directory := by
  obtain ⟨hq, hd⟩ := h.done hn hleft
  have hheld : ∀ i, (s.worker i).held fs searched_str k = 0 := by
    intro i
    have hdir := hd i
    cases hv : s.worker i <;> rw [hv] at hdir <;> first | rfl | cases hdir
  have hm : s.main ≠ .enqueuing := by
    intro hm
    rw [hm] at hleft
    cases hleft
  have hb := h.balanced
  rw [Balanced, if_neg hm, State.queued, hq, worthBelow_eq_directories] at hb
  simpa [hheld, State.found] using congrArg Prod.snd hb

/-- In every run on a tree of at most `k` levels on which no call fails: when main has left its loop
the queue is empty, nobody scans, every directory has been taken from the queue and scanned once,
and `counter` is the number of matches. -/
theorem search_is_complete (hroot : Searchable fs k original_directory) (hn : 0 < n)
    (h : (pfind fs original_directory searched_str n).Reachable s) (hleft : s.main.hasLeft = true) :
    (s.directories_queue = [] ∧ ∀ i, (s.worker i).directory = none) ∧
      (directories fs k original_directory).Nodup ∧
      s.dequeued.Perm (directories fs k original_directory) ∧
      s.scanned.Perm (directories fs k original_directory) ∧
      s.counter = matchesBelow fs searched_str k original_directory := by
  have hsearch := searching_of_reachable hroot h
  have hbooks := books_of_reachable h
  obtain ⟨hq, hd⟩ := hsearch.done hn hleft
  have hheld : ∀ i, (s.worker i).held fs searched_str k = 0 := by
    intro i
    have := hd i
    cases hv : s.worker i <;> rw [hv] at this <;> first | rfl | cases this
  have hinHand : ∀ i, (s.worker i).inHand = 0 := fun i => by rw [Worker.inHand, hd i]
  have hm : s.main ≠ .enqueuing := by
    intro hm
    rw [hm] at hleft
    cases hleft
  have hfound : s.found = worthBelow fs searched_str k original_directory := by
    have hb := hsearch.balanced
    rw [Balanced, if_neg hm, State.queued, hq] at hb
    simpa [hheld] using hb
  rw [worthBelow_eq_directories] at hfound
  obtain ⟨hdequeued, hcounter⟩ := Prod.mk.inj hfound
  have hscanned : (s.scanned : Multiset Path) = s.dequeued := by
    have hb := hbooks.hands
    rw [State.finished, hsearch.clean.failed] at hb
    simpa [hinHand] using hb.symm
  refine ⟨⟨hq, hd⟩, directories_nodup .., Multiset.coe_eq_coe.mp hdequeued,
    Multiset.coe_eq_coe.mp (hscanned.trans hdequeued), hcounter⟩

/-- `d` has the entries `.`, `..`, `a` and `b`, and the directory `a` has the entry `bc`. -/
def sampleFolder : FileSystem :=
  .ofTables [([100], [[46], [46, 46], [97], [98]]), ([100, 47, 97], [[98, 99]])]
    [([100, 47, 46], 0o040755#32), ([100, 47, 46, 46], 0o040755#32), ([100, 47, 97], 0o040755#32),
      ([100, 47, 98], 0o100644#32), ([100, 47, 97, 47, 98, 99], 0o100644#32)] (by decide)

theorem search_is_complete_sample :
    ∃ s, (pfind sampleFolder [100] [98] 2).Reachable s ∧ s.main.hasLeft = true ∧
      s.scanned.Perm [[100], [100, 47, 97]] ∧ s.counter = 2 := by
  have hrun : (Machine.perform (step sampleFolder [100] [98]) (.initial 2)
      (mainSteps 8 ++ workerSteps 4 ++ otherSteps 5 ++ workerSteps 21 ++ mainSteps 5)).map
        (fun s => s.main.hasLeft) = some true := by decide +kernel
  obtain ⟨s, hs, hleft⟩ := Option.map_eq_some_iff.mp hrun
  have hreach : (pfind sampleFolder [100] [98] 2).Reachable s := ⟨_, Machine.run_ofFun.mpr hs⟩
  have hroot : Searchable sampleFolder 2 [100] := by decide +kernel
  obtain ⟨_, _, _, hscanned, hcounter⟩ :=
    search_is_complete hroot (by decide) hreach hleft
  have hdirs : directories sampleFolder 2 [100] = [[100], [100, 47, 97]] := by decide +kernel
  have hmatches : matchesBelow sampleFolder [98] 2 [100] = 2 := by decide +kernel
  rw [hdirs] at hscanned
  rw [hmatches] at hcounter
  exact ⟨s, hreach, hleft, hscanned, hcounter⟩

end OsCourse.Pfind
