import OsCourse.Pfind.Buffers
import OsCourse.Pfind.Search

/-! # What a search prints

`folder_scan` prints the path of a match after it has counted it and given the lock back, so that
the output is written by many threads, behind the counter. Whatever fails, and in whatever
order the threads go on: the path of an entry is formed once, so no line is printed twice.
-/

namespace OsCourse.Pfind
open Foundations

/-- The search with its output: what each worker has in `result`, who has still to print it, and
the lines that are printed. -/
structure Console (threads_limit : ℕ) where
  search : State threads_limit
  result : Fin threads_limit → Path
  printing : Fin threads_limit → Bool
  printed : List Path

/-- A step of the search, or the `printf` of worker `i`. -/
inductive Output (threads_limit : ℕ) where
  | search (e : Event threads_limit)
  | print (i : Fin threads_limit)

variable {n : ℕ}

def Console.initial (n : ℕ) : Console n where
  search := .initial n
  result _ := []
  printing _ := false
  printed := []

/-- The path that a step of `folder_scan` puts together in `result`. -/
def Worker.forms (run_ended : Bool) : Worker → Option Path
  | .scanning scan =>
    match run_ended, scan.entries with
    | false, d_name :: _ => some (join scan.directory d_name)
    | _, _ => none
  | _ => none

/-- Between `lstat` and the increment of `counter`. -/
def Worker.counts : Worker → Bool
  | .counting _ => true
  | _ => false

variable (fs : FileSystem) (original_directory : Path) (searched_str : Name)

/-- Worker `i` has taken a step of the search. -/
def Console.after (c : Console n) (i : Fin n) (t : State n) : Console n :=
  { c with
    search := t
    result := Function.update c.result i
      (((c.search.worker i).forms c.search.run_ended).getD (c.result i))
    printing := Function.update c.printing i (c.search.worker i).counts }

/-- Worker `i` prints the path that is in `result`. -/
def Console.print (c : Console n) (i : Fin n) : Console n :=
  { c with
    printing := Function.update c.printing i false
    printed := c.printed ++ [c.result i] }

def Console.step (c : Console n) : Output n → Option (Console n)
  | .search e =>
    match e with
    | .worker i stack =>
      if c.printing i then none
      else (Pfind.step fs original_directory searched_str c.search (.worker i stack)).map (c.after i)
    | e => (Pfind.step fs original_directory searched_str c.search e).map
        fun t => { c with search := t }
  | .print i =>
    if c.printing i ∧ ¬ c.search.main.hasExited then some (c.print i) else none

/-- `pfind` with its output. -/
def printing (threads_limit : ℕ) : Machine (Console threads_limit) (Output threads_limit) :=
  .ofFun (.initial threads_limit) (Console.step fs original_directory searched_str)

/-! ## The tree of all paths -/

/-- The path of an entry, of whatever kind, and all paths that could be formed below it. -/
def tree (p : Path) : Multiset Path := ↑(nodes (entriesOf fs) (PATH_MAX + 1) p)

def treeOf (directory : Path) (names : List Name) : Multiset Path :=
  (names.map fun d_name => tree fs (join directory d_name)).sum

/-- The paths that a worker may still form, or put into the queue. -/
def Worker.ahead : Worker → Multiset Path
  | .opening directory => treeOf fs directory ((fs.opendir directory).getD [])
  | .scanning scan | .announcing scan _ | .yielding scan _ | .counting scan =>
    treeOf fs scan.directory scan.entries
  | .enqueuing scan new_directory _ =>
    tree fs new_directory + treeOf fs scan.directory scan.entries
  | _ => 0

/-- A path that is owed, or nothing. -/
def owed (owes : Bool) (p : Path) : Multiset Path := if owes then {p} else 0

/-- The path that worker `i` has counted, or is about to, and has not printed. -/
def Console.due (c : Console n) (i : Fin n) : Multiset Path :=
  owed (c.printing i || (c.search.worker i).counts) (c.result i)

/-- The path of an entry of a directory that the search comes to. Its name matches, and it is no
directory as far as `lstat` can tell. -/
def Shown (p : Path) : Prop :=
  ∃ directory names d_name, Entered fs original_directory directory ∧
    fs.opendir directory = some names ∧ d_name ∈ names ∧ p = join directory d_name ∧
    ¬ IsDots d_name ∧ searched_str <:+: d_name ∧
    ∀ st_mode, fs.lstat p = some st_mode → ¬ S_ISDIR st_mode

/-- The matches of a tree of at most `k` levels. -/
def matchingPaths (k : ℕ) (p : Path) : List Path :=
  (directories fs k p).flatMap fun d =>
    (((fs.opendir d).getD []).filter (isMatch fs searched_str d)).map (join d)

/-- In the loop over the entries, between two of them. -/
def Worker.scans : Worker → Bool
  | .scanning _ => true
  | _ => false

/-- Who prints has counted, the counter is ahead of the output by those who have still to print, and
only matches are printed. -/
structure Told (c : Console n) : Prop where
  scanning : ∀ i, c.printing i = true → (c.search.worker i).scans = true
  counter : c.search.counter = c.printed.length + census id c.printing
  printed : ∀ p ∈ c.printed, Shown fs original_directory searched_str p
  due : ∀ i, ∀ p ∈ c.due i, Shown fs original_directory searched_str p

/-- Every path of the tree is formed, taken from the queue or printed at most once. -/
def Thrifty (c : Console n) : Prop :=
  (c.search.dequeued : Multiset Path) + c.printed + (c.search.directories_queue.map (tree fs)).sum +
      ∑ i, (c.due i + (c.search.worker i).ahead fs) ≤
    if c.search.main = .enqueuing then 0 else tree fs original_directory

variable {fs original_directory searched_str} {c c' : Console n} {s t : State n} {i : Fin n}
  {v w : Worker} {e : Event n} {o : Output n} {p : Path} {k : ℕ}

theorem tree_eq (p : Path) : tree fs p = {p} + treeOf fs p ((fs.opendir p).getD []) := by
  have hcoe : ∀ l : List Path, (l.map (tree fs)).sum =
      ↑(l.flatMap (nodes (entriesOf fs) (PATH_MAX + 1))) := by
    intro l
    induction l with
    | nil => rfl
    | cons q l ih =>
      rw [List.map_cons, List.sum_cons, ih, List.flatMap_cons, ← Multiset.coe_add, tree]
  have hbounded := bounded_entriesOf fs (Nat.le_add_left PATH_MAX p.length)
  have hmap : treeOf fs p ((fs.opendir p).getD []) = ((entriesOf fs p).map (tree fs)).sum := by
    rw [treeOf, entriesOf, List.map_map]
    rfl
  rw [hmap, hcoe, tree, nodes_eq hbounded]
  rfl

theorem treeOf_cons (directory : Path) (d_name : Name) (names : List Name) :
    treeOf fs directory (d_name :: names) =
      tree fs (join directory d_name) + treeOf fs directory names := by
  rw [treeOf, List.map_cons, List.sum_cons]
  rfl

variable (fs) in
theorem singleton_le_tree (p : Path) : {p} ≤ tree fs p := by
  rw [tree_eq]
  exact Multiset.le_add_right ..

@[simp] theorem Worker.ahead_unblock (w : Worker) : w.unblock.ahead fs = w.ahead fs := by
  cases w <;> rfl

@[simp] theorem Worker.counts_unblock (w : Worker) : w.unblock.counts = w.counts := by
  cases w <;> rfl

theorem Worker.ahead_of_early {w : Worker} (h : w.early = true) : w.ahead fs = 0 := by
  cases w <;> first | rfl | cases h

theorem Worker.counts_of_early {w : Worker} (h : w.early = true) : w.counts = false := by
  cases w <;> first | rfl | cases h

/-! ## What a step uses -/

/-- The path that is formed is used for one thing, or for nothing. -/
theorem Scan.examine_ahead {scan : Scan} {d_name : Name} {rest : List Name} {empty_queue : Bool}
    (he : scan.entries = d_name :: rest)
    (hw : scan.examine fs searched_str d_name rest empty_queue = some w) :
    owed w.counts (join scan.directory d_name) + w.ahead fs ≤
      (Worker.scanning scan).ahead fs := by
  have hrest := singleton_le_tree fs (join scan.directory d_name)
  rw [Worker.ahead, he, treeOf_cons]
  unfold Scan.examine at hw
  dsimp only at hw
  split at hw
  · cases hw
  · cases hl : fs.lstat (join scan.directory d_name) <;> rw [hl] at hw <;> dsimp only at hw <;>
      split_ifs at hw <;> cases hw <;> simp only [owed, Worker.counts, Worker.ahead,
        zero_add, Bool.false_eq_true, if_false, if_true, le_refl] <;>
      first
        | exact Multiset.le_add_left ..
        | exact add_le_add_left hrest _

variable (fs) in
/-- What worker `i` has used up, and what it has ahead, in its step to `t`. -/
structure Uses (s t : State n) (i : Fin n) (v w : Worker) (result : Path) : Prop where
  goes : Goes s t i w
  used : (t.dequeued : Multiset Path) + (t.directories_queue.map (tree fs)).sum +
      (owed (v.counts || w.counts) ((v.forms s.run_ended).getD result) + w.ahead fs) ≤
    s.dequeued + (s.directories_queue.map (tree fs)).sum + (owed v.counts result + v.ahead fs)

/-- A step that leaves the queue alone. -/
theorem uses_same {result : Path} (hg : Goes s t i w) (hq : t.directories_queue = s.directories_queue)
    (hd : t.dequeued = s.dequeued)
    (h : owed (v.counts || w.counts) ((v.forms s.run_ended).getD result) + w.ahead fs ≤
      owed v.counts result + v.ahead fs) : Uses fs s t i v w result := by
  refine ⟨hg, ?_⟩
  rw [hq, hd]
  exact add_le_add_right h _

/-- A worker that has nothing ahead. -/
theorem uses_nothing {result : Path} (hg : Goes s t i w)
    (hq : t.directories_queue = s.directories_queue) (hd : t.dequeued = s.dequeued)
    (hv : v.counts = false) (hw : w.counts = false) (hahead : w.ahead fs = 0) :
    Uses fs s t i v w result := by
  refine uses_same hg hq hd ?_
  rw [hv, hw, hahead]
  exact Multiset.zero_le _

theorem scanReturns_uses (hv : v.counts = false) (d : Path) (res : Bool) (result : Path) :
    ∃ w, Uses fs s (s.scanReturns i d res) i v w result := by
  cases res with
  | true => exact ⟨.erring, uses_nothing (.of_update rfl) rfl rfl hv rfl rfl⟩
  | false => exact ⟨.loopHead, uses_nothing (.of_update rfl) rfl rfl hv rfl rfl⟩

theorem worker_uses {stack : BitVec 32} (result : Path)
    (hs : workerStep fs searched_str s i stack = some t) :
    ∃ w, Uses fs s t i (s.worker i) w result := by
  have hmove := worker_move hs
  generalize s.worker i = v at hmove ⊢
  cases hmove with
  | start | head | pass =>
    exact ⟨_, uses_nothing (.of_update rfl) rfl rfl rfl (by split <;> rfl) (by split <;> rfl)⟩
  | @take d rest hq =>
    refine ⟨.opening d, .of_update rfl, ?_⟩
    rw [hq, List.map_cons, List.sum_cons, tree_eq]
    change ((s.dequeued ++ [d] : List Path) : Multiset Path) + (rest.map (tree fs)).sum +
      (0 + treeOf fs d ((fs.opendir d).getD [])) ≤ _ + (0 + 0)
    rw [← Multiset.coe_add, Multiset.coe_singleton]
    exact le_of_eq (by abel)
  | fail => exact scanReturns_uses rfl _ _ _
  | @enter d names hopen =>
    refine ⟨.scanning ⟨d, names, stack, false⟩, uses_same (.of_update rfl) rfl rfl ?_⟩
    change 0 + treeOf fs d names ≤ 0 + treeOf fs d ((fs.opendir d).getD [])
    rw [hopen, Option.getD_some]
  | @examine scan d_name rest w hrun he hw =>
    refine ⟨w, uses_same (.of_update rfl) rfl rfl ?_⟩
    have hforms : (Worker.scanning scan).forms s.run_ended = some (join scan.directory d_name) := by
      simp only [Worker.forms, hrun, he]
    rw [hforms, Option.getD_some]
    exact (Scan.examine_ahead he hw).trans (zero_add _).ge
  | finish => exact scanReturns_uses rfl _ _ _
  | @enqueue scan d b =>
    refine ⟨.announcing scan b, .of_update rfl, ?_⟩
    rw [enQueue]
    change _ + ((s.directories_queue ++ [d]).map (tree fs)).sum +
      (0 + treeOf fs scan.directory scan.entries) ≤
        _ + (0 + (tree fs d + treeOf fs scan.directory scan.entries))
    rw [List.map_append, List.sum_append, List.map_singleton, List.sum_singleton]
    exact le_of_eq (by
      change (s.dequeued : Multiset Path) + _ + _ = _
      abel)
  | announce => exact ⟨_, uses_same (.broadcast (by rfl) _ i _) rfl rfl le_rfl⟩
  | yield | count => exact ⟨_, uses_same (.of_update rfl) rfl rfl le_rfl⟩
  | doze => exact ⟨_, uses_nothing (.broadcast (by rfl) _ i _) rfl rfl rfl rfl rfl⟩
  | err | sleep | rise | starve =>
    exact ⟨_, uses_nothing (.of_update rfl) rfl rfl rfl rfl rfl⟩

/-! ## Steps with output -/

variable (fs original_directory searched_str) in
/-- What happens in a step: the search goes on, in a worker that has nothing to print or elsewhere,
or a worker prints. -/
inductive Moves (c : Console n) : Console n → Prop
  | main {t : State n} (hs : mainStep original_directory c.search = some t) :
      Moves c { c with search := t }
  | worker {i : Fin n} {stack : BitVec 32} {t : State n} (hp : c.printing i = false)
      (hs : workerStep fs searched_str c.search i stack = some t) : Moves c (c.after i t)
  | signal {i : Fin n} {waiter : Option (Thread n)} {t : State n}
      (hs : signalStep c.search i waiter = some t) : Moves c { c with search := t }
  | spurious {thread : Thread n} {t : State n} (hs : spuriousStep c.search thread = some t) :
      Moves c { c with search := t }
  | print {i : Fin n} (hp : c.printing i = true) : Moves c (c.print i)

/-- The search of a step with output is a step of the search, or stays as it is. -/
theorem console_cases (hs : c.step fs original_directory searched_str o = some c') :
    Moves fs original_directory searched_str c c' ∧
      (c'.search = c.search ∨
        ∃ e, step fs original_directory searched_str c.search e = some c'.search) := by
  cases o with
  | print i =>
    obtain ⟨hp, hs⟩ := Option.ite_none_right_eq_some.mp hs
    cases hs
    exact ⟨.print hp.1, Or.inl rfl⟩
  | search e =>
    cases e with
    | worker i stack =>
      obtain ⟨hp, hs⟩ := Option.ite_none_left_eq_some.mp hs
      obtain ⟨t, ht, rfl⟩ := Option.map_eq_some_iff.mp hs
      refine ⟨?_, Or.inr ⟨_, ht⟩⟩
      replace ht := step_cases ht
      cases ht with
      | worker i stack ht => exact .worker (by simpa using hp) ht
    | main =>
      obtain ⟨t, ht, rfl⟩ := Option.map_eq_some_iff.mp hs
      refine ⟨?_, Or.inr ⟨_, ht⟩⟩
      replace ht := step_cases ht
      cases ht with
      | main ht => exact .main ht
    | signal i waiter =>
      obtain ⟨t, ht, rfl⟩ := Option.map_eq_some_iff.mp hs
      refine ⟨?_, Or.inr ⟨_, ht⟩⟩
      replace ht := step_cases ht
      cases ht with
      | signal i waiter ht => exact .signal ht
    | spurious thread =>
      obtain ⟨t, ht, rfl⟩ := Option.map_eq_some_iff.mp hs
      refine ⟨?_, Or.inr ⟨_, ht⟩⟩
      replace ht := step_cases ht
      cases ht with
      | spurious thread ht => exact .spurious ht

theorem search_of_reachable (h : (printing fs original_directory searched_str n).Reachable c) :
    (pfind fs original_directory searched_str n).Reachable c.search := by
  refine h.invariant (I := fun c => (pfind fs original_directory searched_str n).Reachable c.search)
    (fun c hc => ?_) fun c o c' hi hs => ?_
  · rw [show c = Console.initial n from hc]
    exact ⟨[], .start rfl⟩
  · rcases (console_cases hs).2 with he | ⟨e, he⟩
    · rwa [he]
    · exact hi.step he

/-! ## Nothing is used twice -/

/-- What a worker owes depends only on whether it prints or counts, and on `result`. -/
theorem due_congr {j : Fin n} (hp : c'.printing j = c.printing j)
    (hw : (c'.search.worker j).counts = (c.search.worker j).counts)
    (hr : c'.result j = c.result j) : c'.due j = c.due j := by
  rw [Console.due, Console.due, hp, hw, hr]

theorem Thrifty.same (h : Thrifty fs original_directory c)
    (hm : t.main = .enqueuing ↔ c.search.main = .enqueuing)
    (hd : t.dequeued = c.search.dequeued) (hq : t.directories_queue = c.search.directories_queue)
    (hcounts : ∀ j, (t.worker j).counts = (c.search.worker j).counts)
    (hahead : ∀ j, (t.worker j).ahead fs = (c.search.worker j).ahead fs) :
    Thrifty fs original_directory { c with search := t } := by
  have hdue : ∀ j, Console.due { c with search := t } j = c.due j :=
    fun j => due_congr rfl (hcounts j) rfl
  unfold Thrifty at *
  simp only [hm, hd, hq, hdue, hahead]
  exact h

theorem Thrifty.main (h : Thrifty fs original_directory c) (hsound : Sound c.search)
    (hs : mainStep original_directory c.search = some t) :
    Thrifty fs original_directory { c with search := t } := by
  have hworker : ∀ j, (t.worker j).counts = (c.search.worker j).counts ∧
      (t.worker j).ahead fs = (c.search.worker j).ahead fs := by
    intro j
    rcases main_workers hs j with he | he | ⟨hm, he⟩ <;> rw [he]
    · exact ⟨rfl, rfl⟩
    · exact ⟨Worker.counts_unblock _, Worker.ahead_unblock _⟩
    · rw [Worker.counts_of_early (hsound.early hm j), Worker.ahead_of_early (hsound.early hm j)]
      exact ⟨rfl, rfl⟩
  rcases main_books hs with ⟨hm, rfl⟩ | ⟨hm, hb, _⟩
  · have hdue : ∀ j, Console.due { c with
        search := { enQueue c.search original_directory with main := .creating 0 } } j = c.due j :=
      fun j => due_congr rfl (hworker j).1 rfl
    unfold Thrifty at h ⊢
    simp only [hdue, (hworker _).2]
    rw [if_pos hm] at h
    rw [if_neg (by simp)]
    change _ + ((c.search.directories_queue ++ [original_directory]).map (tree fs)).sum + _ ≤ _
    rw [List.map_append, List.sum_append, List.map_singleton, List.sum_singleton]
    change (c.search.dequeued : Multiset Path) + c.printed + _ + _ ≤ _
    calc (c.search.dequeued : Multiset Path) + c.printed +
          ((c.search.directories_queue.map (tree fs)).sum + tree fs original_directory) +
          ∑ j, (c.due j + (c.search.worker j).ahead fs)
        = (c.search.dequeued : Multiset Path) + c.printed +
            (c.search.directories_queue.map (tree fs)).sum +
            ∑ j, (c.due j + (c.search.worker j).ahead fs) + tree fs original_directory := by abel
      _ ≤ 0 + tree fs original_directory := add_le_add_left h _
      _ = tree fs original_directory := zero_add _
  · exact h.same (iff_of_false (main_ne_enqueuing hs) hm) hb.dequeued hb.queue
      (fun j => (hworker j).1) fun j => (hworker j).2

theorem enqueuing_iff {m m' : MainThread} (h : m' = m ∨ m' = m.unblock) :
    m' = .enqueuing ↔ m = .enqueuing := by
  refine ⟨main_of_unblock h (by simp), fun he => ?_⟩
  rcases h with hm | hm <;> rw [hm, he]
  rfl

theorem Thrifty.worker {stack : BitVec 32} (h : Thrifty fs original_directory c)
    (hp : c.printing i = false) (hs : workerStep fs searched_str c.search i stack = some t) :
    Thrifty fs original_directory (c.after i t) := by
  obtain ⟨w, hg, hused⟩ := worker_uses (c.result i) hs
  have hmain := enqueuing_iff (worker_move hs).elsewhere.main
  have hself : (c.after i t).due i + (t.worker i).ahead fs =
      owed ((c.search.worker i).counts || w.counts)
        (((c.search.worker i).forms c.search.run_ended).getD (c.result i)) + w.ahead fs := by
    rw [Console.due, Console.after]
    dsimp only
    rw [Function.update_self, Function.update_self, hg.self]
  have hold : owed (c.search.worker i).counts (c.result i) = c.due i := by
    rw [Console.due, hp, Bool.false_or]
  have hothers : ∀ j ≠ i, (c.after i t).due j + (t.worker j).ahead fs =
      c.due j + (c.search.worker j).ahead fs := by
    intro j hj
    have hcounts : (t.worker j).counts = (c.search.worker j).counts := by
      rw [hg.apply Worker.counts_unblock, Function.update_of_ne hj]
    have hahead : (t.worker j).ahead fs = (c.search.worker j).ahead fs := by
      rw [hg.apply Worker.ahead_unblock, Function.update_of_ne hj]
    rw [hahead, due_congr (c := c) (Function.update_of_ne hj ..) hcounts
      (Function.update_of_ne hj ..)]
  have hsum := sum_of_eq_except hothers
  rw [hself] at hsum
  rw [hold] at hused
  unfold Thrifty at h ⊢
  simp only [show (c.after i t).search = t from rfl, show (c.after i t).printed = c.printed from rfl,
    hmain]
  refine le_trans (le_of_add_le_add_right
    (a := c.due i + (c.search.worker i).ahead fs) ?_) h
  generalize owed ((c.search.worker i).counts || w.counts)
    (((c.search.worker i).forms c.search.run_ended).getD (c.result i)) + w.ahead fs = new at *
  generalize ∑ j, ((c.after i t).due j + (t.worker j).ahead fs) = total at *
  rw [add_assoc, hsum]
  calc (t.dequeued : Multiset Path) + c.printed + (t.directories_queue.map (tree fs)).sum +
        (∑ j, (c.due j + (c.search.worker j).ahead fs) + new)
      = (t.dequeued : Multiset Path) + (t.directories_queue.map (tree fs)).sum + new +
          (c.printed + ∑ j, (c.due j + (c.search.worker j).ahead fs)) := by abel
    _ ≤ (c.search.dequeued : Multiset Path) + (c.search.directories_queue.map (tree fs)).sum +
          (c.due i + (c.search.worker i).ahead fs) +
          (c.printed + ∑ j, (c.due j + (c.search.worker j).ahead fs)) := add_le_add_left hused _
    _ = _ := by abel

theorem due_print_self (hv : (c.search.worker i).scans = true) : (c.print i).due i = 0 := by
  have hcounts : (c.search.worker i).counts = false := by
    cases hw : c.search.worker i <;> rw [hw] at hv <;> first | rfl | cases hv
  rw [Console.due, Console.print]
  dsimp only
  rw [Function.update_self, hcounts]
  rfl

theorem due_print_of_ne {j : Fin n} (hj : j ≠ i) : (c.print i).due j = c.due j :=
  due_congr (c := c) (Function.update_of_ne hj ..) rfl rfl

theorem Thrifty.print (h : Thrifty fs original_directory c) (hp : c.printing i = true)
    (hv : (c.search.worker i).scans = true) : Thrifty fs original_directory (c.print i) := by
  have hothers : ∀ j ≠ i, (c.print i).due j + (c.search.worker j).ahead fs =
      c.due j + (c.search.worker j).ahead fs := fun j hj => by rw [due_print_of_ne hj]
  have hsum := sum_of_eq_except hothers
  have hold : c.due i = {c.result i} := by
    rw [Console.due, hp]
    rfl
  rw [due_print_self hv, hold, zero_add, add_comm {c.result i}, ← add_assoc, add_right_comm] at hsum
  have hprinted : ((c.print i).printed : Multiset Path) = c.printed + {c.result i} := rfl
  unfold Thrifty at h ⊢
  rw [hprinted]
  rw [← add_right_cancel hsum] at h
  refine le_of_eq_of_le ?_ h
  change (c.search.dequeued : Multiset Path) + _ + (c.search.directories_queue.map (tree fs)).sum +
    _ = _
  abel

/-! ## What is told -/

theorem Scan.examine_counts {scan : Scan} {d_name : Name} {rest : List Name} {empty_queue : Bool}
    (hw : scan.examine fs searched_str d_name rest empty_queue = some w) (hc : w.counts = true) :
    ¬ IsDots d_name ∧ searched_str <:+: d_name ∧
      ∀ st_mode, fs.lstat (join scan.directory d_name) = some st_mode → ¬ S_ISDIR st_mode := by
  unfold Scan.examine at hw
  dsimp only at hw
  split at hw
  · cases hw
  · cases hl : fs.lstat (join scan.directory d_name) <;> rw [hl] at hw <;> dsimp only at hw <;>
      split_ifs at hw with hdots hdir hmatch <;> cases hw <;> first
        | exact ⟨hdots, hmatch, fun st_mode hm => by cases hm <;> exact hdir⟩
        | cases hc

theorem Worker.scans_of_early {w : Worker} (h : w.early = true) : w.scans = false := by
  cases w <;> first | rfl | cases h

@[simp] theorem Worker.scans_unblock (w : Worker) : w.unblock.scans = w.scans := by cases w <;> rfl

theorem Worker.directory_of_scans {w : Worker} (h : w.scans = true) : w.directory ≠ none := by
  cases w with
  | scanning scan => exact Option.some_ne_none _
  | _ => cases h

/-- What worker `i` tells in its step: it counts what it has found, and owes then what it counts. -/
structure Tells (fs : FileSystem) (original_directory : Path) (searched_str : Name) (s t : State n)
    (i : Fin n) (v w : Worker) (result : Path) : Prop where
  goes : Goes s t i w
  scans : v.counts = true → w.scans = true ∧ v.forms s.run_ended = none
  counter : t.counter = s.counter + if v.counts then 1 else 0
  found : w.counts = true →
    Shown fs original_directory searched_str ((v.forms s.run_ended).getD result)

theorem tells_nothing {result : Path} (hg : Goes s t i w) (hc : t.counter = s.counter)
    (hv : v.counts = false) (hw : w.counts = false) :
    Tells fs original_directory searched_str s t i v w result where
  goes := hg
  scans h := by rw [hv] at h; cases h
  counter := by rw [hv, hc]; simp
  found h := by rw [hw] at h; cases h

theorem scanReturns_tells (hv : v.counts = false) (d : Path) (res : Bool) (result : Path) :
    ∃ w, Tells fs original_directory searched_str s (s.scanReturns i d res) i v w result := by
  cases res with
  | true => exact ⟨.erring, tells_nothing (.of_update rfl) rfl hv rfl⟩
  | false => exact ⟨.loopHead, tells_nothing (.of_update rfl) rfl hv rfl⟩

theorem worker_tells {stack : BitVec 32} (result : Path)
    (hmapped : Mapped fs original_directory searched_str s)
    (hs : workerStep fs searched_str s i stack = some t) :
    ∃ w, Tells fs original_directory searched_str s t i (s.worker i) w result := by
  have hcharted := hmapped.workers i
  have hmove := worker_move hs
  generalize s.worker i = v at hmove hcharted ⊢
  cases hmove with
  | start | head | pass =>
    exact ⟨_, tells_nothing (.of_update rfl) rfl rfl (by split <;> rfl)⟩
  | fail | finish => exact scanReturns_tells rfl _ _ _
  | @examine scan d_name rest w hrun he hw =>
    refine ⟨w, .of_update rfl, (fun h => by cases h), (add_zero _).symm, fun hc => ?_⟩
    obtain ⟨hdots, hmatch, hdir⟩ := Scan.examine_counts hw hc
    obtain ⟨names, _, hopen, hsub, _⟩ := hcharted.listing scan _ rfl rfl
    have hforms : (Worker.scanning scan).forms s.run_ended = some (join scan.directory d_name) := by
      simp only [Worker.forms, hrun, he]
    rw [hforms, Option.getD_some]
    exact ⟨scan.directory, names, d_name, hcharted.entered _ rfl, hopen,
      hsub (by rw [he]; exact List.mem_cons_self), rfl, hdots, hmatch, hdir⟩
  | count => exact ⟨_, .of_update rfl, fun _ => ⟨rfl, rfl⟩, rfl, (fun h => by cases h)⟩
  | announce | doze => exact ⟨_, tells_nothing (.broadcast (by rfl) _ i _) rfl rfl rfl⟩
  | _ => exact ⟨_, tells_nothing (.of_update rfl) rfl rfl rfl⟩

theorem mem_owed {owes : Bool} {q : Path} (h : q ∈ owed owes p) : owes = true ∧ q = p := by
  rw [owed] at h
  split at h
  case isTrue ho => exact ⟨ho, Multiset.mem_singleton.mp h⟩
  case isFalse => exact absurd h (Multiset.notMem_zero q)

theorem Told.same (h : Told fs original_directory searched_str c)
    (hc : t.counter = c.search.counter)
    (hscans : ∀ j, (t.worker j).scans = (c.search.worker j).scans)
    (hcounts : ∀ j, (t.worker j).counts = (c.search.worker j).counts) :
    Told fs original_directory searched_str { c with search := t } where
  scanning j hj := (hscans j).trans (h.scanning j hj)
  counter := hc.trans h.counter
  printed := h.printed
  due j p hp := by
    have hdue : Console.due { c with search := t } j = c.due j := due_congr rfl (hcounts j) rfl
    exact h.due j p (hdue ▸ hp)

theorem Told.main (h : Told fs original_directory searched_str c) (hsound : Sound c.search)
    (hs : mainStep original_directory c.search = some t) :
    Told fs original_directory searched_str { c with search := t } := by
  have hworker : ∀ j, (t.worker j).scans = (c.search.worker j).scans ∧
      (t.worker j).counts = (c.search.worker j).counts := by
    intro j
    rcases main_workers hs j with he | he | ⟨hm, he⟩ <;> rw [he]
    · exact ⟨rfl, rfl⟩
    · exact ⟨Worker.scans_unblock _, Worker.counts_unblock _⟩
    · rw [Worker.counts_of_early (hsound.early hm j), Worker.scans_of_early (hsound.early hm j)]
      exact ⟨rfl, rfl⟩
  have hcounter : t.counter = c.search.counter := by
    rcases main_books hs with ⟨_, rfl⟩ | ⟨_, _, hc⟩
    · rfl
    · exact hc
  exact h.same hcounter (fun j => (hworker j).1) fun j => (hworker j).2

theorem Told.worker {stack : BitVec 32} (h : Told fs original_directory searched_str c)
    (hmapped : Mapped fs original_directory searched_str c.search) (hp : c.printing i = false)
    (hs : workerStep fs searched_str c.search i stack = some t) :
    Told fs original_directory searched_str (c.after i t) := by
  obtain ⟨w, hg, hscans, hcounter, hfound⟩ := worker_tells (c.result i) hmapped hs
  refine ⟨fun j hj => ?_, ?_, h.printed, fun j p hpd => ?_⟩
  · by_cases hji : j = i
    · subst hji
      rw [show (c.after j t).printing j = (c.search.worker j).counts from Function.update_self ..] at hj
      rw [show (c.after j t).search.worker j = w from hg.self]
      exact (hscans hj).1
    · rw [show (c.after i t).printing j = c.printing j from Function.update_of_ne hji ..] at hj
      have hold := h.scanning j hj
      rw [show (c.after i t).search = t from rfl, hg.apply Worker.scans_unblock,
        Function.update_of_ne hji]
      exact hold
  · have hcensus := census_update id c.printing i (c.search.worker i).counts
    rw [hp] at hcensus
    change t.counter = c.printed.length +
      census id (Function.update c.printing i (c.search.worker i).counts)
    rw [hcounter, hcensus, h.counter]
    simp only [id, Bool.false_eq_true, if_false]
    omega
  · by_cases hji : j = i
    · subst hji
      rw [Console.due, Console.after] at hpd
      dsimp only at hpd
      rw [Function.update_self, Function.update_self, hg.self] at hpd
      obtain ⟨howes, rfl⟩ := mem_owed hpd
      rcases Bool.or_eq_true_iff.mp howes with hc | hc
      · rw [(hscans hc).2, Option.getD_none]
        refine h.due j _ ?_
        rw [Console.due, hp, hc]
        exact Multiset.mem_singleton_self _
      · exact hfound hc
    · have hcounts : (t.worker j).counts = (c.search.worker j).counts := by
        rw [hg.apply Worker.counts_unblock, Function.update_of_ne hji]
      rw [due_congr (c := c) (Function.update_of_ne hji ..) hcounts
        (Function.update_of_ne hji ..)] at hpd
      exact h.due j p hpd

theorem Told.print (h : Told fs original_directory searched_str c) (hp : c.printing i = true) :
    Told fs original_directory searched_str (c.print i) where
  scanning j hj := by
    by_cases hji : j = i
    · subst hji
      rw [show (c.print j).printing j = false from Function.update_self ..] at hj
      cases hj
    · rw [show (c.print i).printing j = c.printing j from Function.update_of_ne hji ..] at hj
      exact h.scanning j hj
  counter := by
    have hcensus := census_update id c.printing i false
    rw [hp] at hcensus
    change c.search.counter = (c.printed ++ [c.result i]).length +
      census id (Function.update c.printing i false)
    rw [hcensus, h.counter, List.length_append, List.length_singleton]
    simp only [id, Bool.false_eq_true, if_false, if_true]
    push_cast
    omega
  printed p hpp := by
    rcases List.mem_append.mp hpp with hpp | hpp
    · exact h.printed p hpp
    · refine h.due i p ?_
      rw [List.mem_singleton.mp hpp, Console.due, hp]
      exact Multiset.mem_singleton_self _
  due j p hpd := by
    by_cases hji : j = i
    · subst hji
      rw [due_print_self (h.scanning j hp)] at hpd
      exact absurd hpd (Multiset.notMem_zero p)
    · rw [due_print_of_ne hji] at hpd
      exact h.due j p hpd

/-! ## Runs with output -/

theorem moves_keep (h : Thrifty fs original_directory c)
    (ht : Told fs original_directory searched_str c) (hsound : Sound c.search)
    (hmapped : Mapped fs original_directory searched_str c.search)
    (hm : Moves fs original_directory searched_str c c') :
    Thrifty fs original_directory c' ∧ Told fs original_directory searched_str c' := by
  cases hm with
  | main hs => exact ⟨h.main hsound hs, ht.main hsound hs⟩
  | worker hp hs => exact ⟨h.worker hp hs, ht.worker hmapped hp hs⟩
  | @signal i waiter t hs =>
    have hsig := signal_turn hs
    have hsame : ∀ {α : Type} {g : Worker → α}, (∀ w, g w.unblock = g w) →
        g .signalling = g .exited → ∀ j, g (t.worker j) = g (c.search.worker j) := by
      intro α g hg hge j
      rw [hsig.goes.apply hg]
      by_cases hji : j = i
      · rw [hji, Function.update_self, hsig.signalling, hge]
      · rw [Function.update_of_ne hji]
    have hcounts := hsame Worker.counts_unblock rfl
    exact ⟨h.same (enqueuing_iff hsig.main) hsig.books.dequeued hsig.books.queue hcounts
      (hsame Worker.ahead_unblock rfl),
      ht.same hsig.counter (hsame Worker.scans_unblock rfl) hcounts⟩
  | spurious hs =>
    have hw := spurious_wakes hs
    have hcounts := hw.apply Worker.counts_unblock
    exact ⟨h.same (enqueuing_iff hw.main) hw.books.dequeued hw.books.queue hcounts
      (hw.apply Worker.ahead_unblock), ht.same hw.counter (hw.apply Worker.scans_unblock) hcounts⟩
  | print hp => exact ⟨h.print hp (ht.scanning _ hp), ht.print hp⟩

theorem thrifty_initial : Thrifty fs original_directory (Console.initial n) := by
  have hnone : ∑ i, ((Console.initial n).due i + ((State.initial n).worker i).ahead fs) = 0 :=
    Finset.sum_eq_zero fun _ _ => rfl
  rw [Thrifty, if_pos (by rfl)]
  change ((0 : Multiset Path) + 0 + 0 + _) ≤ 0
  change ((0 : Multiset Path) + 0 + 0 +
    ∑ i, ((Console.initial n).due i + ((State.initial n).worker i).ahead fs)) ≤ 0
  rw [hnone]
  exact le_rfl

theorem told_initial : Told fs original_directory searched_str (Console.initial n) where
  scanning i hi := by cases hi
  counter := by
    have hnone : census id (Console.initial n).printing = 0 := census_eq_zero_iff.mpr fun _ => rfl
    rw [hnone]
    rfl
  printed p hp := by cases hp
  due i p hp := absurd hp (Multiset.notMem_zero p)

theorem kept_of_reachable (h : (printing fs original_directory searched_str n).Reachable c) :
    Thrifty fs original_directory c ∧ Told fs original_directory searched_str c := by
  obtain ⟨os, h⟩ := h
  refine h.history_invariant (I := fun _ c => Thrifty fs original_directory c ∧
    Told fs original_directory searched_str c) (fun c hc => ?_) fun os c o c' hrun hi hs => ?_
  · rw [show c = Console.initial n from hc]
    exact ⟨thrifty_initial, told_initial⟩
  · have hsearch := search_of_reachable hrun.reachable
    exact moves_keep hi.1 hi.2 (sound_of_reachable hsearch) (mapped_of_reachable hsearch)
      (console_cases hs).1

/-- What is taken from the queue and what is printed are different paths, each of them once. -/
theorem Thrifty.nodup (h : Thrifty fs original_directory c) :
    (c.search.dequeued ++ c.printed).Nodup := by
  have hle : ((c.search.dequeued ++ c.printed : List Path) : Multiset Path) ≤
      tree fs original_directory := by
    rw [← Multiset.coe_add]
    refine le_trans ?_ (h.trans ?_)
    · rw [add_assoc]
      exact Multiset.le_add_right ..
    · split
      · exact Multiset.zero_le _
      · exact le_rfl
  exact Multiset.coe_nodup.mp (Multiset.nodup_of_le hle
    (Multiset.coe_nodup.mpr (nodes_entriesOf_nodup fs _ _)))

/-! ## A search without errors prints every match -/

theorem length_matchingPaths (k : ℕ) (p : Path) :
    (matchingPaths fs searched_str k p).length = matchesBelow fs searched_str k p := by
  rw [matchingPaths, matchesBelow, List.length_flatMap]
  congr 1
  refine List.map_congr_left fun d _ => ?_
  rw [List.length_map, ← List.countP_eq_length_filter, matchesIn]

/-- Where `lstat` does not fail there is no stale mode. -/
theorem Entries.followed_eq {P : Path → Prop} {names : List Name} (h : Entries fs P p names)
    (st_mode : BitVec 32) : followed fs p st_mode names = subdirectoriesOf fs p names := by
  induction names generalizing st_mode with
  | nil => rfl
  | cons d_name rest ih =>
    obtain ⟨_, st_mode', hl, _⟩ := h d_name List.mem_cons_self
    rw [subdirectoriesOf_cons, (followed_examined fs [] st_mode rest hl).1,
      ih (fun d hd => h d (List.mem_cons_of_mem _ hd))]

/-- Where no call fails, the search comes to the directories of the tree only. -/
theorem Entered.mem_directories (hroot : Searchable fs k original_directory)
    (h : Entered fs original_directory p) :
    p ∈ directories fs k original_directory ∧ Searchable fs k p := by
  induction h with
  | root =>
    refine ⟨?_, hroot⟩
    rw [directories, nodes_eq hroot.bounded]
    exact List.mem_cons_self
  | @entry d q names stack h hopen hq ih =>
    obtain ⟨hd, hsearchable⟩ := ih
    obtain ⟨names', hopen', hentries⟩ := hsearchable.opendir
    obtain rfl := Option.some.inj (hopen.symm.trans hopen')
    rw [hentries.followed_eq] at hq
    refine ⟨mem_nodes_of_child hroot.bounded hd ?_, hentries.subdirectory hq⟩
    rwa [subdirectories, hopen, Option.getD_some]

theorem Shown.mem_matchingPaths (hroot : Searchable fs k original_directory)
    (h : Shown fs original_directory searched_str p) :
    p ∈ matchingPaths fs searched_str k original_directory := by
  obtain ⟨d, names, d_name, hentered, hopen, hd, rfl, hdots, hmatch, hdir⟩ := h
  obtain ⟨hmem, hsearchable⟩ := hentered.mem_directories hroot
  obtain ⟨names', hopen', hentries⟩ := hsearchable.opendir
  obtain rfl := Option.some.inj (hopen.symm.trans hopen')
  obtain ⟨_, st_mode, hl, _⟩ := hentries d_name hd
  refine List.mem_flatMap.mpr ⟨d, hmem, List.mem_map.mpr ⟨d_name, ?_, rfl⟩⟩
  rw [hopen, Option.getD_some, List.mem_filter]
  refine ⟨hd, ?_⟩
  rw [isMatch, hl]
  simp [hdots, hmatch, hdir st_mode hl]

/-- When main leaves its loop, nobody has anything left to print. -/
theorem all_printed (hroot : Searchable fs k original_directory) (hn : 0 < n)
    (h : (printing fs original_directory searched_str n).Reachable c)
    (hleft : c.search.main.hasLeft = true) :
    c.search.counter = c.printed.length ∧
      c.printed.Perm (matchingPaths fs searched_str k original_directory) := by
  obtain ⟨hthrifty, htold⟩ := kept_of_reachable h
  have hsearch := searching_of_reachable hroot (search_of_reachable h)
  have hidle : census id c.printing = 0 := by
    refine census_eq_zero_iff.mpr fun i => ?_
    by_contra hp
    have hscans := htold.scanning i (by simpa using hp)
    exact Worker.directory_of_scans hscans ((hsearch.done hn hleft).2 i)
  have hcounter := htold.counter
  rw [hidle, add_zero] at hcounter
  refine ⟨hcounter, (List.subperm_of_subset ?_ ?_).perm_of_length_le ?_⟩
  · exact (List.nodup_append.mp hthrifty.nodup).2.1
  · exact fun p hp => (htold.printed p hp).mem_matchingPaths hroot
  · rw [length_matchingPaths]
    have hfound := hsearch.counter_eq hn hleft
    rw [hcounter] at hfound
    exact le_of_eq (Int.ofNat_inj.mp hfound).symm

/-- In every run, whatever fails: no line is printed twice, every line is the path of a matching
entry of a directory that the search comes to, and the counter is ahead of the output by the workers
that have still to print. If no call fails, then the lines that are printed when main leaves
its loop are the matches of the tree, as many as main reports. -/
theorem each_match_printed_once (fs : FileSystem) (original_directory : Path) (searched_str : Name)
    (n : ℕ) :
    (∀ c, (printing fs original_directory searched_str n).Reachable c →
      c.printed.Nodup ∧ (∀ p ∈ c.printed, Shown fs original_directory searched_str p) ∧
        c.search.counter = c.printed.length + census id c.printing) ∧
    ∀ k, Searchable fs k original_directory → 0 < n → ∀ c,
      (printing fs original_directory searched_str n).Reachable c → c.search.main.hasLeft = true →
        c.printed.Perm (matchingPaths fs searched_str k original_directory) ∧
          c.search.counter = c.printed.length := by
  refine ⟨fun c h => ?_, fun k hroot hn c h hleft => (all_printed hroot hn h hleft).symm⟩
  obtain ⟨hthrifty, htold⟩ := kept_of_reachable h
  exact ⟨(List.nodup_append.mp hthrifty.nodup).2.1, htold.printed, htold.counter⟩

/-- Worker `0` prints a match of the root and one of the directory below it. -/
theorem each_match_printed_once_sample : ∃ c : Console 2,
    (printing sampleFolder [100] [98] 2).Reachable c ∧ c.search.main.hasLeft = true ∧
      c.printed.Perm [[100, 47, 98], [100, 47, 97, 47, 98, 99]] ∧ c.printed.Nodup ∧
      c.search.counter = 2 := by
  let turns : List (Event 2) → List (Output 2) := List.map .search
  have hrun : (Machine.perform (Console.step sampleFolder [100] [98]) (.initial 2)
      (turns (mainSteps 8 ++ workerSteps 4 ++ otherSteps 5 ++ workerSteps 9) ++ [.print 0] ++
        turns (workerSteps 7) ++ [.print 0] ++ turns (workerSteps 5 ++ mainSteps 5))).map
          (fun c => c.search.main.hasLeft) = some true := by decide +kernel
  obtain ⟨c, hc, hleft⟩ := Option.map_eq_some_iff.mp hrun
  have hreach : (printing sampleFolder [100] [98] 2).Reachable c := ⟨_, Machine.run_ofFun.mpr hc⟩
  have hpaths : matchingPaths sampleFolder [98] 2 [100] =
      [[100, 47, 98], [100, 47, 97, 47, 98, 99]] := by decide +kernel
  have h := each_match_printed_once sampleFolder [100] [98] 2
  obtain ⟨hperm, hcounter⟩ := h.2 2 (by decide +kernel) (by decide) c hreach hleft
  rw [hpaths] at hperm
  exact ⟨c, hreach, hleft, hperm, (h.1 c hreach).1, by rw [hcounter, hperm.length_eq]; rfl⟩

end OsCourse.Pfind
