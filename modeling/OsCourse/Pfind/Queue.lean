import OsCourse.Foundations.LinkedQueue
import OsCourse.Pfind.Search

/-! # The queue in memory

`directories_queue` is a linked list of nodes that `malloc` and `free` hand out and take back,
and its keys point to strings. Here the threads work on that memory; the list of paths that
the other modules speak of is what the memory holds.
-/

namespace OsCourse.Pfind
open Foundations

/-- Addresses; 0 is `NULL`. -/
abbrev Ptr := ℕ

structure QNode where
  key : Ptr
  next : Ptr
  deriving DecidableEq

structure Queue where
  front : Ptr
  rear : Ptr
  deriving DecidableEq

/-- The blocks in use, by type, and `directories_queue`. -/
structure Memory where
  nodes : Ptr → Option QNode
  strings : Ptr → Option Path
  directories_queue : Queue

namespace Memory

/-- `malloc` succeeds where it is offered a block that is not in use. -/
def malloc (m : Memory) (block : Ptr) : Ptr :=
  if (m.nodes block).isSome ∨ (m.strings block).isSome then 0 else block

/-- `newNode`, with the result of its `malloc`. -/
def newNode (m : Memory) (temp k : Ptr) : Option Memory :=
  if temp = 0 then none
  else some { m with nodes := Function.update m.nodes temp (some ⟨k, 0⟩) }

/-- `enQueue`; an access through `NULL` or through a pointer to a freed node has no result. -/
def enQueue (m : Memory) (temp k : Ptr) : Option Memory := do
  let m ← m.newNode temp k
  if m.directories_queue.rear = 0 then some { m with directories_queue := ⟨temp, temp⟩ }
  else
    let last ← m.nodes m.directories_queue.rear
    some { m with
      nodes := Function.update m.nodes m.directories_queue.rear (some { last with next := temp })
      directories_queue := { m.directories_queue with rear := temp } }

/-- `deQueue`, with the key that it returns. -/
def deQueue (m : Memory) : Option (Memory × Ptr) :=
  if m.directories_queue.front = 0 then some (m, 0)
  else do
    let temp ← m.nodes m.directories_queue.front
    let rear := if temp.next = 0 then 0 else m.directories_queue.rear
    some ({ m with
      nodes := Function.update m.nodes m.directories_queue.front none
      directories_queue := ⟨temp.next, rear⟩ }, temp.key)

/-- The string behind a key, if the key is not `NULL`. -/
def read (m : Memory) (key : Ptr) : Option (List Path) :=
  if key = 0 then some [] else (m.strings key).map fun p => [p]

/-- `malloc(PATH_MAX)` and `strcpy`. -/
def store (m : Memory) (block : Ptr) (p : Path) : Option Memory :=
  if block = 0 then none else some { m with strings := Function.update m.strings block (some p) }

end Memory

/-- Where `argv[1]` points to. -/
def argv1 : Ptr := 1

/-- The threads with their memory. The list in `search` is not used; `new_directory` has the local
variables of that name. -/
structure Heaped (threads_limit : ℕ) where
  search : State threads_limit
  memory : Memory
  new_directory : Fin threads_limit → Ptr

def State.withQueue {n : ℕ} (s : State n) (l : List Path) : State n :=
  { s with directories_queue := l }

variable {n : ℕ} (fs : FileSystem) (original_directory : Path) (searched_str : Name)

/-- The memory after `*createQueue()` has been copied. -/
def Heaped.initial (n : ℕ) : Heaped n where
  search := .initial n
  memory := {
    nodes _ := none
    strings := Function.update (fun _ => none) argv1 (some original_directory)
    directories_queue := ⟨0, 0⟩ }
  new_directory _ := 0

/-- A step on the memory; `block` is what `malloc` is offered. -/
def Heaped.step (c : Heaped n) (e : Event n) (block : Ptr) : Option (Heaped n) :=
  let next (s : State n) := Pfind.step fs original_directory searched_str s e
  match e with
  | .main =>
    match c.search.main with
    | .enqueuing => do
      let memory ← c.memory.enQueue (c.memory.malloc block) argv1
      let t ← next c.search
      some { c with search := t.withQueue [], memory }
    | _ => (next c.search).map fun t => { c with search := t }
  | .worker i _ =>
    match c.search.worker i with
    | .dequeuing => do
      let (memory, front_key) ← c.memory.deQueue
      let keys ← memory.read front_key
      let t ← next (c.search.withQueue keys)
      some { c with search := t.withQueue [], memory }
    | .enqueuing .. => do
      let memory ← c.memory.enQueue (c.memory.malloc block) (c.new_directory i)
      let t ← next c.search
      some { c with search := t.withQueue [], memory }
    | _ => do
      let t ← next c.search
      match t.worker i with
      | .enqueuing _ result _ =>
        let new_directory := c.memory.malloc block
        let memory ← c.memory.store new_directory result
        some ⟨t, memory, Function.update c.new_directory i new_directory⟩
      | _ => some { c with search := t }
  | _ => (next c.search).map fun t => { c with search := t }

/-- `pfind` on its memory. -/
def heaped (threads_limit : ℕ) : Machine (Heaped threads_limit) (Event threads_limit × Ptr) :=
  .ofFun (.initial original_directory threads_limit)
    fun c a => c.step fs original_directory searched_str a.1 a.2

variable {fs original_directory searched_str} {c c' : Heaped n} {s t : State n} {i : Fin n}
  {e : Event n} {block : Ptr} {l : List Path} {p : Path}

/-! ## Steps that leave the queue alone -/

theorem mainStep_withQueue (hm : s.main ≠ .enqueuing) (l : List Path) :
    mainStep original_directory (s.withQueue l) =
      (mainStep original_directory s).map (·.withQueue l) := by
  unfold mainStep
  rw [show (s.withQueue l).main = s.main from rfl]
  cases hpc : s.main with
  | enqueuing => exact absurd hpc hm
  | creating =>
    dsimp only
    split <;> rfl
  | checkingErrors =>
    dsimp only
    rw [Option.map_some, apply_ite (State.withQueue · l)]
    rfl
  | _ => rfl

theorem workerStep_withQueue {stack : BitVec 32} (hd : s.worker i ≠ .dequeuing)
    (he : ∀ scan p b, s.worker i ≠ .enqueuing scan p b) (l : List Path) :
    workerStep fs searched_str (s.withQueue l) i stack =
      (workerStep fs searched_str s i stack).map (·.withQueue l) := by
  unfold workerStep
  rw [show (s.withQueue l).worker i = s.worker i from rfl]
  cases hw : s.worker i with
  | dequeuing => exact absurd hw hd
  | enqueuing scan p b => exact absurd hw (he scan p b)
  | opening directory =>
    dsimp only
    cases fs.opendir directory <;> rfl
  | scanning scan =>
    dsimp only
    rw [show (s.withQueue l).run_ended = s.run_ended from rfl]
    cases s.run_ended <;> cases scan.entries <;> dsimp only
    · cases scan.res <;> rfl
    · rw [Option.map_map]
      rfl
    · cases scan.res <;> rfl
    · cases scan.res <;> rfl
  | counting =>
    dsimp only
    rw [show (s.withQueue l).counter = s.counter from rfl]
    split <;> rfl
  | _ => rfl

theorem signalStep_withQueue (s : State n) (i : Fin n) (waiter : Option (Thread n))
    (l : List Path) :
    signalStep (s.withQueue l) i waiter = (signalStep s i waiter).map (·.withQueue l) := by
  have hblocked : ∀ c thread, (s.withQueue l).Blocked c thread ↔ s.Blocked c thread := by
    intro c thread
    cases thread <;> exact Iff.rfl
  have hwaiter : (s.withQueue l).NoWaiter ↔ s.NoWaiter := Iff.rfl
  cases waiter with
  | none =>
    simp only [signalStep, hwaiter, show (s.withQueue l).worker i = s.worker i from rfl]
    split <;> rfl
  | some thread =>
    simp only [signalStep, hblocked, show (s.withQueue l).worker i = s.worker i from rfl]
    split
    · cases thread <;> rfl
    · rfl

theorem spuriousStep_withQueue (s : State n) (thread : Thread n) (l : List Path) :
    spuriousStep (s.withQueue l) thread = (spuriousStep s thread).map (·.withQueue l) := by
  have hblocked : ∀ c, (s.withQueue l).Blocked c thread ↔ s.Blocked c thread := by
    intro c
    cases thread <;> exact Iff.rfl
  simp only [spuriousStep, hblocked]
  split
  · cases thread <;> rfl
  · rfl

/-- The next step of a thread is `enQueue` or `deQueue`. -/
def State.Queues (s : State n) : Event n → Prop
  | .main => s.main = .enqueuing
  | .worker i _ => s.worker i = .dequeuing ∨ ∃ scan p b, s.worker i = .enqueuing scan p b
  | _ => False

variable (fs original_directory searched_str) in
theorem step_withQueue (h : ¬ s.Queues e) (l : List Path) :
    step fs original_directory searched_str (s.withQueue l) e =
      (step fs original_directory searched_str s e).map (·.withQueue l) := by
  unfold step
  rw [show (s.withQueue l).main = s.main from rfl]
  split
  · rfl
  · cases e with
    | main => exact mainStep_withQueue h l
    | worker i stack =>
      exact workerStep_withQueue (fun hd => h (Or.inl hd))
        (fun scan p b he => h (Or.inr ⟨scan, p, b, he⟩)) l
    | signal i waiter => exact signalStep_withQueue s i waiter l
    | spurious thread => exact spuriousStep_withQueue s thread l

variable (original_directory) in
/-- The next step puts the path `p` into the queue, which is behind the key `k`. -/
def Heaped.Puts (c : Heaped n) (k : Ptr) (p : Path) : Event n → Prop
  | .main => c.search.main = .enqueuing ∧ k = argv1 ∧ p = original_directory
  | .worker i _ => (∃ scan b, c.search.worker i = .enqueuing scan p b) ∧ k = c.new_directory i
  | _ => False

theorem step_puts {k : Ptr} (h : c.Puts original_directory k p e) (l : List Path) :
    step fs original_directory searched_str (c.search.withQueue l) e =
      (step fs original_directory searched_str c.search e).map (·.withQueue (l ++ [p])) := by
  unfold step
  rw [show (c.search.withQueue l).main = c.search.main from rfl]
  split
  · rfl
  · cases e with
    | main =>
      obtain ⟨hm, _, rfl⟩ := h
      dsimp only
      rw [mainStep, mainStep, show (c.search.withQueue l).main = c.search.main from rfl, hm]
      rfl
    | worker i stack =>
      obtain ⟨⟨scan, b, hw⟩, _⟩ := h
      dsimp only
      rw [workerStep, workerStep, show (c.search.withQueue l).worker i = c.search.worker i from rfl,
        hw]
      rfl
    | _ => exact h.elim

/-- `deQueue` looks at the front only. -/
theorem step_takes {stack : BitVec 32} (hw : s.worker i = .dequeuing) (l : List Path) :
    step fs original_directory searched_str (s.withQueue l) (.worker i stack) =
      (step fs original_directory searched_str (s.withQueue l.head?.toList) (.worker i stack)).map
        (·.withQueue l.tail) := by
  unfold step
  rw [show (s.withQueue l).main = s.main from rfl,
    show (s.withQueue l.head?.toList).main = s.main from rfl]
  split
  · rfl
  · dsimp only
    rw [workerStep, workerStep, show (s.withQueue l).worker i = s.worker i from rfl,
      show (s.withQueue l.head?.toList).worker i = s.worker i from rfl, hw]
    cases l <;> rfl

/-! ## What the memory holds -/

namespace Memory
variable {m m' : Memory} {temp k : Ptr}

/-- The string that a node leads to. -/
def pathAt (m : Memory) (q : Ptr) : Option Path :=
  (m.nodes q).bind fun node => if node.key = 0 then none else m.strings node.key

/-- The linked list leads to the strings `l`, and there are no other nodes. -/
def Holds (m : Memory) (l : List Path) : Prop :=
  ∃ ps : List Ptr,
    LinkedQueue m.nodes QNode.next 0 m.directories_queue.front m.directories_queue.rear ps ∧
    ps.map m.pathAt = l.map some ∧ ∀ q, (m.nodes q).isSome → q ∈ ps

theorem malloc_ne_zero (h : m.malloc block ≠ 0) :
    m.malloc block = block ∧ m.nodes block = none ∧ m.strings block = none := by
  rw [malloc] at h ⊢
  split at h
  case isTrue => exact absurd rfl h
  case isFalse hfree =>
    rw [if_neg hfree]
    simpa [not_or] using hfree

theorem enQueue_ne_zero (h : m.enQueue temp k = some m') : temp ≠ 0 := by
  rintro rfl
  cases h

/-- Strings that are added leave the queue as it is. -/
theorem Holds.mono (h : m.Holds l) (hnodes : m'.nodes = m.nodes)
    (hqueue : m'.directories_queue = m.directories_queue)
    (hstrings : ∀ q p, m.strings q = some p → m'.strings q = some p) : m'.Holds l := by
  obtain ⟨ps, hq, hkeys, honly⟩ := h
  refine ⟨ps, by rw [hnodes, hqueue]; exact hq, ?_, by rw [hnodes]; exact honly⟩
  rw [← hkeys]
  refine List.map_congr_left fun q hmem => ?_
  have hsome : m.pathAt q ∈ l.map some := by
    rw [← hkeys]
    exact List.mem_map_of_mem hmem
  obtain ⟨p, _, hp⟩ := List.mem_map.mp hsome
  obtain ⟨node, hnode, hkey⟩ := Option.bind_eq_some_iff.mp hp.symm
  obtain ⟨hk, hstring⟩ := Option.ite_none_left_eq_some.mp hkey
  rw [← hp, pathAt, hnodes, hnode, Option.bind_some, if_neg hk]
  exact hstrings _ _ hstring

/-- The memory with the node at `q` changed to `node`, or freed. -/
def setNode (m : Memory) (q : Ptr) (node : Option QNode) : Memory :=
  { m with nodes := Function.update m.nodes q node }

theorem setNode_nodes (m : Memory) (q : Ptr) (node : Option QNode) :
    (m.setNode q node).nodes = Function.update m.nodes q node := rfl

theorem pathAt_setNode_of_ne {q r : Ptr} (hr : r ≠ q) (m : Memory) (node : Option QNode) :
    (m.setNode q node).pathAt r = m.pathAt r := by
  rw [pathAt, setNode_nodes, Function.update_of_ne hr]
  rfl

/-- A node keeps its path when only its link changes. -/
theorem pathAt_setNode_next {q : Ptr} {node : QNode} (hq : m.nodes q = some node) (next r : Ptr) :
    (m.setNode q (some { node with next })).pathAt r = m.pathAt r := by
  by_cases hr : r = q
  · subst hr
    rw [pathAt, pathAt, setNode_nodes, Function.update_self, hq]
    rfl
  · exact pathAt_setNode_of_ne hr m _

theorem pathAt_new (hk : k ≠ 0) (hp : m.strings k = some p) (temp : Ptr) :
    (m.setNode temp (some ⟨k, 0⟩)).pathAt temp = some p := by
  rw [pathAt, setNode_nodes, Function.update_self, Option.bind_some, if_neg hk]
  exact hp

theorem isSome_of_setNode {q r : Ptr} {node : Option QNode}
    (h : ((m.setNode q node).nodes r).isSome) : r = q ∨ (m.nodes r).isSome := by
  by_cases hr : r = q
  · exact Or.inl hr
  · rw [setNode_nodes, Function.update_of_ne hr] at h
    exact Or.inr h

theorem enQueue_holds (h : m.Holds l) (htemp : temp ≠ 0) (hfree : m.nodes temp = none) (hk : k ≠ 0)
    (hp : m.strings k = some p) :
    ∃ m', m.enQueue temp k = some m' ∧ m'.Holds (l ++ [p]) ∧ m'.strings = m.strings := by
  obtain ⟨ps, hq, hkeys, honly⟩ := h
  have hne : ∀ q ∈ ps, q ≠ temp := by
    rintro q hmem rfl
    have hsome := hq.isSome hmem
    rw [hfree] at hsome
    cases hsome
  have hpaths : (ps ++ [temp]).map (m.setNode temp (some ⟨k, 0⟩)).pathAt =
      (l ++ [p]).map some := by
    rw [List.map_append, List.map_append, ← hkeys, List.map_singleton, pathAt_new hk hp]
    congr 1
    exact List.map_congr_left fun q hmem => pathAt_setNode_of_ne (hne q hmem) m _
  have honly' : ∀ q, ((m.setNode temp (some ⟨k, 0⟩)).nodes q).isSome → q ∈ ps ++ [temp] := by
    intro q hsome
    rw [List.mem_append, List.mem_singleton]
    exact (isSome_of_setNode hsome).elim Or.inr fun hold => Or.inl (honly q hold)
  rw [enQueue, newNode, if_neg htemp, Option.bind_eq_bind, Option.bind_some]
  by_cases hrear : m.directories_queue.rear = 0
  · obtain rfl := hq.rear_eq_null_iff.mp hrear
    exact ⟨_, if_pos hrear, ⟨[temp], .singleton htemp (Function.update_self ..) rfl, hpaths, honly'⟩,
      rfl⟩
  · have hput := hq.put hfree ⟨k, 0⟩
    obtain ⟨_, last, hlast⟩ := hput.mem (hput.rear_mem hrear)
    refine ⟨_, (if_neg hrear).trans (congrArg (Option.bind · _) hlast), ⟨ps ++ [temp], ?_, ?_, ?_⟩,
      rfl⟩
    · exact hput.append hrear (fun hmem => hne temp hmem rfl) htemp (Function.update_self ..) rfl rfl
    · refine Eq.trans (List.map_congr_left fun q _ => ?_) hpaths
      exact pathAt_setNode_next (m := m.setNode temp (some ⟨k, 0⟩)) hlast temp q
    · intro q hsome
      refine (isSome_of_setNode (m := m.setNode temp (some ⟨k, 0⟩)) hsome).elim (fun hqr => ?_)
        (honly' q)
      rw [hqr]
      exact List.mem_append_left _ (hput.rear_mem hrear)

/-- `deQueue` never fails; it frees one node and returns the key of the first path. -/
theorem deQueue_holds (h : m.Holds l) : ∃ m' key, m.deQueue = some (m', key) ∧ m'.Holds l.tail ∧
    m'.read key = some l.head?.toList ∧ m'.strings = m.strings := by
  obtain ⟨ps, hq, hkeys, honly⟩ := h
  rw [deQueue]
  cases l with
  | nil =>
    obtain rfl := List.map_eq_nil_iff.mp hkeys
    exact ⟨m, 0, if_pos hq.chain, ⟨[], hq, rfl, honly⟩, rfl, rfl⟩
  | cons p l =>
    obtain ⟨q, ps, rfl, hpath, hkeys⟩ := List.map_eq_cons_iff.mp hkeys
    obtain ⟨hfront, node, hnode, htail⟩ := hq.tail
    have hnd := List.nodup_cons.mp hq.chain.nodup
    obtain ⟨node', hnode', hkey⟩ := Option.bind_eq_some_iff.mp hpath
    obtain rfl := Option.some.inj (hnode'.symm.trans hnode)
    obtain ⟨hkey0, hstring⟩ := Option.ite_none_left_eq_some.mp hkey
    rw [hfront, if_neg (hq.mem List.mem_cons_self).1, hnode]
    refine ⟨_, _, rfl, ⟨ps, htail, ?_, fun r hr => ?_⟩, ?_, rfl⟩
    · refine Eq.trans (List.map_congr_left fun r hr => ?_) hkeys
      have hrq : r ≠ q := by
        rintro rfl
        exact hnd.1 hr
      exact pathAt_setNode_of_ne hrq m none
    · have hrq : r ≠ q := by
        rintro rfl
        simp at hr
      rcases isSome_of_setNode (m := m) hr with he | hold
      · exact absurd he hrq
      · exact (List.mem_cons.mp (honly r hold)).resolve_left hrq
    · rw [read, if_neg hkey0]
      exact congrArg (Option.map _) hstring

end Memory

/-! ## Steps on the memory -/

variable (fs original_directory searched_str) in
/-- What happens to the memory in a step. -/
inductive HeapMove (c : Heaped n) (e : Event n) (block : Ptr) : Heaped n → Prop
  | put {k : Ptr} {p : Path} {memory : Memory} {t : State n}
      (hputs : c.Puts original_directory k p e)
      (hmem : c.memory.enQueue (c.memory.malloc block) k = some memory)
      (hs : step fs original_directory searched_str c.search e = some t) :
      HeapMove c e block { c with search := t.withQueue [], memory }
  | take {i : Fin n} {stack : BitVec 32} {memory : Memory} {key : Ptr} {keys : List Path} {t : State n}
      (he : e = .worker i stack) (hw : c.search.worker i = .dequeuing)
      (hmem : c.memory.deQueue = some (memory, key)) (hkeys : memory.read key = some keys)
      (hs : step fs original_directory searched_str (c.search.withQueue keys) e = some t) :
      HeapMove c e block { c with search := t.withQueue [], memory }
  | allocate {i : Fin n} {stack : BitVec 32} {memory : Memory} {scan : Scan} {p : Path} {b : Bool}
      {t : State n} (he : e = .worker i stack) (hnot : ¬ c.search.Queues e)
      (hs : step fs original_directory searched_str c.search e = some t)
      (ht : t.worker i = .enqueuing scan p b)
      (hmem : c.memory.store (c.memory.malloc block) p = some memory) :
      HeapMove c e block
        ⟨t, memory, Function.update c.new_directory i (c.memory.malloc block)⟩
  | plain {t : State n} (hnot : ¬ c.search.Queues e)
      (hs : step fs original_directory searched_str c.search e = some t)
      (ht : ∀ i stack scan p b, e = .worker i stack → t.worker i ≠ .enqueuing scan p b) :
      HeapMove c e block { c with search := t }

theorem heaped_cases (hs : c.step fs original_directory searched_str e block = some c') :
    HeapMove fs original_directory searched_str c e block c' := by
  unfold Heaped.step at hs
  cases e with
  | main =>
    dsimp only at hs
    split at hs
    case h_1 hm =>
      obtain ⟨memory, hmem, hs⟩ := Option.bind_eq_some_iff.mp hs
      obtain ⟨t, ht, hs⟩ := Option.bind_eq_some_iff.mp hs
      cases hs
      exact .put ⟨hm, rfl, rfl⟩ hmem ht
    case h_2 hm =>
      obtain ⟨t, ht, rfl⟩ := Option.map_eq_some_iff.mp hs
      exact .plain hm ht (fun _ _ _ _ _ he => by cases he)
  | worker i stack =>
    dsimp only at hs
    split at hs
    case h_1 hw =>
      obtain ⟨⟨memory, key⟩, hmem, hs⟩ := Option.bind_eq_some_iff.mp hs
      obtain ⟨keys, hkeys, hs⟩ := Option.bind_eq_some_iff.mp hs
      obtain ⟨t, ht, hs⟩ := Option.bind_eq_some_iff.mp hs
      cases hs
      exact .take rfl hw hmem hkeys ht
    case h_2 scan p b hw =>
      obtain ⟨memory, hmem, hs⟩ := Option.bind_eq_some_iff.mp hs
      obtain ⟨t, ht, hs⟩ := Option.bind_eq_some_iff.mp hs
      cases hs
      exact .put ⟨⟨scan, b, hw⟩, rfl⟩ hmem ht
    case h_3 hd he =>
      have hnot : ¬ c.search.Queues (.worker i stack) := by
        rintro (hw | ⟨scan, p, b, hw⟩)
        · exact hd hw
        · exact he scan p b hw
      obtain ⟨t, ht, hs⟩ := Option.bind_eq_some_iff.mp hs
      split at hs
      case h_1 scan p b hw =>
        obtain ⟨memory, hmem, hs⟩ := Option.bind_eq_some_iff.mp hs
        cases hs
        exact .allocate rfl hnot ht hw hmem
      case h_2 hw =>
        cases hs
        refine .plain hnot ht fun j stack' scan p b he' => ?_
        cases he'
        exact hw scan p b
  | signal | spurious =>
    obtain ⟨t, ht, rfl⟩ := Option.map_eq_some_iff.mp hs
    exact .plain id ht (fun _ _ _ _ _ he => by cases he)

/-- Every such move is a step. -/
theorem HeapMove.step_eq (h : HeapMove fs original_directory searched_str c e block c') :
    c.step fs original_directory searched_str e block = some c' := by
  unfold Heaped.step
  cases h with
  | put hputs hmem hs =>
    cases e with
    | main =>
      obtain ⟨hm, rfl, _⟩ := hputs
      simp only [hm, hmem, hs, Option.bind_eq_bind, Option.bind_some]
    | worker i stack =>
      obtain ⟨⟨scan, b, hw⟩, rfl⟩ := hputs
      simp only [hw, hmem, hs, Option.bind_eq_bind, Option.bind_some]
    | _ => exact hputs.elim
  | take he hw hmem hkeys hs =>
    subst he
    simp only [hw, hmem, hkeys, hs, Option.bind_eq_bind, Option.bind_some]
  | allocate he hnot hs ht hmem =>
    subst he
    dsimp only
    split
    case h_1 hw => exact absurd (Or.inl hw) hnot
    case h_2 hw => exact absurd (Or.inr ⟨_, _, _, hw⟩) hnot
    case h_3 => simp only [hs, ht, hmem, Option.bind_eq_bind, Option.bind_some]
  | plain hnot hs ht =>
    cases e with
    | main =>
      dsimp only
      split
      case h_1 hm => exact absurd hm hnot
      case h_2 => rw [hs, Option.map_some]
    | worker i stack =>
      dsimp only
      split
      case h_1 hw => exact absurd (Or.inl hw) hnot
      case h_2 hw => exact absurd (Or.inr ⟨_, _, _, hw⟩) hnot
      case h_3 =>
        rw [hs, Option.bind_eq_bind, Option.bind_some]
        split
        case h_1 hw => exact absurd hw (ht i stack _ _ _ rfl)
        case h_2 => rfl
    | signal | spurious =>
      dsimp only
      rw [hs, Option.map_some]

/-! ## What a step does to the books -/

/-- The path that a worker is about to put into the queue. -/
def Worker.pending : Worker → Option Path
  | .enqueuing _ new_directory _ => some new_directory
  | _ => none

@[simp] theorem Worker.pending_unblock (w : Worker) : w.unblock.pending = w.pending := by
  cases w <;> rfl

theorem Worker.pending_eq_some {w : Worker} (h : w.pending = some p) :
    ∃ scan b, w = .enqueuing scan p b := by
  cases w with
  | enqueuing scan d b =>
    obtain rfl := Option.some.inj h
    exact ⟨scan, b, rfl⟩
  | _ => cases h

/-- Only its own step makes a worker ready to put a path into the queue. -/
theorem pending_of_step {j : Fin n} (hs : step fs original_directory searched_str s e = some t)
    (hj : ∀ stack, e ≠ .worker j stack) (h : (t.worker j).pending = some p) :
    (s.worker j).pending = some p := by
  have hwakes : t.worker j = s.worker j ∨ t.worker j = (s.worker j).unblock →
      (s.worker j).pending = some p := by
    rintro (he | he)
    · rwa [← he]
    · rwa [he, Worker.pending_unblock] at h
  replace hs := step_cases hs
  cases hs with
  | main hs =>
    rcases main_workers hs j with he | he | ⟨_, he⟩
    · exact hwakes (Or.inl he)
    · exact hwakes (Or.inr he)
    · rw [he] at h
      cases h
  | worker i stack hs =>
    obtain ⟨w, hg, _⟩ := worker_turn hs
    have hne : j ≠ i := by
      rintro rfl
      exact hj stack rfl
    exact hwakes (hg.others j hne)
  | signal i waiter hs =>
    have hg := (signal_turn hs).goes
    by_cases hne : j = i
    · subst hne
      rw [hg.self] at h
      cases h
    · exact hwakes (hg.others j hne)
  | spurious thread hs => exact hwakes ((spurious_wakes hs).worker j)

theorem first_of_step (hs : step fs original_directory searched_str s e = some t)
    (ht : t.main = .enqueuing) : s.main = .enqueuing := by
  rcases step_main_cases hs with hs | h
  · exact absurd ht (main_ne_enqueuing hs)
  · rcases h.main with he | he
    · rw [← he, ht]
    · rw [he] at ht
      cases hm : s.main with
      | enqueuing => rfl
      | _ =>
        rw [hm] at ht
        cases ht

/-- A step that puts nothing into the queue. -/
theorem enqueued_of_step (hs : step fs original_directory searched_str s e = some t)
    (hmain : e = .main → s.main ≠ .enqueuing)
    (hworker : ∀ i stack, e = .worker i stack → (s.worker i).pending = none) :
    t.enqueued = s.enqueued := by
  replace hs := step_cases hs
  cases hs with
  | main hs =>
    have hmove := main_move hs
    have hm := hmain rfl
    generalize s.main = m at hmove hm
    cases hmove with
    | enqueue => exact absurd rfl hm
    | _ => rfl
  | worker i stack hs =>
    have hmove := worker_move hs
    have hw := hworker i stack rfl
    generalize s.worker i = v at hmove hw
    cases hmove with
    | enqueue => cases hw
    | fail => rfl
    | @finish scan => cases scan.res <;> rfl
    | _ => rfl
  | signal i waiter hs => exact (signal_turn hs).books.enqueued
  | spurious thread hs => exact (spurious_wakes hs).books.enqueued

theorem enqueued_of_puts {k : Ptr} (hputs : c.Puts original_directory k p e)
    (hs : step fs original_directory searched_str c.search e = some t) :
    t.enqueued = c.search.enqueued ++ [p] ∧ ∀ i stack, e = .worker i stack →
      (t.worker i).pending = none := by
  replace hs := step_cases hs
  cases hs with
  | main hs =>
    obtain ⟨hm, _, rfl⟩ := hputs
    rw [mainStep, hm] at hs
    cases hs
    exact ⟨rfl, fun _ _ he => by cases he⟩
  | worker i stack hs =>
    obtain ⟨⟨scan, b, hw⟩, _⟩ := hputs
    rw [workerStep, hw] at hs
    cases hs
    refine ⟨rfl, fun j _ he => ?_⟩
    cases he
    rw [move_self]
    rfl
  | _ => exact hputs.elim

theorem pending_of_take {stack : BitVec 32} (hw : s.worker i = .dequeuing)
    (hs : step fs original_directory searched_str s (.worker i stack) = some t) :
    (t.worker i).pending = none := by
  replace hs := step_cases hs
  cases hs with
  | worker i stack hs =>
    have hmove := worker_move hs
    rw [hw] at hmove
    cases hmove <;> rw [move_self] <;> rfl

/-! ## The list of paths -/

variable (original_directory) in
/-- The memory holds the list `l` as the queue; the strings of all paths that have ever been put into
it are still there, at the addresses `qs`, and so are those of the paths that are about to be. -/
structure Stored (c : Heaped n) (l : List Path) (qs : List Ptr) : Prop where
  unused : c.search.withQueue [] = c.search
  holds : c.memory.Holds l
  argv1 : c.memory.strings argv1 = some original_directory
  pending : ∀ i p, (c.search.worker i).pending = some p →
    c.new_directory i ≠ 0 ∧ c.memory.strings (c.new_directory i) = some p
  nodup : qs.Nodup
  enqueued : qs.map c.memory.strings = c.search.enqueued.map some
  first : c.search.main = .enqueuing → Pfind.argv1 ∉ qs
  new : ∀ i, (c.search.worker i).pending ≠ none →
    c.new_directory i ∉ qs ∧ c.new_directory i ≠ Pfind.argv1
  apart : ∀ i j, (c.search.worker i).pending ≠ none → (c.search.worker j).pending ≠ none →
    c.new_directory i = c.new_directory j → i = j

theorem stored_initial (original_directory : Path) (n : ℕ) :
    Stored original_directory (Heaped.initial original_directory n) [] [] where
  unused := rfl
  holds := ⟨[], .empty .., rfl, fun q hq => by cases hq⟩
  argv1 := rfl
  pending i p hp := by cases hp
  nodup := List.nodup_nil
  enqueued := rfl
  first _ := List.not_mem_nil
  new i hi := absurd rfl hi
  apart i j hi := absurd rfl hi

/-- A step that takes no path into the queue and no new string into the memory. -/
theorem Stored.same {l' : List Path} {qs : List Ptr} {memory : Memory}
    (h : Stored original_directory c l qs) (hun : t.withQueue [] = t) (hl : memory.Holds l')
    (hstrings : memory.strings = c.memory.strings)
    (hpending : ∀ i p, (t.worker i).pending = some p → (c.search.worker i).pending = some p)
    (henq : t.enqueued = c.search.enqueued) (hmain : t.main = .enqueuing → c.search.main = .enqueuing) :
    Stored original_directory { c with search := t, memory } l' qs := by
  have hne : ∀ i, (t.worker i).pending ≠ none → (c.search.worker i).pending ≠ none := by
    intro i hi
    obtain ⟨p, hp⟩ := Option.ne_none_iff_exists'.mp hi
    simp [hpending i p hp]
  exact
    { unused := hun
      holds := hl
      argv1 := by rw [hstrings, h.argv1]
      pending := fun i p hp => by
        rw [hstrings]
        exact h.pending i p (hpending i p hp)
      nodup := h.nodup
      enqueued := by
        rw [hstrings, henq]
        exact h.enqueued
      first := fun hm => h.first (hmain hm)
      new := fun i hi => h.new i (hne i hi)
      apart := fun i j hi hj => h.apart i j (hne i hi) (hne j hj) }

/-- A path that is put into the queue stays in the memory, where it was. -/
theorem Stored.put {qs : List Ptr} {k : Ptr} {memory : Memory}
    (h : Stored original_directory c l qs) (hputs : c.Puts original_directory k p e)
    (hmem : c.memory.enQueue (c.memory.malloc block) k = some memory)
    (hs : step fs original_directory searched_str c.search e = some t) :
    Stored original_directory { c with search := t.withQueue [], memory } (l ++ [p]) (qs ++ [k]) := by
  have hkey : k ≠ 0 ∧ c.memory.strings k = some p ∧ k ∉ qs := by
    cases e with
    | main =>
      obtain ⟨hm, rfl, rfl⟩ := hputs
      exact ⟨Nat.one_ne_zero, h.argv1, h.first hm⟩
    | worker i stack =>
      obtain ⟨⟨scan, b, hw⟩, rfl⟩ := hputs
      have hp : (c.search.worker i).pending = some p := by rw [hw]; rfl
      exact ⟨(h.pending i p hp).1, (h.pending i p hp).2, (h.new i (by simp [hp])).1⟩
    | _ => exact hputs.elim
  obtain ⟨hk0, hkp, hkqs⟩ := hkey
  have htemp := Memory.enQueue_ne_zero hmem
  obtain ⟨hmalloc, hfree, _⟩ := Memory.malloc_ne_zero htemp
  obtain ⟨memory', hmem', hholds, hstrings⟩ :=
    Memory.enQueue_holds h.holds htemp (by rw [hmalloc]; exact hfree) hk0 hkp
  obtain rfl := Option.some.inj (hmem'.symm.trans hmem)
  obtain ⟨henq, hdone⟩ := enqueued_of_puts hputs hs
  have hpending : ∀ i p', (t.worker i).pending = some p' →
      (c.search.worker i).pending = some p' ∧ ∀ stack, e ≠ .worker i stack := by
    intro i p' hp'
    have hne : ∀ stack, e ≠ .worker i stack := by
      intro stack he
      rw [hdone i stack he] at hp'
      cases hp'
    exact ⟨pending_of_step hs hne hp', hne⟩
  have hnew : ∀ i, (t.worker i).pending ≠ none →
      (c.search.worker i).pending ≠ none ∧ c.new_directory i ≠ k := by
    intro i hi
    obtain ⟨p', hp'⟩ := Option.ne_none_iff_exists'.mp hi
    obtain ⟨hold, hne⟩ := hpending i p' hp'
    refine ⟨by simp [hold], fun hk => ?_⟩
    cases e with
    | main =>
      rw [hputs.2.1] at hk
      exact (h.new i (by simp [hold])).2 hk
    | worker j stack =>
      obtain ⟨⟨scan, b, hw⟩, rfl⟩ := hputs
      obtain rfl := h.apart i j (by simp [hold]) (by simp [hw, Worker.pending]) hk
      exact hne stack rfl
    | _ => exact hputs.elim
  exact
    { unused := rfl
      holds := hholds
      argv1 := by rw [hstrings, h.argv1]
      pending := fun i p' hp' => by
        rw [hstrings]
        exact h.pending i p' (hpending i p' hp').1
      nodup := h.nodup.append (List.nodup_singleton k) (by simpa using hkqs)
      enqueued := by
        rw [hstrings, show (t.withQueue []).enqueued = t.enqueued from rfl, henq, List.map_append,
          List.map_append, h.enqueued, List.map_singleton, hkp]
        rfl
      first := fun hm => by
        replace hm : t.main = .enqueuing := hm
        have hm' := first_of_step hs hm
        cases e with
        | main =>
          replace hs := step_cases hs
          cases hs with
          | main hs => exact absurd hm (main_ne_enqueuing hs)
        | worker i stack =>
          obtain ⟨⟨scan, b, hw⟩, rfl⟩ := hputs
          rw [List.mem_append, List.mem_singleton, not_or]
          exact ⟨h.first hm', fun he => (h.new i (by simp [hw, Worker.pending])).2 he.symm⟩
        | _ => exact hputs.elim
      new := fun i hi => by
        obtain ⟨hold, hk⟩ := hnew i hi
        rw [List.mem_append, List.mem_singleton, not_or]
        exact ⟨⟨(h.new i hold).1, hk⟩, (h.new i hold).2⟩
      apart := fun i j hi hj => h.apart i j (hnew i hi).1 (hnew j hj).1 }

/-- A new string is at an address of its own. -/
theorem Stored.allocate {qs : List Ptr} {stack : BitVec 32} {memory : Memory} {scan : Scan} {b : Bool}
    (h : Stored original_directory c l qs) (he : e = .worker i stack) (hnot : ¬ c.search.Queues e)
    (hs : step fs original_directory searched_str c.search e = some t)
    (ht : t.worker i = .enqueuing scan p b)
    (hmem : c.memory.store (c.memory.malloc block) p = some memory) (hun : t.withQueue [] = t) :
    Stored original_directory
      ⟨t, memory, Function.update c.new_directory i (c.memory.malloc block)⟩ l qs := by
  obtain ⟨hne, hmem⟩ := Option.ite_none_left_eq_some.mp hmem
  cases hmem
  obtain ⟨hmalloc, hnode, hstring⟩ := Memory.malloc_ne_zero hne
  rw [hmalloc] at hne ⊢
  have hold : ∀ q p', c.memory.strings q = some p' →
      Function.update c.memory.strings block (some p) q = some p' := by
    intro q p' hq
    have hqb : q ≠ block := by
      rintro rfl
      rw [hstring] at hq
      cases hq
    rw [Function.update_of_ne hqb, hq]
  have hpending : ∀ j p', j ≠ i → (t.worker j).pending = some p' →
      (c.search.worker j).pending = some p' := by
    intro j p' hj hp'
    refine pending_of_step hs (fun stack' he' => ?_) hp'
    rw [he] at he'
    cases he'
    exact hj rfl
  have hfresh : block ∉ qs := by
    intro hmem
    have hsome : c.memory.strings block ∈ c.search.enqueued.map some := by
      rw [← h.enqueued]
      exact List.mem_map_of_mem hmem
    rw [hstring] at hsome
    simp at hsome
  have hne_of : ∀ j, j ≠ i → (t.worker j).pending ≠ none →
      (c.search.worker j).pending ≠ none ∧ c.new_directory j ≠ block := by
    intro j hj hp
    obtain ⟨p', hp'⟩ := Option.ne_none_iff_exists'.mp hp
    have hold' := hpending j p' hj hp'
    refine ⟨by simp [hold'], fun hb => ?_⟩
    have hstr := (h.pending j p' hold').2
    rw [hb, hstring] at hstr
    cases hstr
  exact
    { unused := hun
      holds := h.holds.mono rfl rfl hold
      argv1 := hold _ _ h.argv1
      pending := fun j p' hp' => by
        dsimp only at hp' ⊢
        by_cases hj : j = i
        · subst hj
          rw [ht] at hp'
          obtain rfl := Option.some.inj hp'
          rw [Function.update_self]
          exact ⟨hne, Function.update_self ..⟩
        · obtain ⟨hj0, hstr⟩ := h.pending j p' (hpending j p' hj hp')
          rw [Function.update_of_ne hj]
          exact ⟨hj0, hold _ _ hstr⟩
      nodup := h.nodup
      enqueued := by
        have henq : t.enqueued = c.search.enqueued := by
          refine enqueued_of_step hs (fun hmain => ?_) fun j stack' he' => ?_
          · rw [he] at hmain
            cases hmain
          · rw [he] at he'
            cases he'
            rw [Option.eq_none_iff_forall_ne_some]
            intro p' hp'
            obtain ⟨scan', b', hw⟩ := Worker.pending_eq_some hp'
            exact hnot (he ▸ Or.inr ⟨scan', p', b', hw⟩)
        rw [henq, ← h.enqueued]
        refine List.map_congr_left fun q hq => Function.update_of_ne ?_ ..
        rintro rfl
        exact hfresh hq
      first := fun hm => h.first (first_of_step hs hm)
      new := fun j hj => by
        dsimp only at hj ⊢
        by_cases hji : j = i
        · subst hji
          rw [Function.update_self]
          refine ⟨hfresh, ?_⟩
          rintro rfl
          rw [h.argv1] at hstring
          cases hstring
        · rw [Function.update_of_ne hji]
          exact h.new j (hne_of j hji hj).1
      apart := fun j j' hj hj' heq => by
        dsimp only at hj hj' heq
        by_cases hji : j = i <;> by_cases hji' : j' = i
        · rw [hji, hji']
        · subst hji
          rw [Function.update_self, Function.update_of_ne hji'] at heq
          exact absurd heq.symm (hne_of j' hji' hj').2
        · subst hji'
          rw [Function.update_self, Function.update_of_ne hji] at heq
          exact absurd heq (hne_of j hji hj).2
        · rw [Function.update_of_ne hji, Function.update_of_ne hji'] at heq
          exact h.apart j j' (hne_of j hji hj).1 (hne_of j' hji' hj').1 heq }

/-- What the memory holds after a step is what `pfind` has after the same step. -/
theorem HeapMove.refines {qs : List Ptr}
    (hmove : HeapMove fs original_directory searched_str c e block c')
    (h : Stored original_directory c l qs) : ∃ l' qs', Stored original_directory c' l' qs' ∧
      step fs original_directory searched_str (c.search.withQueue l) e =
        some (c'.search.withQueue l') := by
  cases hmove with
  | put hputs hmem hs =>
    refine ⟨_, _, h.put hputs hmem hs, ?_⟩
    rw [step_puts hputs l, hs]
    rfl
  | @take i stack memory key keys t he hw hmem hkeys hs =>
    obtain ⟨memory', key', hmem', hholds, hread, hstrings⟩ := Memory.deQueue_holds h.holds
    obtain ⟨rfl, rfl⟩ := Prod.mk.inj (Option.some.inj (hmem'.symm.trans hmem))
    obtain rfl := Option.some.inj (hread.symm.trans hkeys)
    subst he
    refine ⟨l.tail, qs, ?_, ?_⟩
    · refine h.same rfl hholds hstrings (fun j p hp => ?_) ?_
        fun hm => first_of_step (s := c.search.withQueue l.head?.toList) hs hm
      · refine pending_of_step (s := c.search.withQueue l.head?.toList) hs (fun stack' he => ?_) hp
        cases he
        have hnone := pending_of_take (s := c.search.withQueue l.head?.toList) hw hs
        rw [show ((t.withQueue []).worker i).pending = (t.worker i).pending from rfl, hnone] at hp
        cases hp
      · refine enqueued_of_step (s := c.search.withQueue l.head?.toList) (t := t) hs
          (fun he => by cases he) fun j stack' he => ?_
        cases he
        rw [show (c.search.withQueue l.head?.toList).worker i = c.search.worker i from rfl, hw]
        rfl
    · rw [step_takes hw l, hs]
      rfl
  | allocate he hnot hs ht hmem =>
    have hcomm := step_withQueue fs original_directory searched_str hnot
    have hun := hcomm []
    rw [h.unused, hs, Option.map_some, Option.some.injEq] at hun
    refine ⟨l, qs, h.allocate he hnot hs ht hmem hun.symm, ?_⟩
    rw [hcomm l, hs]
    rfl
  | @plain t hnot hs ht =>
    have hcomm := step_withQueue fs original_directory searched_str hnot
    have hun := hcomm []
    rw [h.unused, hs, Option.map_some, Option.some.injEq] at hun
    refine ⟨l, qs, h.same hun.symm h.holds rfl (fun j p hp => ?_) ?_ fun hm => first_of_step hs hm, ?_⟩
    · refine pending_of_step hs (fun stack he => ?_) hp
      obtain ⟨scan, b, hw⟩ := Worker.pending_eq_some hp
      exact ht j stack scan p b he hw
    · refine enqueued_of_step hs (fun he hm => hnot (he ▸ hm)) fun j stack he => ?_
      rw [Option.eq_none_iff_forall_ne_some]
      intro p' hp'
      obtain ⟨scan', b', hw⟩ := Worker.pending_eq_some hp'
      exact hnot (he ▸ Or.inr ⟨scan', p', b', hw⟩)
    · rw [hcomm l, hs]
      rfl

/-- Where `pfind` can take a step and `malloc` succeeds, the threads can take it on their memory. -/
theorem Stored.exists_move {qs : List Ptr} (h : Stored original_directory c l qs)
    (hblock : c.memory.malloc block ≠ 0)
    (hs : step fs original_directory searched_str (c.search.withQueue l) e = some s) :
    ∃ c', HeapMove fs original_directory searched_str c e block c' := by
  obtain ⟨hmalloc, hfree, _⟩ := Memory.malloc_ne_zero hblock
  by_cases hq : c.search.Queues e
  · cases e with
    | main =>
      have hputs : c.Puts original_directory Pfind.argv1 original_directory .main := ⟨hq, rfl, rfl⟩
      obtain ⟨memory, hmem, _⟩ := Memory.enQueue_holds h.holds hblock (by rw [hmalloc]; exact hfree)
        Nat.one_ne_zero h.argv1
      rw [step_puts hputs l] at hs
      obtain ⟨t, ht, _⟩ := Option.map_eq_some_iff.mp hs
      exact ⟨_, .put hputs hmem ht⟩
    | worker i stack =>
      rcases hq with hw | ⟨scan, p, b, hw⟩
      · obtain ⟨memory, key, hmem, _, hread, _⟩ := Memory.deQueue_holds h.holds
        rw [step_takes hw l] at hs
        obtain ⟨t, ht, _⟩ := Option.map_eq_some_iff.mp hs
        exact ⟨_, .take rfl hw hmem hread ht⟩
      · have hputs : c.Puts original_directory (c.new_directory i) p (.worker i stack) :=
          ⟨⟨scan, b, hw⟩, rfl⟩
        have hp : (c.search.worker i).pending = some p := by rw [hw]; rfl
        obtain ⟨memory, hmem, _⟩ := Memory.enQueue_holds h.holds hblock
          (by rw [hmalloc]; exact hfree) (h.pending i p hp).1 (h.pending i p hp).2
        rw [step_puts hputs l] at hs
        obtain ⟨t, ht, _⟩ := Option.map_eq_some_iff.mp hs
        exact ⟨_, .put hputs hmem ht⟩
    | _ => exact hq.elim
  · rw [step_withQueue fs original_directory searched_str hq l] at hs
    obtain ⟨t, ht, _⟩ := Option.map_eq_some_iff.mp hs
    by_cases hstring : ∃ i stack scan p b, e = .worker i stack ∧ t.worker i = .enqueuing scan p b
    · obtain ⟨i, stack, scan, p, b, he, hw⟩ := hstring
      exact ⟨_, .allocate he hq ht hw (if_neg hblock)⟩
    · refine ⟨_, .plain hq ht fun i stack scan p b he hw => ?_⟩
      exact hstring ⟨i, stack, scan, p, b, he, hw⟩

variable (n fs original_directory searched_str) in
/-- The list in memory is the list of `pfind`, step by step. -/
theorem heaped_simulation : Machine.Simulation (heaped fs original_directory searched_str n)
    (pfind fs original_directory searched_str n) Prod.fst
    (fun c s => ∃ l qs, Stored original_directory c l qs ∧ s = c.search.withQueue l) where
  init := by
    rintro c rfl
    exact ⟨_, rfl, [], [], stored_initial original_directory n, rfl⟩
  step := by
    rintro c a c' _ _ hst ⟨l, qs, h, rfl⟩
    obtain ⟨l', qs', h', hstep⟩ := (heaped_cases hst).refines h
    exact ⟨_, hstep, l', qs', h', rfl⟩

/-- In every run of the threads on their memory, whatever blocks `malloc` hands out again: the linked
list holds the queue of `pfind` after the same events and there are no other nodes; no access goes
through a `NULL` or freed pointer, since wherever `pfind` can take a step, so can they as long as
`malloc` succeeds; and the string of every path that was ever put into the queue is still allocated,
each on its own. -/
theorem queue_in_memory {as : List (Event n × Ptr)}
    (hs : (heaped fs original_directory searched_str n).Run as c) :
    ∃ l, c.memory.Holds l ∧
      (pfind fs original_directory searched_str n).Run (as.map Prod.fst) (c.search.withQueue l) ∧
      (∀ e block, c.memory.malloc block ≠ 0 →
        ((∃ c', c.step fs original_directory searched_str e block = some c') ↔
          ∃ t, step fs original_directory searched_str (c.search.withQueue l) e = some t)) ∧
      ∃ qs : List Ptr, qs.Nodup ∧ qs.map c.memory.strings = c.search.enqueued.map some := by
  obtain ⟨_, hrun, l, qs, h, rfl⟩ :=
    (heaped_simulation n fs original_directory searched_str).run hs
  refine ⟨l, h.holds, hrun, fun e block hblock => ⟨?_, ?_⟩, qs, h.nodup, h.enqueued⟩
  · rintro ⟨c', hc⟩
    obtain ⟨l', _, _, hstep⟩ := (heaped_cases hc).refines h
    exact ⟨_, hstep⟩
  · rintro ⟨t, ht⟩
    obtain ⟨c', hmove⟩ := h.exists_move hblock ht
    exact ⟨c', hmove.step_eq⟩

/-- The block of the node of the root is handed out again for the string of the directory below it. -/
theorem queue_in_memory_sample : ∃ as, ∃ c : Heaped 2, ∃ l,
    (heaped sampleFolder [100] [98] 2).Run as c ∧ c.memory.Holds l ∧
      (pfind sampleFolder [100] [98] 2).Run (as.map Prod.fst) (c.search.withQueue l) ∧
      c.memory.directories_queue = ⟨3, 3⟩ ∧ c.memory.nodes 3 = some ⟨2, 0⟩ ∧
      c.memory.strings 2 = some [100, 47, 97] := by
  let offered (block : Ptr) : List (Event 2) → List (Event 2 × Ptr) := List.map (·, block)
  have hrun : (Machine.perform (fun c a => Heaped.step sampleFolder [100] [98] c a.1 a.2)
      (.initial [100] 2) (offered 2 (mainSteps 8 ++ workerSteps 8) ++ offered 3 (workerSteps 1))).map
        (fun c => (c.memory.directories_queue, c.memory.nodes 3, c.memory.strings 2)) =
      some (⟨3, 3⟩, some ⟨2, 0⟩, some [100, 47, 97]) := by decide +kernel
  obtain ⟨c, hc, hp⟩ := Option.map_eq_some_iff.mp hrun
  have hrun : (heaped sampleFolder [100] [98] 2).Run _ c := Machine.run_ofFun.mpr hc
  obtain ⟨l, hholds, hpfind, _⟩ := queue_in_memory hrun
  simp only [Prod.mk.injEq] at hp
  exact ⟨_, c, l, hrun, hholds, hpfind, hp⟩

end OsCourse.Pfind
