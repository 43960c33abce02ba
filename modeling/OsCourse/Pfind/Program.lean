import OsCourse.Foundations.Machine
import OsCourse.Pfind.Paths

/-! # pfind

`pfind.c` as a machine: main and `threads_limit` workers take turns. A step is one
critical section, one wait on a condition or one wake-up, or the examination of one
directory entry. `pthread_create` succeeds.
-/

namespace OsCourse.Pfind
open Foundations

/-- The variables of `folder_scan`: `entries` is what `readdir` has still to return. -/
structure Scan where
  directory : Path
  entries : List Name
  st_mode : BitVec 32
  res : Bool
  deriving DecidableEq

/-- Where a worker is in `thread_routine`. -/
inductive Worker where
  | unborn
  | starting
  | awaitingStart
  | loopHead
  | gate
  | gateWait
  | dequeuing
  | opening (directory : Path)
  | scanning (scan : Scan)
  | enqueuing (scan : Scan) (new_directory : Path) (queue_was_empty : Bool)
  | announcing (scan : Scan) (queue_was_empty : Bool)
  | yielding (scan : Scan) (queue_was_empty : Bool)
  | counting (scan : Scan)
  | erring
  | signalling
  | exited
  | hungry
  | drowsy
  | asleep
  | woken
  | returned
  deriving DecidableEq

/-- Where main is, with the variables of `check_threads_running`. -/
inductive MainThread where
  | enqueuing
  | creating (dbzy : ℕ)
  | numbering (dbzy : ℕ)
  | releasing
  | joining
  | looping
  | readingErrors
  | readingSleepers (errored_threads : ℤ)
  | comparing (errored_threads sleeping_threads : ℤ)
  | checkingSleeping (all_threads_finished : Bool)
  | checkingErrors (all_threads_finished : Bool)
  | blocking
  | waiting
  | left
  | reporting
  | exited (found status : ℤ)
  deriving DecidableEq

inductive Condition where
  | all_threads_initiated
  | queue_not_empty
  | new_sleeping_thread
  deriving DecidableEq

/-- The condition that a worker is blocked on. -/
def Worker.blockedOn : Worker → Option Condition
  | .awaitingStart => some .all_threads_initiated
  | .gateWait => some .new_sleeping_thread
  | .asleep => some .queue_not_empty
  | _ => none

/-- Where a worker that is blocked goes on. -/
def Worker.unblock : Worker → Worker
  | .awaitingStart => .starting
  | .gateWait => .gate
  | .asleep => .woken
  | w => w

def MainThread.unblock : MainThread → MainThread
  | .waiting => .looping
  | m => m

inductive Thread (threads_limit : ℕ) where
  | main
  | worker (i : Fin threads_limit)

/-- The globals and the position of each thread. The last four fields are not in the source: they
list the directories that were put into the queue, taken from it, and scanned, by result. -/
structure State (threads_limit : ℕ) where
  empty_queue : Bool
  directories_queue : List Path
  thread_errors_cntr : ℤ
  all_threads_are_error : Bool
  run_ended : Bool
  sleeping_threads_available : ℤ
  living_threads : ℤ
  counter : ℤ
  can_start : Bool
  main : MainThread
  worker : Fin threads_limit → Worker
  enqueued : List Path
  dequeued : List Path
  scanned : List Path
  failed : List Path

variable {threads_limit : ℕ}

def State.initial (threads_limit : ℕ) : State threads_limit where
  empty_queue := true
  directories_queue := []
  thread_errors_cntr := 0
  all_threads_are_error := false
  run_ended := false
  sleeping_threads_available := 0
  living_threads := 0
  counter := 0
  can_start := false
  main := .enqueuing
  worker _ := .unborn
  enqueued := []
  dequeued := []
  scanned := []
  failed := []

/-! ## The queue -/

def enQueue (s : State threads_limit) (k : Path) : State threads_limit :=
  { s with
    empty_queue := false
    directories_queue := s.directories_queue ++ [k]
    enqueued := s.enqueued ++ [k] }

def deQueue (s : State threads_limit) : State threads_limit × Option Path :=
  match s.directories_queue with
  | [] => ({ s with empty_queue := true }, none)
  | front_key :: rest =>
    ({ s with directories_queue := rest, dequeued := s.dequeued ++ [front_key] }, some front_key)

/-! ## Threads and conditions -/

namespace State

/-- Worker `i` goes to `w`. -/
def move (s : State threads_limit) (i : Fin threads_limit) (w : Worker) : State threads_limit :=
  { s with worker := Function.update s.worker i w }

/-- `pthread_cond_broadcast`. -/
def broadcast (s : State threads_limit) (c : Condition) : State threads_limit :=
  { s with
    main := if c = .new_sleeping_thread then s.main.unblock else s.main
    worker := fun i =>
      if (s.worker i).blockedOn = some c then (s.worker i).unblock else s.worker i }

/-- The threads that are blocked on a condition. -/
def Blocked (s : State threads_limit) (c : Condition) : Thread threads_limit → Prop
  | .main => c = .new_sleeping_thread ∧ s.main = .waiting
  | .worker i => (s.worker i).blockedOn = some c

instance (s : State threads_limit) (c : Condition) (t : Thread threads_limit) :
    Decidable (s.Blocked c t) :=
  match t with
  | .main => inferInstanceAs (Decidable (_ ∧ _))
  | .worker i => inferInstanceAs (Decidable ((s.worker i).blockedOn = some c))

/-- One blocked thread goes on. -/
def unblock (s : State threads_limit) : Thread threads_limit → State threads_limit
  | .main => { s with main := s.main.unblock }
  | .worker i => s.move i (s.worker i).unblock

/-- Nobody is blocked on `new_sleeping_thread`. -/
def NoWaiter (s : State threads_limit) : Prop :=
  ¬ s.Blocked .new_sleeping_thread .main ∧ ∀ i, ¬ s.Blocked .new_sleeping_thread (.worker i)

instance (s : State threads_limit) : Decidable s.NoWaiter := inferInstanceAs (Decidable (_ ∧ _))

end State

variable (fs : FileSystem) (original_directory : Path) (searched_str : Name)

/-! ## `folder_scan` -/

/-- One turn of the loop, for an entry. A path that does not fit into `result` has no next step:
what the source then does is undefined. `lstat` does not write `dir_metadata` when it fails. -/
def Scan.examine (scan : Scan) (d_name : Name) (rest : List Name) (empty_queue : Bool) :
    Option Worker :=
  let result := join scan.directory d_name
  if PATH_MAX ≤ result.length then none
  else
    let scan := match fs.lstat result with
      | none => { scan with entries := rest, res := true }
      | some st_mode => { scan with entries := rest, st_mode }
    if IsDots d_name then some (.scanning scan)
    else if S_ISDIR scan.st_mode then some (.enqueuing scan result empty_queue)
    else if searched_str <:+: d_name then some (.counting scan)
    else some (.scanning scan)

/-- `folder_scan` returns `res`. -/
def State.scanReturns (s : State threads_limit) (i : Fin threads_limit) (directory : Path)
    (res : Bool) : State threads_limit :=
  if res then { s with failed := s.failed ++ [directory] }.move i .erring
  else { s with scanned := s.scanned ++ [directory] }.move i .loopHead

/-! ## Steps -/

def INT_MAX : ℤ := 2147483647

/-- The next step of worker `i`; `stack` is what `folder_scan` finds in `dir_metadata`. -/
def workerStep (s : State threads_limit) (i : Fin threads_limit) (stack : BitVec 32) :
    Option (State threads_limit) :=
  match s.worker i with
  | .starting => some (s.move i (if s.can_start then .loopHead else .awaitingStart))
  | .loopHead => some (s.move i (if s.run_ended then .returned else .gate))
  | .gate => some (s.move i (if s.sleeping_threads_available = 0 then .gateWait else .dequeuing))
  | .dequeuing =>
    match deQueue s with
    | (s, none) => some (s.move i .hungry)
    | (s, some curr_directory) => some (s.move i (.opening curr_directory))
  | .opening directory =>
    match fs.opendir directory with
    | none => some (s.scanReturns i directory true)
    | some entries => some (s.move i (.scanning ⟨directory, entries, stack, false⟩))
  | .scanning scan =>
    match s.run_ended, scan.entries with
    | false, d_name :: rest =>
      (scan.examine fs searched_str d_name rest s.empty_queue).map (s.move i)
    | _, _ => some (s.scanReturns i scan.directory scan.res)
  | .enqueuing scan new_directory queue_was_empty =>
    some ((enQueue s new_directory).move i (.announcing scan queue_was_empty))
  | .announcing scan queue_was_empty =>
    some ((s.broadcast .queue_not_empty).move i (.yielding scan queue_was_empty))
  -- `sched_yield` or not: the globals stay as they are
  | .yielding scan _ => some (s.move i (.scanning scan))
  -- an `int` that overflows has no next step either
  | .counting scan =>
    if s.counter = INT_MAX then none
    else some ({ s with counter := s.counter + 1 }.move i (.scanning scan))
  | .erring =>
    some ({ s with
      thread_errors_cntr := s.thread_errors_cntr + 1
      living_threads := s.living_threads - 1 }.move i .signalling)
  | .hungry =>
    some (({ s with
      sleeping_threads_available := s.sleeping_threads_available + 1 }.broadcast
        .new_sleeping_thread).move i .drowsy)
  | .drowsy => some (s.move i .asleep)
  | .woken =>
    some ({ s with
      sleeping_threads_available := s.sleeping_threads_available - 1 }.move i .loopHead)
  | .unborn | .awaitingStart | .gateWait | .signalling | .exited | .asleep | .returned => none

/-- The next step of main: `initiate_threads`, the loop with `check_threads_running`, the end. -/
def mainStep (s : State threads_limit) : Option (State threads_limit) :=
  match s.main with
  | .enqueuing => some { enQueue s original_directory with main := .creating 0 }
  | .creating dbzy =>
    if h : dbzy < threads_limit then
      some { s.move ⟨dbzy, h⟩ .starting with main := .numbering dbzy }
    else some { s with main := .releasing }
  | .numbering dbzy =>
    some { s with living_threads := s.living_threads + 1, main := .creating (dbzy + 1) }
  | .releasing =>
    some { { s with can_start := true }.broadcast .all_threads_initiated with main := .joining }
  | .joining =>
    some { { s with
      sleeping_threads_available := s.sleeping_threads_available + 1 }.broadcast
        .new_sleeping_thread with main := .looping }
  | .looping => some { s with main := if s.run_ended then .left else .readingErrors }
  | .readingErrors => some { s with main := .readingSleepers s.thread_errors_cntr }
  | .readingSleepers errored_threads =>
    some { s with main := .comparing errored_threads s.sleeping_threads_available }
  | .comparing errored_threads sleeping_threads =>
    some { s with
      main := .checkingSleeping
        (0 < errored_threads ∧ sleeping_threads = s.living_threads + 1 : Bool) }
  | .checkingSleeping all_threads_finished =>
    some { s with
      main := if s.sleeping_threads_available = threads_limit + 1 then .left
        else .checkingErrors all_threads_finished }
  | .checkingErrors all_threads_finished =>
    some (if s.thread_errors_cntr = threads_limit then
        { s with all_threads_are_error := true, main := .left }
      else { s with main := if all_threads_finished then .left else .blocking })
  | .blocking => some { s with main := .waiting }
  | .left => some { s with run_ended := true, main := .reporting }
  | .reporting =>
    some { s with main := .exited s.counter (if s.all_threads_are_error then 1 else 0) }
  | .waiting | .exited .. => none

/-- What can happen: a thread takes its next step (where that is a `pthread_cond_signal`, it wakes
one waiter if there is one), or a blocked thread wakes up spuriously. -/
inductive Event (threads_limit : ℕ) where
  | main
  | worker (i : Fin threads_limit) (stack : BitVec 32)
  | signal (i : Fin threads_limit) (waiter : Option (Thread threads_limit))
  | spurious (thread : Thread threads_limit)

/-- The process exits as a whole, with all of its threads. -/
def MainThread.hasExited : MainThread → Bool
  | .exited .. => true
  | _ => false

/-- A thread wakes up although nobody signalled. -/
def spuriousStep (s : State threads_limit) (thread : Thread threads_limit) :
    Option (State threads_limit) :=
  if ∃ c ∈ [Condition.all_threads_initiated, .queue_not_empty, .new_sleeping_thread],
    s.Blocked c thread then some (s.unblock thread) else none

/-- `pthread_cond_signal(&new_sleeping_thread)`, then `pthread_exit`. -/
def signalStep (s : State threads_limit) (i : Fin threads_limit) :
    Option (Thread threads_limit) → Option (State threads_limit)
  | some waiter =>
    if s.worker i = .signalling ∧ s.Blocked .new_sleeping_thread waiter then
      some ((s.unblock waiter).move i .exited)
    else none
  | none =>
    if s.worker i = .signalling ∧ s.NoWaiter then some (s.move i .exited) else none

def step (s : State threads_limit) (e : Event threads_limit) : Option (State threads_limit) :=
  if s.main.hasExited then none
  else
    match e with
    | .main => mainStep original_directory s
    | .worker i stack => workerStep fs searched_str s i stack
    | .signal i waiter => signalStep s i waiter
    | .spurious thread => spuriousStep s thread

/-- `pfind original_directory searched_str threads_limit`. -/
def pfind (threads_limit : ℕ) : Machine (State threads_limit) (Event threads_limit) :=
  .ofFun (.initial threads_limit) (step fs original_directory searched_str)

end OsCourse.Pfind
