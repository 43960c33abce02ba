import OsCourse.Pfind.Counters

/-! # No directory is lost

Every directory that was put into the queue is still there or was taken from it, in this
order; every directory that was taken has been scanned, has failed, or is in the hands of
one worker.
-/

namespace OsCourse.Pfind
open Foundations

variable {fs : FileSystem} {original_directory : Path} {searched_str : Name} {n : ℕ}
  {s t : State n} {i : Fin n} {v w : Worker} {e : Event n}

/-- The directory in the hands of a worker, if there is one. -/
def Worker.inHand (w : Worker) : Multiset Path :=
  match w.directory with
  | some d => {d}
  | none => 0

@[simp] theorem Worker.inHand_unblock (w : Worker) : w.unblock.inHand = w.inHand := by
  rw [inHand, inHand, directory_unblock]

/-- The directories whose scan has ended. -/
def State.finished (s : State n) : Multiset Path := ↑s.scanned + ↑s.failed

structure Books (s : State n) : Prop where
  fifo : s.enqueued = s.dequeued ++ s.directories_queue
  hands : (s.dequeued : Multiset Path) = s.finished + ∑ i, (s.worker i).inHand

/-- A worker that goes from `v` to `w` keeps the books. -/
structure Keeps (s t : State n) (v w : Worker) : Prop where
  fifo : s.enqueued = s.dequeued ++ s.directories_queue →
    t.enqueued = t.dequeued ++ t.directories_queue
  hands : (t.dequeued : Multiset Path) + (s.finished + v.inHand) =
    s.dequeued + (t.finished + w.inHand)

theorem SameBooks.finished (h : SameBooks s t) : t.finished = s.finished := by
  rw [State.finished, State.finished, h.scanned, h.failed]

theorem SameBooks.keeps (h : SameBooks s t) (hw : w.inHand = v.inHand) : Keeps s t v w where
  fifo hf := by rw [h.enqueued, h.dequeued, h.queue, hf]
  hands := by rw [h.dequeued, h.finished, hw]

theorem Books.goes (h : Books s) (hg : Goes s t i w) (hk : Keeps s t (s.worker i) w) :
    Books t where
  fifo := hk.fifo h.fifo
  hands := by
    have hsum := hg.sum Worker.inHand_unblock
    have hhands := hk.hands
    rw [h.hands] at hhands
    have hcancel : (t.dequeued : Multiset Path) + (s.finished + (s.worker i).inHand) =
        t.finished + ∑ j, (t.worker j).inHand + (s.finished + (s.worker i).inHand) := by
      rw [hhands, add_assoc t.finished, add_left_comm _ s.finished, hsum]
      abel
    exact add_right_cancel hcancel

theorem finished_scanReturns (s : State n) (i : Fin n) (d : Path) (res : Bool) :
    (s.scanReturns i d res).finished = s.finished + {d} := by
  have hd : ∀ l : List Path, ((l ++ [d] : List Path) : Multiset Path) = ↑l + {d} := fun _ => rfl
  cases res with
  | true =>
    show (s.scanned : Multiset Path) + ↑(s.failed ++ [d]) = ↑s.scanned + ↑s.failed + {d}
    rw [hd, add_assoc]
  | false =>
    show ((s.scanned ++ [d] : List Path) : Multiset Path) + ↑s.failed = ↑s.scanned + ↑s.failed + {d}
    rw [hd, add_right_comm]

theorem scanReturns_keeps (s : State n) (i : Fin n) (d : Path) (res : Bool)
    (hv : v.directory = some d) :
    ∃ w, Goes s (s.scanReturns i d res) i w ∧ Keeps s (s.scanReturns i d res) v w := by
  have hw : ∃ w, Goes s (s.scanReturns i d res) i w ∧ w.inHand = 0 := by
    cases res with
    | true => exact ⟨.erring, .of_update rfl, rfl⟩
    | false => exact ⟨.loopHead, .of_update rfl, rfl⟩
  obtain ⟨w, hg, hw⟩ := hw
  refine ⟨w, hg, fun hf => ?_, ?_⟩
  · cases res <;> exact hf
  · have hd : (s.scanReturns i d res).dequeued = s.dequeued := by cases res <;> rfl
    rw [finished_scanReturns, hd, hw, add_zero, Worker.inHand, hv]

theorem worker_keeps {stack : BitVec 32} (hs : workerStep fs searched_str s i stack = some t) :
    ∃ w, Goes s t i w ∧ Keeps s t (s.worker i) w := by
  have hmove := worker_move hs
  generalize s.worker i = v at hmove ⊢
  cases hmove with
  | start | head | pass =>
    exact ⟨_, .of_update rfl, SameBooks.keeps ⟨rfl, rfl, rfl, rfl, rfl⟩ (by split <;> rfl)⟩
  | @take d rest hq =>
    refine ⟨.opening d, .of_update rfl, fun hf => ?_, ?_⟩
    · rw [hq] at hf
      simpa [State.move] using hf
    · show ((s.dequeued ++ [d] : List Path) : Multiset Path) + (s.finished + 0) =
        ↑s.dequeued + (s.finished + {d})
      rw [← Multiset.coe_add, Multiset.coe_singleton]
      abel
  | fail => exact scanReturns_keeps s i _ true rfl
  | examine _ _ hw =>
    refine ⟨_, .of_update rfl, SameBooks.keeps ⟨rfl, rfl, rfl, rfl, rfl⟩ ?_⟩
    rw [Worker.inHand, (Scan.examine_busy hw).2.2.2]
    rfl
  | finish => exact scanReturns_keeps s i _ _ rfl
  | @enqueue scan d b =>
    refine ⟨_, .of_update rfl, fun hf => ?_, rfl⟩
    show s.enqueued ++ [d] = s.dequeued ++ (s.directories_queue ++ [d])
    rw [hf, List.append_assoc]
  | announce | doze =>
    exact ⟨_, .broadcast (by rfl) _ i _, SameBooks.keeps ⟨rfl, rfl, rfl, rfl, rfl⟩ rfl⟩
  | starve | enter | yield | count | err | sleep | rise =>
    exact ⟨_, .of_update rfl, SameBooks.keeps ⟨rfl, rfl, rfl, rfl, rfl⟩ rfl⟩

/-! ## The other threads -/

theorem Books.same (h : Books s) (hb : SameBooks s t)
    (hw : ∀ j, (t.worker j).inHand = (s.worker j).inHand) : Books t where
  fifo := by rw [hb.enqueued, hb.dequeued, hb.queue, h.fifo]
  hands := by rw [hb.dequeued, hb.finished, h.hands]; simp only [hw]

theorem Worker.inHand_of_early {w : Worker} (h : w.early = true) : w.inHand = 0 := by
  cases w <;> first | rfl | cases h

theorem main_inHand (h : Sound s) (hs : mainStep original_directory s = some t) (j : Fin n) :
    (t.worker j).inHand = (s.worker j).inHand := by
  rcases main_workers hs j with he | he | ⟨hm, he⟩ <;> rw [he]
  · exact Worker.inHand_unblock _
  · rw [Worker.inHand_of_early (h.early hm j)]
    rfl

theorem Books.main (h : Books s) (hsound : Sound s)
    (hs : mainStep original_directory s = some t) : Books t := by
  rcases main_books hs with ⟨_, rfl⟩ | ⟨_, hb, _⟩
  · refine ⟨?_, h.hands⟩
    show s.enqueued ++ [original_directory] =
      s.dequeued ++ (s.directories_queue ++ [original_directory])
    rw [h.fifo, List.append_assoc]
  · exact h.same hb (main_inHand hsound hs)

theorem Books.step (h : Books s) (hsound : Sound s)
    (hs : step fs original_directory searched_str s e = some t) : Books t := by
  replace hs := step_cases hs
  cases hs with
  | main hs => exact h.main hsound hs
  | worker i stack hs =>
    obtain ⟨w, hg, hk⟩ := worker_keeps hs
    exact h.goes hg hk
  | signal i waiter hs =>
    have hsig := signal_turn hs
    exact h.goes hsig.goes (hsig.books.keeps (by rw [hsig.signalling]; rfl))
  | spurious thread hs =>
    have hw := spurious_wakes hs
    exact h.same hw.books (hw.apply Worker.inHand_unblock)

theorem books_of_reachable (h : (pfind fs original_directory searched_str n).Reachable s) :
    Books s := by
  have hb : Sound s ∧ Books s := by
    refine h.invariant (I := fun s => Sound s ∧ Books s) (fun s hs => ?_) fun s e t hi hs =>
      ⟨hi.1.step hs, hi.2.step hi.1 hs⟩
    rw [show s = State.initial n from hs]
    refine ⟨sound_initial, rfl, ?_⟩
    have hzero : ∑ i : Fin n, ((State.initial n).worker i).inHand = 0 :=
      Finset.sum_eq_zero fun _ _ => rfl
    rw [hzero]
    rfl
  exact hb.2

/-- When the queue is empty and nobody holds a directory, every directory that was put into the
queue has been scanned or has failed. -/
theorem Books.all_finished (h : Books s) (hq : s.directories_queue = [])
    (hd : ∀ i, (s.worker i).directory = none) (d : Path) (hin : d ∈ s.enqueued) :
    d ∈ s.scanned ∨ d ∈ s.failed := by
  have hzero : ∑ i, (s.worker i).inHand = 0 :=
    Finset.sum_eq_zero fun i _ => by rw [Worker.inHand, hd i]
  have hhands := h.hands
  rw [hzero, add_zero] at hhands
  rw [h.fifo, hq, List.append_nil] at hin
  have hmem : d ∈ s.finished := hhands ▸ Multiset.mem_coe.mpr hin
  rw [State.finished, Multiset.mem_add] at hmem
  exact hmem.imp Multiset.mem_coe.mp Multiset.mem_coe.mp

end OsCourse.Pfind
