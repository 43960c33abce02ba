import Mathlib

/-! # One direction of a reliable connection

What is sent is handed over in the order in which it was sent, in pieces of any lengths.
-/

namespace OsCourse.Foundations

/-- What has been handed over, and what is under way. -/
structure Fifo (α : Type*) where
  arrived : List α
  pending : List α

namespace Fifo
variable {α : Type*}

def empty : Fifo α := ⟨[], []⟩

def sent (x : Fifo α) : List α := x.arrived ++ x.pending

def send (x : Fifo α) (l : List α) : Fifo α := { x with pending := x.pending ++ l }

/-- The next `n` that are under way are handed over. -/
def recv (x : Fifo α) (n : ℕ) : Fifo α := ⟨x.arrived ++ x.pending.take n, x.pending.drop n⟩

@[simp] theorem sent_send (x : Fifo α) (l : List α) : (x.send l).sent = x.sent ++ l :=
  (List.append_assoc ..).symm

@[simp] theorem sent_recv (x : Fifo α) (n : ℕ) : (x.recv n).sent = x.sent := by
  rw [sent, recv, List.append_assoc, List.take_append_drop]
  rfl

@[simp] theorem arrived_recv (x : Fifo α) (n : ℕ) :
    (x.recv n).arrived = x.arrived ++ x.pending.take n := rfl

theorem arrived_prefix (x : Fifo α) : x.arrived <+: x.sent := List.prefix_append ..

end Fifo
end OsCourse.Foundations
