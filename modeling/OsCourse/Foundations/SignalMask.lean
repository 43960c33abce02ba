import Mathlib

/-! # One maskable signal of a process

POSIX blocking and pending for a single signal with a handler: an arrival runs the
handler at once unless the signal is blocked, then it is remembered, once, and
delivered by the call that unblocks it.
-/

namespace OsCourse.Foundations

structure SignalMask where
  blocked : Bool
  pending : Bool
  deriving DecidableEq, Repr

namespace SignalMask
variable {S : Type*}

def clear : SignalMask := ⟨false, false⟩

/-- The signal arrives while the process is in state `s`. -/
def arrive (handler : S → S) (g : SignalMask) (s : S) : SignalMask × S :=
  if g.blocked then (⟨true, true⟩, s) else (g, handler s)

/-- `sigprocmask(SIG_BLOCK, …)`. -/
def block (g : SignalMask) : SignalMask := ⟨true, g.pending⟩

/-- `sigprocmask(SIG_UNBLOCK, …)`: a pending signal is delivered before it returns. -/
def unblock (handler : S → S) (g : SignalMask) (s : S) : SignalMask × S :=
  (clear, if g.pending then handler s else s)

section
variable {g : SignalMask} {handler : S → S} {s : S}

theorem arrive_of_blocked (h : g.blocked = true) : g.arrive handler s = (⟨true, true⟩, s) := by
  rw [SignalMask.arrive, if_pos h]

theorem arrive_of_open (h : g.blocked = false) : g.arrive handler s = (g, handler s) := by
  rw [SignalMask.arrive, if_neg (by simp [h])]

theorem unblock_of_pending (h : g.pending = true) : g.unblock handler s = (clear, handler s) := by
  rw [SignalMask.unblock, if_pos h]

theorem unblock_of_idle (h : g.pending = false) : g.unblock handler s = (clear, s) := by
  rw [SignalMask.unblock, if_neg (by simp [h])]

end

/-- A signal is only pending while it is blocked, and a signal that has arrived is either
pending or has been handled, which is what `handled` says of the process. -/
structure Accounted (arrived handled : Prop) (g : SignalMask) : Prop where
  blocked : g.pending = true → g.blocked = true
  arrived : arrived → g.pending = true ∨ handled

variable {arrived handled : Prop} {g : SignalMask}

theorem accounted_clear (h : arrived → handled) : Accounted arrived handled clear :=
  ⟨nofun, fun ha => Or.inr (h ha)⟩

theorem accounted_pending : Accounted arrived handled ⟨true, true⟩ :=
  ⟨fun _ => rfl, fun _ => Or.inl rfl⟩

theorem Accounted.handled_of_idle (h : Accounted arrived handled g) (hp : g.pending = false)
    (ha : arrived) : handled :=
  (h.arrived ha).resolve_left (by simp [hp])

theorem Accounted.handled_of_open (h : Accounted arrived handled g) (hb : g.blocked = false)
    (ha : arrived) : handled := by
  refine (h.arrived ha).resolve_left fun hp => ?_
  rw [h.blocked hp] at hb
  cases hb

theorem Accounted.block (h : Accounted arrived handled g) : Accounted arrived handled g.block :=
  ⟨fun _ => rfl, h.arrived⟩

end SignalMask
end OsCourse.Foundations
