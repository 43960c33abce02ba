import OsCourse.Foundations.Machine

/-! # Last-write registers

The abstract store behind the page table and the message slots: a family of
registers, each of which holds the value of the last write to it.
-/

namespace OsCourse.Foundations
variable {K V : Type*} [DecidableEq K]

/-- The value of the last write to `k`, the writes being listed oldest first. -/
def lastWrite (k : K) : List (K × V) → Option V
  | [] => none
  | (k', v) :: ws => (lastWrite k ws).or (if k' = k then some v else none)

theorem lastWrite_append (k : K) (ws us : List (K × V)) :
    lastWrite k (ws ++ us) = (lastWrite k us).or (lastWrite k ws) := by
  induction ws with
  | nil => simp [lastWrite]
  | cons w ws ih => simp [lastWrite, ih, Option.or_assoc]

@[simp] theorem lastWrite_snoc (k k' : K) (v : V) (ws : List (K × V)) :
    lastWrite k (ws ++ [(k', v)]) = if k' = k then some v else lastWrite k ws := by
  rw [lastWrite_append]
  by_cases h : k' = k <;> simp [lastWrite, h]

/-- A step writes one register, or does nothing. -/
def writeRegister (t : K → Option V) : Option (K × V) → K → Option V
  | none => t
  | some (k, v) => Function.update t k (some v)

/-- The registers as a machine: all start empty. -/
def registers (K V : Type*) [DecidableEq K] : Machine (K → Option V) (Option (K × V)) where
  init t := t = fun _ => none
  step t a t' := t' = writeRegister t a

theorem registers_run {as : List (Option (K × V))} {t : K → Option V}
    (h : (registers K V).Run as t) (k : K) : t k = lastWrite k (as.filterMap id) := by
  induction h with
  | start h => cases h; rfl
  | @snoc as s t a _ hs ih =>
    cases hs
    cases a with
    | none => simpa [writeRegister] using ih
    | some w =>
      obtain ⟨k', v⟩ := w
      by_cases hk : k' = k
      · subst hk; simp [writeRegister]
      · simp [writeRegister, hk, Function.update_of_ne (Ne.symm hk), ih]

end OsCourse.Foundations
