import Mathlib

/-! # Descriptor tables

A process names the open files it holds by small numbers. The two ends of a fresh pipe are
opened at unused descriptors; closing one and moving the other to a given place leaves the
table as it was, but for that place.
-/

namespace OsCourse.Foundations

/-- Which open file each descriptor names. -/
abbrev Table (F : Type*) := ℕ → Option F

namespace Table
variable {F : Type*}

def empty : Table F := fun _ => none

def opened (t : Table F) (d : ℕ) (e : F) : Table F := Function.update t d (some e)

def close (t : Table F) (d : ℕ) : Table F := Function.update t d none

/-- `dup2(d, d')`, which fails if nothing is open at `d`. -/
def dup2 (t : Table F) (d d' : ℕ) : Table F :=
  match t d with
  | none => t
  | some e => t.opened d' e

def Holds (t : Table F) (e : F) : Prop := ∃ d, t d = some e

variable {t : Table F} {d d' k : ℕ} {e e' : F}

@[simp] theorem opened_self (t : Table F) (d : ℕ) (e : F) : t.opened d e d = some e :=
  Function.update_self ..

theorem opened_of_ne (h : k ≠ d) (t : Table F) (e : F) : t.opened d e k = t k :=
  Function.update_of_ne h _ _

theorem close_of_ne (h : k ≠ d) (t : Table F) : t.close d k = t k := Function.update_of_ne h _ _

theorem opened_comm (h : d ≠ d') (t : Table F) (e e' : F) :
    (t.opened d e).opened d' e' = (t.opened d' e').opened d e :=
  Function.update_comm h _ _ _

theorem close_opened (h : t d = none) (e : F) : (t.opened d e).close d = t := by
  rw [opened, close, Function.update_idem, ← h, Function.update_eq_self]

theorem dup2_eq (h : t d = some e) : t.dup2 d d' = t.opened d' e := by
  rw [dup2, h]

/-! ## Files that are held -/

theorem not_holds_empty (e : F) : ¬ (empty : Table F).Holds e := by
  rintro ⟨_, h⟩
  cases h

theorem Holds.of_opened (h : (t.opened d e).Holds e') : e' = e ∨ t.Holds e' := by
  obtain ⟨k, hk⟩ := h
  by_cases hd : k = d
  · subst hd
    rw [opened_self] at hk
    exact Or.inl (Option.some.inj hk).symm
  · exact Or.inr ⟨k, opened_of_ne hd t e ▸ hk⟩

theorem Holds.of_close (h : (t.close d).Holds e) : t.Holds e := by
  obtain ⟨k, hk⟩ := h
  by_cases hd : k = d
  · rw [hd, close, Function.update_self] at hk
    cases hk
  · exact ⟨k, close_of_ne hd t ▸ hk⟩

theorem Holds.of_dup2 (h : (t.dup2 d d').Holds e) : t.Holds e := by
  cases hd : t d with
  | none => rwa [dup2, hd] at h
  | some f =>
    rw [dup2_eq hd] at h
    obtain rfl | h := h.of_opened
    · exact ⟨d, hd⟩
    · exact h

/-! ## Redirection -/

/-- Of two files that were opened at unused descriptors, one is closed and the other is moved. -/
theorem redirect (hd : t d = none) (hd' : t d' = none) (hne : d ≠ d') (hk : k ≠ d') (e e' : F) :
    ((((t.opened d e).opened d' e').close d).dup2 d' k).close d' = t.opened k e' := by
  have hmoved : (t.opened d' e').dup2 d' k = (t.opened k e').opened d' e' := by
    rw [dup2_eq (opened_self t d' e'), opened_comm (Ne.symm hk)]
  rw [opened_comm hne, close_opened (by rwa [opened_of_ne hne]), hmoved,
    close_opened (by rwa [opened_of_ne (Ne.symm hk)])]

end Table
end OsCourse.Foundations
