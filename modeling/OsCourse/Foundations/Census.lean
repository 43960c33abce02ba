import Mathlib

/-! # Counting the members of a family

A family `f : ι → W` of threads, cells or registers changes one member at a time. Sums
over the family, and the number of its members of some kind, follow each change.
-/

namespace OsCourse.Foundations
variable {ι W M : Type*} [Fintype ι]

/-- The number of members that satisfy `p`. -/
def census (p : W → Bool) (f : ι → W) : ℤ := ∑ i, if p (f i) then 1 else 0

section
variable [DecidableEq ι]

/-- Two families that differ in one member. -/
theorem sum_of_eq_except [AddCommMonoid M] {f g : ι → M} {i : ι} (h : ∀ j ≠ i, g j = f j) :
    ∑ j, g j + f i = ∑ j, f j + g i := by
  have hrest : ∑ j ∈ Finset.univ.erase i, g j = ∑ j ∈ Finset.univ.erase i, f j :=
    Finset.sum_congr rfl fun j hj => h j (Finset.ne_of_mem_erase hj)
  rw [← Finset.sum_erase_add _ _ (Finset.mem_univ i), ← Finset.sum_erase_add _ f (Finset.mem_univ i),
    hrest, add_assoc, add_assoc, add_comm (g i)]

theorem sum_update [AddCommMonoid M] (g : W → M) (f : ι → W) (i : ι) (w : W) :
    ∑ j, g (Function.update f i w j) + g (f i) = ∑ j, g (f j) + g w := by
  have hrest : ∑ j ∈ Finset.univ.erase i, g (Function.update f i w j) =
      ∑ j ∈ Finset.univ.erase i, g (f j) :=
    Finset.sum_congr rfl fun j hj => by rw [Function.update_of_ne (Finset.ne_of_mem_erase hj)]
  rw [← Finset.sum_erase_add _ _ (Finset.mem_univ i), ← Finset.sum_erase_add _ _ (Finset.mem_univ i),
    hrest, Function.update_self, add_assoc, add_assoc, add_comm (g w)]

/-- One member goes to `w`, and each of the others gains at most `r`. -/
theorem sum_le_update (g : W → ℕ) {f f' : ι → W} {i : ι} {w : W} {r : ℕ} (hw : f' i = w)
    (h : ∀ j ≠ i, g (f' j) ≤ g (f j) + r) :
    ∑ j, g (f' j) + g (f i) ≤ ∑ j, g (f j) + g w + Fintype.card ι * r := by
  have hle : ∀ j, g (f' j) ≤ g (Function.update f i w j) + r := by
    intro j
    by_cases hj : j = i
    · rw [hj, Function.update_self, hw]
      exact Nat.le_add_right ..
    · rw [Function.update_of_ne hj]
      exact h j hj
  have hsum := Finset.sum_le_sum fun j (_ : j ∈ Finset.univ) => hle j
  rw [Finset.sum_add_distrib, Finset.sum_const, Finset.card_univ, smul_eq_mul] at hsum
  have hone := sum_update g f i w
  omega

theorem census_update (p : W → Bool) (f : ι → W) (i : ι) (w : W) :
    census p (Function.update f i w) =
      census p f - (if p (f i) then 1 else 0) + if p w then 1 else 0 := by
  have h := sum_update (fun w => if p w then (1 : ℤ) else 0) f i w
  simp only [census]
  omega

end

variable {p q : W → Bool} {f g : ι → W}

theorem census_congr (h : ∀ i, p (f i) = p (g i)) : census p f = census p g := by
  simp only [census, h]

theorem census_eq_card (p : W → Bool) (f : ι → W) :
    census p f = (Finset.univ.filter fun i => p (f i) = true).card := by
  rw [Finset.card_filter, census]
  push_cast
  rfl

theorem census_nonneg (p : W → Bool) (f : ι → W) : 0 ≤ census p f := by
  rw [census_eq_card]
  exact Int.natCast_nonneg _

theorem census_le (p : W → Bool) (f : ι → W) : census p f ≤ Fintype.card ι := by
  rw [census_eq_card, Int.ofNat_le]
  exact Finset.card_le_univ _

theorem census_eq_zero_iff : census p f = 0 ↔ ∀ i, p (f i) = false := by
  rw [census_eq_card, Int.natCast_eq_zero, Finset.card_eq_zero, Finset.filter_eq_empty_iff]
  simp

theorem census_eq_card_iff : census p f = Fintype.card ι ↔ ∀ i, p (f i) = true := by
  rw [census_eq_card, Int.natCast_inj, Finset.card_eq_iff_eq_univ, Finset.filter_eq_self]
  simp

/-- Two kinds that exclude each other. -/
theorem census_add (h : ∀ w, p w = true → q w = false) :
    census p f + census q f = census (fun w => p w || q w) f := by
  rw [census, census, census, ← Finset.sum_add_distrib]
  refine Finset.sum_congr rfl fun i _ => ?_
  cases hp : p (f i) with
  | false => simp
  | true => simp [h _ hp]

/-! ## Counting the values of a function -/

section Images
variable {α β γ : Type*} [DecidableEq β] [DecidableEq γ] {S : Finset α} {f : α → β} {g : α → γ}

theorem card_image_pair (h : ∀ x ∈ S, ∀ y ∈ S, f x = f y → g x = g y) :
    (S.image f).card = (S.image fun x => (f x, g x)).card := by
  have himage : (S.image fun x => (f x, g x)).image Prod.fst = S.image f := by
    rw [Finset.image_image]
    rfl
  rw [← himage, Finset.card_image_of_injOn]
  intro p hp q hq hpq
  obtain ⟨x, hx, rfl⟩ := Finset.mem_image.mp hp
  obtain ⟨y, hy, rfl⟩ := Finset.mem_image.mp hq
  exact Prod.ext hpq (h x hx y hy hpq)

/-- Two functions that make the same distinctions have equally many values. -/
theorem card_image_congr (h : ∀ x ∈ S, ∀ y ∈ S, f x = f y ↔ g x = g y) :
    (S.image f).card = (S.image g).card := by
  have hswap : (S.image fun x => (g x, f x)) = (S.image fun x => (f x, g x)).image Prod.swap := by
    rw [Finset.image_image]
    rfl
  rw [card_image_pair fun x hx y hy => (h x hx y hy).mp,
    card_image_pair fun x hx y hy => (h x hx y hy).mpr, hswap,
    Finset.card_image_of_injective _ Prod.swap_injective]

end Images

end OsCourse.Foundations
