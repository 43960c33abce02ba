import OsCourse.PageTable.Walk

/-! # Words of the walks: links, leaf entries and the five symbols of a page number

A link to frame `p` is `(p << 12) + 1`; it is non-zero and valid, so the two tests
of the walks agree on it. The five symbols of a page number are its base-512 digits,
so two page numbers share all five exactly when they agree modulo `2 ^ 45`.
-/

namespace OsCourse.PageTable

/-- The interior entry that links to frame `p`. -/
def linkWord (p : Word) : Word := (p <<< 12) + 1#64

/-- The frame an entry links to. -/
def frameOf (entry : Word) : Word := entry >>> 12

theorem linkWord_toNat (p : Word) : (linkWord p).toNat = p.toNat * 4096 % 2 ^ 64 + 1 := by
  simp only [linkWord, BitVec.toNat_add, BitVec.toNat_shiftLeft, Nat.shiftLeft_eq,
    BitVec.toNat_ofNat]
  omega

theorem and_one_eq_zero_iff (x : Word) : x &&& 1#64 = 0#64 ↔ x.toNat % 2 = 0 := by
  rw [← BitVec.toNat_inj, BitVec.toNat_and]
  simp [Nat.and_one_is_mod]

@[simp] theorem linkWord_ne_zero (p : Word) : linkWord p ≠ 0#64 := by
  intro h
  have hn := congrArg BitVec.toNat h
  rw [linkWord_toNat, BitVec.toNat_ofNat] at hn
  omega

@[simp] theorem linkWord_valid (p : Word) : linkWord p &&& 1#64 ≠ 0#64 := by
  rw [Ne, and_one_eq_zero_iff, linkWord_toNat]
  omega

/-- A leaf entry keeps the low 52 bits of its frame number, shifted back by query. -/
theorem linkWord_shift (p : Word) : linkWord p >>> 12 = (p.setWidth 52).setWidth 64 := by
  apply BitVec.eq_of_toNat_eq
  simp only [BitVec.toNat_ushiftRight, linkWord_toNat, Nat.shiftRight_eq_div_pow,
    BitVec.toNat_setWidth]
  omega

theorem frameOf_linkWord {p : Word} (hp : p.toNat < 2 ^ 52) : frameOf (linkWord p) = p := by
  apply BitVec.eq_of_toNat_eq
  simp only [frameOf, BitVec.toNat_ushiftRight, linkWord_toNat, Nat.shiftRight_eq_div_pow]
  omega

theorem mask_offset (x : Word) : (x &&& twelveBitsLsb) &&& 0xfff#64 = 0#64 := by
  rw [BitVec.and_assoc, show twelveBitsLsb &&& 0xfff#64 = 0#64 by rfl, BitVec.and_zero]

theorem mask_frame (x : Word) : (x &&& twelveBitsLsb) >>> 12 = frameOf x := by
  rw [BitVec.ushiftRight_and_distrib, frameOf]
  apply BitVec.eq_of_toNat_eq
  rw [BitVec.toNat_and, show (twelveBitsLsb >>> 12).toNat = 2 ^ 52 - 1 by rfl,
    Nat.and_two_pow_sub_one_eq_mod, BitVec.toNat_ushiftRight, Nat.shiftRight_eq_div_pow]
  omega

theorem root_offset (p : Word) : (p <<< 12) &&& 0xfff#64 = 0#64 := by
  apply BitVec.eq_of_toNat_eq
  rw [BitVec.toNat_and, show (0xfff#64).toNat = 2 ^ 12 - 1 by rfl,
    Nat.and_two_pow_sub_one_eq_mod, BitVec.toNat_shiftLeft, Nat.shiftLeft_eq, BitVec.toNat_ofNat]
  omega

theorem root_frame {p : Word} (hp : p.toNat < 2 ^ 52) : (p <<< 12) >>> 12 = p := by
  apply BitVec.eq_of_toNat_eq
  simp only [BitVec.toNat_ushiftRight, BitVec.toNat_shiftLeft, Nat.shiftLeft_eq,
    Nat.shiftRight_eq_div_pow]
  omega

/-- Clearing the valid bit of any word leaves an invalid entry. -/
theorem clear_valid (x : Word) : ((x >>> 1) <<< 1) &&& 1#64 = 0#64 := by
  rw [and_one_eq_zero_iff]
  simp only [BitVec.toNat_ushiftRight, BitVec.toNat_shiftLeft, Nat.shiftLeft_eq,
    Nat.shiftRight_eq_div_pow]
  omega

/-! ## Symbols -/

theorem currSymbol_toNat (v : Word) : (currSymbol v).toNat = v.toNat / 2 ^ 36 % 512 := by
  rw [currSymbol, BitVec.ushiftRight_and_distrib, BitVec.toNat_and,
    show (nineBitsMsb >>> 36).toNat = 2 ^ 9 - 1 by rfl, Nat.and_two_pow_sub_one_eq_mod,
    BitVec.toNat_ushiftRight, Nat.shiftRight_eq_div_pow]

theorem currSymbol_lt (v : Word) : (currSymbol v).toNat < 512 := by
  rw [currSymbol_toNat]
  exact Nat.mod_lt _ (by omega)

/-- The current symbol as an index into a page. -/
def symbol (v : Word) : Fin 512 := ⟨(currSymbol v).toNat, currSymbol_lt v⟩

@[simp] theorem symbol_val (v : Word) : (symbol v : ℕ) = (currSymbol v).toNat := rfl

/-- `temp_vpn` after `layers` turns of a loop. -/
def shiftVpn : ℕ → Word → Word
  | 0, v => v
  | layers + 1, v => shiftVpn layers (v <<< 9)

/-- The symbols that `layers` turns of a loop consume. -/
def path : ℕ → Word → List (Fin 512)
  | 0, _ => []
  | layers + 1, v => symbol v :: path layers (v <<< 9)

@[simp] theorem path_length (layers : ℕ) (v : Word) : (path layers v).length = layers := by
  induction layers generalizing v with
  | zero => rfl
  | succ layers ih => simp [path, ih]

theorem path_take_succ {layers k : ℕ} (hk : k < layers) (v : Word) :
    (path layers v).take (k + 1) = (path layers v).take k ++ [symbol (v <<< (9 * k))] := by
  induction layers generalizing k v with
  | zero => cases hk
  | succ layers ih =>
    rw [path, List.take_succ_cons]
    cases k with
    | zero => simp
    | succ k =>
      rw [ih (Nat.lt_of_succ_lt_succ hk), List.take_succ_cons, List.cons_append,
        ← BitVec.shiftLeft_add, Nat.mul_succ, Nat.add_comm 9]

/-- The index of the leaf entry of a page number. -/
def leafSymbol (vpn : Word) : Fin 512 := symbol (shiftVpn 4 vpn)

theorem symbol_shift (v : Word) (k : ℕ) (hk : k ≤ 4) :
    (symbol (v <<< (9 * k)) : ℕ) = v.toNat / 2 ^ (9 * (4 - k)) % 512 := by
  rw [symbol_val, currSymbol_toNat, BitVec.toNat_shiftLeft, Nat.shiftLeft_eq]
  interval_cases k <;> omega

theorem leafSymbol_eq (v : Word) : leafSymbol v = symbol (v <<< (9 * 4)) := by
  simp only [leafSymbol, shiftVpn, ← BitVec.shiftLeft_add]

/-- The bits above `9 * (4 - k)` are those of the symbol with number `k` and those above it. -/
theorem shiftRight_eq_iff (v w : Word) {k : ℕ} (hk : k ≤ 4) :
    (v.toNat % 2 ^ 45) >>> (9 * (4 - k)) = (w.toNat % 2 ^ 45) >>> (9 * (4 - k)) ↔
      (v.toNat % 2 ^ 45) >>> (9 * (5 - k)) = (w.toNat % 2 ^ 45) >>> (9 * (5 - k)) ∧
        symbol (v <<< (9 * k)) = symbol (w <<< (9 * k)) := by
  have hsymbol (u : Word) : (symbol (u <<< (9 * k)) : ℕ) =
      (u.toNat % 2 ^ 45) >>> (9 * (4 - k)) % 512 := by
    have hpow : 2 ^ 45 = 2 ^ (9 * (4 - k)) * (512 * 2 ^ (9 * k)) := by
      rw [← pow_mul_pow_sub 2 (show 9 * (4 - k) ≤ 45 by omega)]
      congr 1
      rw [show 45 - 9 * (4 - k) = 9 + 9 * k by omega, pow_add]
      rfl
    rw [symbol_shift u k hk, Nat.shiftRight_eq_div_pow, hpow, Nat.mod_mul_right_div_self,
      Nat.mod_mul_right_mod]
  rw [Fin.ext_iff, hsymbol, hsymbol, show 9 * (5 - k) = 9 * (4 - k) + 9 by omega,
    Nat.shiftRight_add, Nat.shiftRight_add, Nat.shiftRight_eq_div_pow _ 9,
    Nat.shiftRight_eq_div_pow _ 9]
  omega

/-- Page numbers share the first `k` symbols if they share the bits above the others. -/
theorem take_path_iff (v w : Word) {k : ℕ} (hk : k ≤ 4) :
    (path 4 v).take k = (path 4 w).take k ↔
      (v.toNat % 2 ^ 45) >>> (9 * (5 - k)) = (w.toNat % 2 ^ 45) >>> (9 * (5 - k)) := by
  induction k with
  | zero =>
    have hzero (u : Word) : (u.toNat % 2 ^ 45) >>> (9 * (5 - 0)) = 0 := by
      rw [Nat.shiftRight_eq_div_pow]
      exact Nat.div_eq_of_lt (Nat.mod_lt _ (by decide))
    rw [hzero, hzero]
    exact iff_of_true rfl rfl
  | succ k ih =>
    rw [path_take_succ hk, path_take_succ hk, show 5 - (k + 1) = 4 - k by omega,
      shiftRight_eq_iff v w (by omega), ← ih (by omega), List.append_singleton_inj]

/-- Two page numbers have the same five symbols exactly when they agree modulo `2 ^ 45`. -/
theorem symbols_eq_iff (v w : Word) :
    path 4 v = path 4 w ∧ leafSymbol v = leafSymbol w ↔ v.toNat % 2 ^ 45 = w.toNat % 2 ^ 45 := by
  have h := take_path_iff v w (k := 4) le_rfl
  rw [List.take_of_length_le (path_length ..).le, List.take_of_length_le (path_length ..).le] at h
  rw [h, leafSymbol_eq, leafSymbol_eq, ← shiftRight_eq_iff v w le_rfl]
  rfl

end OsCourse.PageTable
