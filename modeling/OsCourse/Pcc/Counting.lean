import OsCourse.Pcc.Wire

/-! # Counting printable characters in `pcc_server.c`

`count_chars` walks a C string and bumps one counter of `pcc_total_temp` for
each printable character; `duplicate_pcc_total` copies one of the two arrays
over the other. Counters are `uint32_t`, so every law is modulo `2 ^ 32`.
-/

namespace OsCourse.Pcc

abbrev NUM_OF_CHARACTERS : ℕ := 95
def HIGHEST_ASCI : ℤ := 126
def LOWEST_ASCI : ℤ := 32

/-- An array of `NUM_OF_CHARACTERS` counters. -/
abbrev Counters := Fin NUM_OF_CHARACTERS → BitVec 32

/-- `pcc_total_temp` and `pcc_total`. -/
structure Totals where
  pccTotalTemp : Counters
  pccTotal : Counters

/-- What the C standard leaves undefined in the counting loop. -/
inductive Undefined where
  | outOfBounds
  | intOverflow
  deriving DecidableEq, Repr

def getCharIndex (a : ℤ) : ℤ := a - LOWEST_ASCI

def getCharFromIndex (a : ℤ) : ℤ := a + LOWEST_ASCI

/-- `a[i]++`. -/
def increment (a : Counters) (i : ℤ) : Except Undefined Counters :=
  if h : 0 ≤ i ∧ i < NUM_OF_CHARACTERS then
    let k : Fin NUM_OF_CHARACTERS := ⟨i.toNat, by omega⟩
    .ok (Function.update a k (a k + 1#32))
  else .error .outOfBounds

/-- `(int) c` for a `char` that is signed or not. -/
def charValue (signed : Bool) (c : Byte) : ℤ := if signed then c.toInt else c.toNat

/-- The body of the loop of `count_chars`, on `pcc_total_temp` and `res`. -/
def countByte (signed : Bool) (acc : Counters × BitVec 32) (c : Byte) :
    Except Undefined (Counters × BitVec 32) :=
  let byte_value := charValue signed c
  if LOWEST_ASCI ≤ byte_value ∧ byte_value ≤ HIGHEST_ASCI then
    (increment acc.1 (getCharIndex byte_value)).map (·, acc.2 + 1#32)
  else .ok acc

/-- `count_chars` on a string without its terminator. The loop counter is an `int`. -/
def countChars (signed : Bool) (pcc_total_temp : Counters) (message : List Byte) :
    Except Undefined (Counters × BitVec 32) :=
  if message.length < 2 ^ 31 then message.foldlM (countByte signed) (pcc_total_temp, 0#32)
  else .error .intOverflow

/-- `duplicate_pcc_total`. -/
def duplicatePccTotal (mode : ℤ) (t : Totals) : Totals :=
  (List.finRange NUM_OF_CHARACTERS).foldl (fun t dbzy =>
    if mode = 0 then
      { t with pccTotalTemp := Function.update t.pccTotalTemp dbzy (t.pccTotal dbzy) }
    else if mode = 1 then
      { t with pccTotal := Function.update t.pccTotal dbzy (t.pccTotalTemp dbzy) }
    else t) t

/-- `print_chars`: the character and the count of every line. -/
def printChars (pcc_total : Counters) : List (ℤ × BitVec 32) :=
  (List.finRange NUM_OF_CHARACTERS).map fun dbzy : Fin NUM_OF_CHARACTERS =>
    (getCharFromIndex (dbzy : ℕ), pcc_total dbzy)

/-! ## What the loop counts -/

/-- The byte that index `i` stands for. -/
def charAt (i : Fin NUM_OF_CHARACTERS) : Byte := BitVec.ofNat 8 (i + 32)

/-- One line for each printable character, in their order. -/
def linesOf (counts : Counters) : List (ℤ × BitVec 32) :=
  List.ofFn fun i : Fin NUM_OF_CHARACTERS => (((charAt i).toNat : ℤ), counts i)

def Printable (c : Byte) : Prop := 32 ≤ c.toNat ∧ c.toNat ≤ 126

instance : DecidablePred Printable := fun c =>
  inferInstanceAs (Decidable (32 ≤ c.toNat ∧ c.toNat ≤ 126))

theorem printable_iff_charValue (signed : Bool) (c : Byte) :
    LOWEST_ASCI ≤ charValue signed c ∧ charValue signed c ≤ HIGHEST_ASCI ↔ Printable c := by
  have hc := c.isLt
  cases signed with
  | false => simp only [charValue, Printable, LOWEST_ASCI, HIGHEST_ASCI]; simp
  | true =>
    simp only [charValue, Printable, LOWEST_ASCI, HIGHEST_ASCI, BitVec.toInt_eq_toNat_cond]
    split_ifs <;> omega

/-- The index of a printable byte. -/
def indexOf (c : Byte) (h : Printable c) : Fin NUM_OF_CHARACTERS :=
  ⟨c.toNat - 32, by simp only [NUM_OF_CHARACTERS]; have := h.2; omega⟩

theorem charAt_toNat (i : Fin NUM_OF_CHARACTERS) : (charAt i).toNat = i + 32 := by
  have hi : (i : ℕ) < 95 := i.isLt
  simp only [charAt, BitVec.toNat_ofNat]
  omega

theorem printChars_eq (pcc_total : Counters) : printChars pcc_total = linesOf pcc_total := by
  rw [printChars, linesOf, List.ofFn_eq_map]
  refine List.map_congr_left fun i _ => ?_
  rw [getCharFromIndex, charAt_toNat, LOWEST_ASCI]
  rfl

theorem charAt_printable (i : Fin NUM_OF_CHARACTERS) : Printable (charAt i) := by
  have hi : (i : ℕ) < 95 := i.isLt
  rw [Printable, charAt_toNat]
  omega

theorem charAt_eq_iff {c : Byte} (h : Printable c) (i : Fin NUM_OF_CHARACTERS) :
    c = charAt i ↔ i = indexOf c h := by
  rw [← BitVec.toNat_inj, charAt_toNat, Fin.ext_iff, indexOf]
  have := h.1
  dsimp only
  omega

/-- One turn of the loop, whatever the signedness of `char`. -/
theorem countByte_eq (signed : Bool) (acc : Counters × BitVec 32) (c : Byte) :
    countByte signed acc c = .ok
      (fun i => acc.1 i + BitVec.ofNat 32 (if c = charAt i then 1 else 0),
        acc.2 + BitVec.ofNat 32 (if Printable c then 1 else 0)) := by
  by_cases h : Printable c
  · have hv : charValue signed c = c.toNat := by
      have hc := (printable_iff_charValue signed c).mpr h
      cases signed with
      | false => rfl
      | true =>
        simp only [charValue, if_true, BitVec.toInt_eq_toNat_cond] at hc ⊢
        have := h.2
        split_ifs <;> omega
    have hi : 0 ≤ getCharIndex (c.toNat : ℤ) ∧ getCharIndex (c.toNat : ℤ) < NUM_OF_CHARACTERS := by
      have := h.1
      have := h.2
      simp only [getCharIndex, LOWEST_ASCI, NUM_OF_CHARACTERS]
      omega
    have hk : (⟨(getCharIndex (c.toNat : ℤ)).toNat, by omega⟩ : Fin NUM_OF_CHARACTERS) =
        indexOf c h := by
      simp only [indexOf, getCharIndex, LOWEST_ASCI, Fin.mk.injEq]
      omega
    rw [countByte, if_pos ((printable_iff_charValue signed c).mpr h), hv, increment, dif_pos hi]
    simp only [hk, Except.map, if_pos h]
    congr 2
    funext i
    by_cases hci : c = charAt i
    · have hieq := (charAt_eq_iff h i).mp hci
      rw [if_pos hci, hieq, Function.update_self]
    · have hne : i ≠ indexOf c h := fun he => hci ((charAt_eq_iff h i).mpr he)
      rw [if_neg hci, Function.update_of_ne hne]
      simp
  · have hne : ∀ i, c ≠ charAt i := fun i he => h (he ▸ charAt_printable i)
    rw [countByte, if_neg (fun hc => h ((printable_iff_charValue signed c).mp hc))]
    simp [h, hne]

/-- The number of printable characters of a string. -/
def printables (message : List Byte) : ℕ := message.countP (Printable ·)

theorem sum_indicator (c : Byte) :
    ∑ i, (if c = charAt i then 1 else 0) = if Printable c then 1 else 0 := by
  by_cases h : Printable c
  · simp [h, charAt_eq_iff h]
  · have hne : ∀ i, c ≠ charAt i := fun i he => h (he ▸ charAt_printable i)
    simp [h, hne]

/-- Every printable character has exactly one counter. -/
theorem sum_count (message : List Byte) : ∑ i, message.count (charAt i) = printables message := by
  induction message with
  | nil => simp [printables]
  | cons c message ih =>
    have hc := sum_indicator c
    simp only [List.count_cons, Finset.sum_add_distrib, ih, beq_iff_eq, hc, printables,
      List.countP_cons, decide_eq_true_eq]

/-- `pcc_total_temp` after the string has been counted. -/
def addCounts (a : Counters) (message : List Byte) : Counters :=
  fun i => a i + BitVec.ofNat 32 (message.count (charAt i))

/-- Counting a string shorter than `2 ^ 31` changes the counters iff it has printable characters. -/
theorem addCounts_eq_self_iff {message : List Byte} (h : message.length < 2 ^ 31) (a : Counters) :
    addCounts a message = a ↔ printables message = 0 := by
  rw [← sum_count, Finset.sum_eq_zero_iff, funext_iff]
  refine forall_congr' fun i => ?_
  have hlt : message.count (charAt i) < 2 ^ 31 := lt_of_le_of_lt List.count_le_length h
  rw [addCounts, ← BitVec.toNat_inj, BitVec.toNat_add, BitVec.toNat_ofNat]
  have := (a i).isLt
  simp only [Finset.mem_univ, true_implies]
  omega

theorem foldlM_countByte (signed : Bool) (message : List Byte) (a : Counters) (res : BitVec 32) :
    message.foldlM (countByte signed) (a, res) =
      .ok (addCounts a message, res + BitVec.ofNat 32 (printables message)) := by
  induction message generalizing a res with
  | nil =>
    have ha : addCounts a [] = a := by
      funext i
      simp [addCounts]
    simp [ha, printables, pure, Except.pure]
  | cons c message ih =>
    rw [List.foldlM_cons, countByte_eq]
    change message.foldlM (countByte signed) (_, _) = _
    rw [ih]
    congr 2
    · funext i
      by_cases hc : c = charAt i
      · simp [addCounts, hc, BitVec.ofNat_add, BitVec.add_assoc, BitVec.add_comm]
      · simp [addCounts, hc]
    · by_cases hc : Printable c
      · simp [printables, hc, BitVec.ofNat_add, BitVec.add_assoc, BitVec.add_comm]
      · simp [printables, hc]

/-- `count_chars` never leaves the array, and counts every printable character once. -/
theorem countChars_eq (signed : Bool) (a : Counters) {message : List Byte}
    (h : message.length < 2 ^ 31) :
    countChars signed a message = .ok (addCounts a message, BitVec.ofNat 32 (printables message)) := by
  rw [countChars, if_pos h, foldlM_countByte, BitVec.zero_add]

/-! ## Copying one array over the other -/

theorem foldl_update {ι α : Type*} [DecidableEq ι] (g : ι → α) (l : List ι) (f : ι → α) :
    l.foldl (fun f i => Function.update f i (g i)) f = fun i => if i ∈ l then g i else f i := by
  induction l generalizing f with
  | nil => simp
  | cons k l ih =>
    rw [List.foldl_cons, ih]
    funext i
    by_cases hk : i = k <;> simp [hk]

theorem duplicatePccTotal_zero (t : Totals) :
    duplicatePccTotal 0 t = { t with pccTotalTemp := t.pccTotal } := by
  have h : ∀ (l : List (Fin NUM_OF_CHARACTERS)) (t : Totals),
      l.foldl (fun t dbzy => ({ t with
        pccTotalTemp := Function.update t.pccTotalTemp dbzy (t.pccTotal dbzy) } : Totals)) t =
      { t with pccTotalTemp :=
          l.foldl (fun f i => Function.update f i (t.pccTotal i)) t.pccTotalTemp } := by
    intro l
    induction l with
    | nil => intro t; rfl
    | cons k l ih => intro t; rw [List.foldl_cons, ih]; rfl
  simp only [duplicatePccTotal, if_true, h, foldl_update, List.mem_finRange]

theorem duplicatePccTotal_one (t : Totals) :
    duplicatePccTotal 1 t = { t with pccTotal := t.pccTotalTemp } := by
  have h : ∀ (l : List (Fin NUM_OF_CHARACTERS)) (t : Totals),
      l.foldl (fun t dbzy => ({ t with
        pccTotal := Function.update t.pccTotal dbzy (t.pccTotalTemp dbzy) } : Totals)) t =
      { t with pccTotal :=
          l.foldl (fun f i => Function.update f i (t.pccTotalTemp i)) t.pccTotal } := by
    intro l
    induction l with
    | nil => intro t; rfl
    | cons k l ih => intro t; rw [List.foldl_cons, ih]; rfl
  simp only [duplicatePccTotal, one_ne_zero, if_false, if_true, h, foldl_update,
    List.mem_finRange]

end OsCourse.Pcc
