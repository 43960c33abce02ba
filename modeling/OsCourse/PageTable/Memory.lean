import Mathlib

/-! # Physical memory of `os.c`

`alloc_page_frame` hands out the frames `0, 1, 2, …` and never takes one back;
`phys_to_virt` turns a physical address into a pointer into the `mmap`ed page of
its frame. `mmap` is taken to succeed and to return a zeroed page of its own.
-/

namespace OsCourse.PageTable

/-- `uint64_t`. -/
abbrev Word := BitVec 64

/-- One page of 4096 bytes, read as 512 words. -/
abbrev Page := Fin 512 → Word

def NPAGES : ℕ := 1024 * 1024

/-- The statics of `os.c`: the allocation counter and the table of pages, `none` for `NULL`. -/
structure PhysMem where
  nalloc : Word
  pages : Word → Option Page

def PhysMem.empty : PhysMem := ⟨0#64, fun _ => none⟩

/-- How a call ends the program: `errx`, or an access outside every `mmap`ed page. -/
inductive Stop where
  | outOfPhysicalMemory
  | badAccess
  deriving DecidableEq, Repr

@[simp] theorem ok_bind {α β : Type} (a : α) (f : α → Except Stop β) :
    (Except.ok a >>= f) = f a := rfl

@[simp] theorem error_bind {α β : Type} (e : Stop) (f : α → Except Stop β) :
    (Except.error e >>= f) = .error e := rfl

def allocPageFrame (m : PhysMem) : Except Stop (PhysMem × Word) :=
  if m.nalloc.toNat = NPAGES then .error .outOfPhysicalMemory
  else .ok (⟨m.nalloc + 1#64, Function.update m.pages m.nalloc (some fun _ => 0#64)⟩, m.nalloc)

/-- A `void *`: the frame whose page it points into (`none` for `NULL`) and the byte offset. -/
structure VAddr where
  page : Option Word
  off : Word
  deriving DecidableEq, Repr

def physToVirt (m : PhysMem) (phys_addr : Word) : VAddr :=
  let ppn := phys_addr >>> 12
  let off := phys_addr &&& 0xfff#64
  if ppn.toNat < NPAGES then ⟨if (m.pages ppn).isSome then some ppn else none, off⟩
  else ⟨none, 0#64⟩

/-- The word `va[i]`: it has to be aligned and to lie inside the page. -/
def VAddr.word (va : VAddr) (i : Word) : Option (Word × Fin 512) :=
  va.page.bind fun p =>
    let byte := va.off.toNat + 8 * i.toNat
    if h : byte % 8 = 0 ∧ byte / 8 < 512 then some (p, ⟨byte / 8, h.2⟩) else none

def load (m : PhysMem) (va : VAddr) (i : Word) : Except Stop Word :=
  match va.word i with
  | none => .error .badAccess
  | some (p, k) =>
    match m.pages p with
    | none => .error .badAccess
    | some page => .ok (page k)

def store (m : PhysMem) (va : VAddr) (i w : Word) : Except Stop PhysMem :=
  match va.word i with
  | none => .error .badAccess
  | some (p, k) =>
    match m.pages p with
    | none => .error .badAccess
    | some page => .ok ⟨m.nalloc, Function.update m.pages p (some (Function.update page k w))⟩

/-- The word at index `k` of frame `p`, zero where no page is allocated. -/
def PhysMem.entry (m : PhysMem) (p : Word) (k : Fin 512) : Word :=
  (m.pages p).elim 0#64 (· k)

/-- `m` with one word replaced. -/
def PhysMem.setEntry (m : PhysMem) (p : Word) (k : Fin 512) (w : Word) : PhysMem :=
  ⟨m.nalloc, Function.update m.pages p ((m.pages p).map (Function.update · k w))⟩

/-- `m` with the next frame allocated and zeroed. -/
def PhysMem.push (m : PhysMem) : PhysMem :=
  ⟨m.nalloc + 1#64, Function.update m.pages m.nalloc (some fun _ => 0#64)⟩

@[simp] theorem PhysMem.push_nalloc (m : PhysMem) : m.push.nalloc = m.nalloc + 1#64 := rfl

/-- The pages are those of the frames below `nalloc`, and the table is not overrun. -/
structure PhysMem.Valid (m : PhysMem) : Prop where
  nalloc_le : m.nalloc.toNat ≤ NPAGES
  isSome_iff : ∀ p, (m.pages p).isSome ↔ p.toNat < m.nalloc.toNat

theorem PhysMem.empty_valid : PhysMem.empty.Valid where
  nalloc_le := by simp [PhysMem.empty]
  isSome_iff p := by simp [PhysMem.empty]

theorem PhysMem.Valid.setEntry {m : PhysMem} (h : m.Valid) (p : Word) (k : Fin 512) (w : Word) :
    (m.setEntry p k w).Valid where
  nalloc_le := h.nalloc_le
  isSome_iff q := by
    by_cases hq : q = p
    · subst hq; simpa [PhysMem.setEntry] using h.isSome_iff q
    · simpa [PhysMem.setEntry, Function.update_of_ne hq] using h.isSome_iff q

theorem PhysMem.Valid.push_toNat {m : PhysMem} (h : m.Valid) :
    (m.nalloc + 1#64).toNat = m.nalloc.toNat + 1 := by
  have hle := h.nalloc_le
  simp only [NPAGES] at hle
  rw [BitVec.toNat_add, BitVec.toNat_ofNat]
  omega

theorem PhysMem.Valid.push {m : PhysMem} (h : m.Valid) (hn : m.nalloc.toNat ≠ NPAGES) :
    m.push.Valid where
  nalloc_le := by
    have hle := h.nalloc_le
    rw [PhysMem.push_nalloc, h.push_toNat]
    omega
  isSome_iff q := by
    rw [PhysMem.push_nalloc, h.push_toNat]
    by_cases hq : q = m.nalloc
    · subst hq; simp [PhysMem.push]
    · have hne : q.toNat ≠ m.nalloc.toNat := fun he => hq (BitVec.eq_of_toNat_eq he)
      simp only [PhysMem.push, Function.update_of_ne hq, h.isSome_iff q]
      omega

theorem PhysMem.setEntry_entry {m : PhysMem} {p : Word} (hp : (m.pages p).isSome) (k : Fin 512)
    (w : Word) (q : Word) (j : Fin 512) :
    (m.setEntry p k w).entry q j = if (q, j) = (p, k) then w else m.entry q j := by
  obtain ⟨page, hpage⟩ := Option.isSome_iff_exists.mp hp
  by_cases hq : q = p
  · subst hq
    by_cases hj : j = k <;> simp [PhysMem.setEntry, PhysMem.entry, hpage, hj]
  · simp [PhysMem.setEntry, PhysMem.entry, hq]

/-- Writing the word that is there changes nothing. -/
theorem PhysMem.setEntry_self (m : PhysMem) (p : Word) (k : Fin 512) :
    m.setEntry p k (m.entry p k) = m := by
  have hpages : (m.pages p).map (Function.update · k (m.entry p k)) = m.pages p := by
    rw [PhysMem.entry]
    cases m.pages p with
    | none => rfl
    | some page => exact congrArg some (Function.update_eq_self k page)
  rw [PhysMem.setEntry, hpages, Function.update_eq_self]

theorem PhysMem.push_entry_self (m : PhysMem) (j : Fin 512) : m.push.entry m.nalloc j = 0#64 := by
  simp [PhysMem.push, PhysMem.entry]

theorem PhysMem.push_entry_of_ne {m : PhysMem} {q : Word} (hq : q ≠ m.nalloc) (j : Fin 512) :
    m.push.entry q j = m.entry q j := by
  simp [PhysMem.push, PhysMem.entry, hq]

theorem allocPageFrame_eq_ok {m m' : PhysMem} {p : Word} :
    allocPageFrame m = .ok (m', p) ↔ m.nalloc.toNat ≠ NPAGES ∧ m' = m.push ∧ p = m.nalloc := by
  unfold allocPageFrame PhysMem.push
  split <;> simp_all [eq_comm]

/-! ## Pointers to the base of an allocated page -/

/-- The pointer `phys_to_virt` returns for the base of frame `p`. -/
def VAddr.base (p : Word) : VAddr := ⟨some p, 0#64⟩

theorem physToVirt_base {m : PhysMem} (h : m.Valid) {phys_addr : Word}
    (hoff : phys_addr &&& 0xfff#64 = 0#64) (hp : (phys_addr >>> 12).toNat < m.nalloc.toNat) :
    physToVirt m phys_addr = .base (phys_addr >>> 12) := by
  have hs := (h.isSome_iff _).mpr hp
  have hlt : (phys_addr >>> 12).toNat < NPAGES := Nat.lt_of_lt_of_le hp h.nalloc_le
  simp only [physToVirt, if_pos hlt, if_pos hs, hoff, VAddr.base]

theorem VAddr.base_word (p : Word) (k : Fin 512) (i : Word) (hi : i.toNat = k) :
    (VAddr.base p).word i = some (p, k) := by
  have hk := k.isLt
  simp only [VAddr.base, VAddr.word, Option.bind_some, hi, BitVec.toNat_ofNat]
  rw [dif_pos (by omega)]
  simp

theorem load_base {m : PhysMem} {p : Word} (hp : (m.pages p).isSome) (k : Fin 512) (i : Word)
    (hi : i.toNat = k) : load m (.base p) i = .ok (m.entry p k) := by
  obtain ⟨page, hpage⟩ := Option.isSome_iff_exists.mp hp
  simp [load, VAddr.base_word p k i hi, hpage, PhysMem.entry]

theorem store_base {m : PhysMem} {p : Word} (hp : (m.pages p).isSome) (k : Fin 512) (i w : Word)
    (hi : i.toNat = k) : store m (.base p) i w = .ok (m.setEntry p k w) := by
  obtain ⟨page, hpage⟩ := Option.isSome_iff_exists.mp hp
  simp [store, VAddr.base_word p k i hi, hpage, PhysMem.setEntry]

end OsCourse.PageTable
