import OsCourse.PageTable.Forest

/-! # The map a page-table memory stands for

`lookup` reads the mapping of a page number off the forest. Allocating a root and
linking a fresh frame leave every mapping alone; writing a leaf entry changes the
mapping of one page number of one root.
-/

namespace OsCourse.PageTable
open Foundations

/-- The mapping a leaf entry holds. -/
def decode (pte : Word) : Word := if pte &&& 1#64 = 0#64 then NO_MAPPING else pte >>> 12

@[simp] theorem decode_zero : decode 0#64 = NO_MAPPING := rfl

/-- What query reads back of an update with `ppn`. -/
def mapped (ppn : Word) : Word :=
  if ppn = NO_MAPPING then NO_MAPPING else (ppn.setWidth 52).setWidth 64

theorem decode_finalPte (old ppn : Word) : decode (finalPte old ppn) = mapped ppn := by
  by_cases h : ppn = NO_MAPPING
  · simp [decode, finalPte, mapped, h, clear_valid]
  · have hv := linkWord_valid ppn
    have hs := linkWord_shift ppn
    rw [linkWord] at hv hs
    simp [decode, finalPte, mapped, h, hv, hs]

/-- A frame number that query reads has 52 bits, so it is never `NO_MAPPING`. -/
theorem decode_eq_NO_MAPPING_iff (pte : Word) : decode pte = NO_MAPPING ↔ pte &&& 1#64 = 0#64 := by
  refine ⟨fun h => ?_, fun h => if_pos h⟩
  by_contra hv
  rw [decode, if_neg hv] at h
  have hn := congrArg BitVec.toNat h
  rw [BitVec.toNat_ushiftRight, Nat.shiftRight_eq_div_pow,
    show NO_MAPPING.toNat = 2 ^ 64 - 1 by rfl] at hn
  omega

/-- An entry that maps nothing stays as it is when its mapping is destroyed. -/
theorem finalPte_of_decode {pte : Word} (h : decode pte = NO_MAPPING) :
    finalPte pte NO_MAPPING = pte := by
  rw [decode_eq_NO_MAPPING_iff, and_one_eq_zero_iff] at h
  rw [finalPte, if_pos rfl]
  apply BitVec.eq_of_toNat_eq
  simp only [BitVec.toNat_ushiftRight, BitVec.toNat_shiftLeft, Nat.shiftLeft_eq,
    Nat.shiftRight_eq_div_pow]
  omega

/-- The leaf table of a page number, when its whole interior path exists. -/
def leafTable (m : PhysMem) (r v : Word) : Option Word := follow (child m) r (path 4 v)

def lookup (m : PhysMem) (r v : Word) : Word :=
  (leafTable m r v).elim NO_MAPPING fun p => decode (m.entry p (leafSymbol v))

namespace PageForest
variable {m : PhysMem} {roots : Set Word}

theorem leafTable_eq_some_iff (F : PageForest m roots) {r v p : Word} (hr : r ∈ roots) :
    leafTable m r v = some p ↔ p ∈ allocated m ∧ F.owner p = (r, path 4 v) :=
  F.follow_eq_some_iff hr (by simp)

theorem leafTable_addRoot (F : PageForest m roots) {r v : Word} (hr : r ∈ roots) :
    leafTable m.push r v = leafTable m r v :=
  F.follow_addRoot (nalloc_not_mem m) (child m.push) (fun _ hp => child_push_old hp)
    (child_push_new m) hr (by simp)

theorem lookup_addRoot (F : PageForest m roots) {r : Word} (hr : r ∈ roots) (v : Word) :
    lookup m.push r v = lookup m r v := by
  rw [lookup, F.leafTable_addRoot hr, lookup]
  cases h : leafTable m r v with
  | none => rfl
  | some p =>
    have hp := ((F.leafTable_eq_some_iff hr).mp h).1
    have hne : p ≠ m.nalloc := ne_of_mem_of_not_mem hp (nalloc_not_mem m)
    simp [PhysMem.push_entry_of_ne hne]

/-- A new root maps nothing. -/
theorem lookup_new_root (m : PhysMem) (v : Word) : lookup m.push m.nalloc v = NO_MAPPING := by
  have h : leafTable m.push m.nalloc v = none := by
    rw [leafTable, path, follow, child_push_new, Option.bind_none]
  simp [lookup, h]

/-- A leaf entry is no link, so writing one moves no table. -/
theorem follow_setLeaf (F : PageForest m roots) {p : Word} (hp : p ∈ allocated m)
    (hd : (F.owner p).2.length = 4) (k : Fin 512) (w : Word) {r : Word} (hr : r ∈ roots)
    {q : List (Fin 512)} (hq : q.length ≤ 4) :
    follow (child (m.setEntry p k w)) r q = follow (child m) r q := by
  refine F.follow_congr _ (fun n _ hn => ?_) hr hq
  have hne : n ≠ p := by
    rintro rfl
    omega
  funext j
  simp [child, PhysMem.setEntry_entry (F.isSome hp), hne]

theorem lookup_setLeaf (F : PageForest m roots) {p : Word} (hp : p ∈ allocated m)
    (hd : (F.owner p).2.length = 4) (k : Fin 512) (w : Word) {r : Word} (hr : r ∈ roots)
    (v : Word) :
    lookup (m.setEntry p k w) r v =
      if F.owner p = (r, path 4 v) ∧ leafSymbol v = k then decode w else lookup m r v := by
  have hf : leafTable (m.setEntry p k w) r v = leafTable m r v :=
    F.follow_setLeaf hp hd k w hr (by simp)
  rw [lookup, hf, lookup]
  cases h : leafTable m r v with
  | none =>
    have hne : ¬ F.owner p = (r, path 4 v) := fun ho => by
      rw [(F.leafTable_eq_some_iff hr).mpr ⟨hp, ho⟩] at h
      cases h
    simp [hne]
  | some q =>
    obtain ⟨hq, ho⟩ := (F.leafTable_eq_some_iff hr).mp h
    have hqp : F.owner p = (r, path 4 v) ↔ q = p :=
      ⟨fun h' => F.owner_injOn hq hp (ho.trans h'.symm), fun h' => h' ▸ ho⟩
    simp only [Option.elim_some, PhysMem.setEntry_entry (F.isSome hp), Prod.mk.injEq, hqp]
    split_ifs <;> rfl

theorem lookup_linkNext (F : PageForest m roots) {p : Word} {k : Fin 512}
    (hp : p ∈ allocated m) (hd : (F.owner p).2.length < 4) (hz : m.entry p k = 0#64) {r : Word}
    (hr : r ∈ roots) (v : Word) : lookup (m.linkNext p k) r v = lookup m r v := by
  have hf : leafTable (m.linkNext p k) r v =
      if (r, path 4 v) = ((F.owner p).1, (F.owner p).2 ++ [k]) then some m.nalloc
        else leafTable m r v :=
    F.follow_grow hp hd (child_eq_none hz) (nalloc_not_mem m) _ (F.child_linkNext_self hp)
      (fun _ hq j hne => F.child_linkNext_old hp hq j hne) (F.child_linkNext_new hp) hr (by simp)
  rw [lookup, hf, lookup]
  split_ifs with h
  · -- the path broke off at the entry that is linked now; the fresh leaf table is all zeros
    have hnone : leafTable m r v = none := by
      rw [leafTable, (Prod.mk.inj h).2, (Prod.mk.inj h).1, follow_snoc, F.follow_owner hp]
      simp [child, hz]
    have hne : (m.nalloc, leafSymbol v) ≠ (p, k) := by
      rintro ⟨⟩
      exact nalloc_not_mem m hp
    rw [hnone, Option.elim_some, Option.elim_none, F.linkNext_entry hp, if_neg hne, if_pos rfl,
      decode_zero]
  · cases h' : leafTable m r v with
    | none => rfl
    | some q =>
      obtain ⟨hq, ho⟩ := (F.leafTable_eq_some_iff hr).mp h'
      have hqp : (q, leafSymbol v) ≠ (p, k) := by
        rintro ⟨⟩
        rw [ho, path_length] at hd
        exact absurd hd (by omega)
      have hqn : q ≠ m.nalloc := ne_of_mem_of_not_mem hq (nalloc_not_mem m)
      rw [Option.elim_some, Option.elim_some, F.linkNext_entry hp, if_neg hqp, if_neg hqn]

end PageForest
end OsCourse.PageTable
