import OsCourse.Foundations.LinkForest
import OsCourse.PageTable.Words

/-! # The page tables of a memory form a forest

`PageForest m roots` is the invariant of `pt.c`: the frames of `m` form a forest
of depth four over the roots, and every interior entry is zero or a link. It is
kept by the three things the program does to memory: allocating a root, linking
a fresh frame at a zero interior entry, and writing a leaf entry.
-/

namespace OsCourse.PageTable
open Foundations

/-- The frame that an interior entry leads to, as update tests it. -/
def child (m : PhysMem) (p : Word) (k : Fin 512) : Option Word :=
  if m.entry p k = 0#64 then none else some (frameOf (m.entry p k))

def allocated (m : PhysMem) : Set Word := {p | p.toNat < m.nalloc.toNat}

theorem mem_allocated {m : PhysMem} {p : Word} : p ∈ allocated m ↔ p.toNat < m.nalloc.toNat :=
  Iff.rfl

/-- The frames form a forest of depth four whose interior entries are zero or links. -/
structure PageForest (m : PhysMem) (roots : Set Word) extends
    LinkForest (child m) (allocated m) roots 4 where
  valid : m.Valid
  entry_link : ∀ p ∈ allocated m, (owner p).2.length < 4 → ∀ k, m.entry p k ≠ 0#64 →
    ∃ g, g.toNat < 2 ^ 52 ∧ m.entry p k = linkWord g

namespace PageForest
variable {m : PhysMem} {roots : Set Word}

theorem isSome (F : PageForest m roots) {p : Word} (hp : p ∈ allocated m) : (m.pages p).isSome :=
  (F.valid.isSome_iff p).mpr hp

theorem toNat_lt (F : PageForest m roots) {p : Word} (hp : p ∈ allocated m) :
    p.toNat < 2 ^ 52 := by
  have h₁ := F.valid.nalloc_le
  have h₂ := mem_allocated.mp hp
  simp only [NPAGES] at h₁
  omega

theorem nalloc_not_mem (m : PhysMem) : m.nalloc ∉ allocated m := Nat.lt_irrefl _

/-- What an interior entry can be: zero, or the link to a frame one level further down. -/
theorem entry_cases (F : PageForest m roots) {p : Word} (hp : p ∈ allocated m)
    (hd : (F.owner p).2.length < 4) (k : Fin 512) :
    (m.entry p k = 0#64 ∧ child m p k = none) ∨
      ∃ g ∈ allocated m, m.entry p k = linkWord g ∧ child m p k = some g ∧
        F.owner g = ((F.owner p).1, (F.owner p).2 ++ [k]) := by
  by_cases h : m.entry p k = 0#64
  · exact Or.inl ⟨h, by simp [child, h]⟩
  · obtain ⟨g, hg, he⟩ := F.entry_link p hp hd k h
    have hc : child m p k = some g := by simp [child, he, frameOf_linkWord hg]
    obtain ⟨hga, ho⟩ := F.down p hp hd k g hc
    exact Or.inr ⟨g, hga, he, hc, ho⟩

theorem empty : Nonempty (PageForest PhysMem.empty ∅) :=
  ⟨{ owner := fun p => (p, [])
     root_alloc := by simp
     owner_root := by simp
     owner_mem := by simp [allocated, PhysMem.empty]
     length_le := by simp
     eq_root := by simp
     down := by simp [allocated, PhysMem.empty]
     up := by simp
     valid := PhysMem.empty_valid
     entry_link := by simp [allocated, PhysMem.empty] }⟩

theorem allocated_push (F : PageForest m roots) :
    allocated m.push = insert m.nalloc (allocated m) := by
  ext p
  rw [mem_allocated, PhysMem.push_nalloc, F.valid.push_toNat, Set.mem_insert_iff, mem_allocated,
    ← BitVec.toNat_inj]
  omega

theorem child_push_old {p : Word} (hp : p ∈ allocated m) : child m.push p = child m p := by
  have hne : p ≠ m.nalloc := ne_of_mem_of_not_mem hp (nalloc_not_mem m)
  funext k
  simp [child, PhysMem.push_entry_of_ne hne]

theorem child_push_new (m : PhysMem) (k : Fin 512) : child m.push m.nalloc k = none := by
  simp [child, PhysMem.push_entry_self]

/-- A freshly allocated frame becomes a root. -/
def addRoot (F : PageForest m roots) (hn : m.nalloc.toNat ≠ NPAGES) :
    PageForest m.push (insert m.nalloc roots) where
  toLinkForest := (F.toLinkForest.addRoot (nalloc_not_mem m) (child m.push)
    (fun _ hp => child_push_old hp) (child_push_new m)).recast F.allocated_push rfl
  valid := F.valid.push hn
  entry_link p hp := by
    rw [F.allocated_push] at hp
    intro hd k hk
    rcases hp with rfl | hp
    · exact absurd (m.push_entry_self k) hk
    · have hne : p ≠ m.nalloc := ne_of_mem_of_not_mem hp (nalloc_not_mem m)
      rw [PhysMem.push_entry_of_ne hne] at hk ⊢
      have ho : Function.update F.owner m.nalloc (m.nalloc, []) p = F.owner p :=
        Function.update_of_ne hne _ _
      exact F.entry_link p hp (by rw [← ho]; exact hd) k hk

/-- Writing an entry of a frame at depth four keeps the forest. -/
def setLeaf (F : PageForest m roots) {p : Word} (hp : p ∈ allocated m)
    (hd : (F.owner p).2.length = 4) (k : Fin 512) (w : Word) :
    PageForest (m.setEntry p k w) roots where
  toLinkForest := (F.toLinkForest.congr (child (m.setEntry p k w)) (by
    intro q _ hq
    have hne : q ≠ p := by
      rintro rfl
      omega
    funext j
    simp [child, PhysMem.setEntry_entry (F.isSome hp), hne])).recast rfl rfl
  valid := F.valid.setEntry p k w
  entry_link q hq hdq j := by
    have hne : q ≠ p := by
      rintro rfl
      exact absurd hd (Nat.ne_of_lt hdq)
    simpa [PhysMem.setEntry_entry (F.isSome hp), hne] using F.entry_link q hq hdq j

end PageForest

/-- The memory after update has allocated a frame and linked it at entry `k` of `p`. -/
def PhysMem.linkNext (m : PhysMem) (p : Word) (k : Fin 512) : PhysMem :=
  m.push.setEntry p k (linkWord m.nalloc)

namespace PageForest
variable {m : PhysMem} {roots : Set Word}

theorem linkNext_entry (F : PageForest m roots) {p : Word} (hp : p ∈ allocated m) (k : Fin 512)
    (q : Word) (j : Fin 512) :
    (m.linkNext p k).entry q j =
      if (q, j) = (p, k) then linkWord m.nalloc else
        if q = m.nalloc then 0#64 else m.entry q j := by
  have hne : p ≠ m.nalloc := ne_of_mem_of_not_mem hp (nalloc_not_mem m)
  have hs : (m.push.pages p).isSome := by
    simpa [PhysMem.push, Function.update_of_ne hne] using F.isSome hp
  rw [PhysMem.linkNext, PhysMem.setEntry_entry hs]
  congr 1
  by_cases hq : q = m.nalloc
  · simp [hq, PhysMem.push_entry_self]
  · simp [hq, PhysMem.push_entry_of_ne hq]

section LinkNext
variable (F : PageForest m roots) {p : Word} {k : Fin 512} (hp : p ∈ allocated m)
  (hd : (F.owner p).2.length < 4) (hz : m.entry p k = 0#64) (hn : m.nalloc.toNat ≠ NPAGES)

include F hp in
theorem child_linkNext_old {q : Word} (hq : q ∈ allocated m) (j : Fin 512)
    (hne : (q, j) ≠ (p, k)) : child (m.linkNext p k) q j = child m q j := by
  have hqn : q ≠ m.nalloc := ne_of_mem_of_not_mem hq (nalloc_not_mem m)
  simp only [child, F.linkNext_entry hp, if_neg hne, if_neg hqn]

include F hp in
theorem child_linkNext_new (j : Fin 512) : child (m.linkNext p k) m.nalloc j = none := by
  have hne : (m.nalloc, j) ≠ (p, k) := by
    rintro ⟨⟩
    exact nalloc_not_mem m hp
  simp [child, F.linkNext_entry hp, hne]

include F hp in
theorem child_linkNext_self : child (m.linkNext p k) p k = some m.nalloc := by
  have hlt : m.nalloc.toNat < 2 ^ 52 := by
    have h := F.valid.nalloc_le
    simp only [NPAGES] at h
    omega
  simp [child, F.linkNext_entry hp, frameOf_linkWord hlt]

include hz in
theorem child_eq_none : child m p k = none := if_pos hz

include F hp in
/-- After linking, the entries of the old interior frames are links or zero as well. -/
theorem linkNext_entry_link {q : Word} (hq : q ∈ insert m.nalloc (allocated m))
    (hdq : q ≠ m.nalloc → (F.owner q).2.length < 4) (j : Fin 512)
    (hj : (m.linkNext p k).entry q j ≠ 0#64) :
    ∃ g, g.toNat < 2 ^ 52 ∧ (m.linkNext p k).entry q j = linkWord g := by
  rw [F.linkNext_entry hp] at hj ⊢
  split_ifs at hj ⊢ with h₁ h₂
  · have h := F.valid.nalloc_le
    simp only [NPAGES] at h
    exact ⟨m.nalloc, by omega, rfl⟩
  · exact absurd rfl hj
  · exact F.entry_link q (hq.resolve_left h₂) (hdq h₂) j hj

/-- Linking a fresh frame at a zero interior entry keeps the forest. -/
def linkNext : PageForest (m.linkNext p k) roots where
  toLinkForest := (F.toLinkForest.grow hp hd (child_eq_none hz) (nalloc_not_mem m)
    (child (m.linkNext p k)) (F.child_linkNext_self hp)
    (fun _ hq j hne => F.child_linkNext_old hp hq j hne)
    (F.child_linkNext_new hp)).recast F.allocated_push rfl
  valid := (F.valid.push hn).setEntry p k _
  entry_link q hq hdq j hj := by
    refine F.linkNext_entry_link hp (F.allocated_push ▸ hq) (fun hne => ?_) j hj
    have ho : Function.update F.owner m.nalloc ((F.owner p).1, (F.owner p).2 ++ [k]) q =
        F.owner q := Function.update_of_ne hne _ _
    rw [← ho]
    exact hdq

theorem linkNext_owner_new : (F.linkNext hp hd hz hn).owner m.nalloc =
    ((F.owner p).1, (F.owner p).2 ++ [k]) := Function.update_self _ _ _

end LinkNext

end PageForest
end OsCourse.PageTable
