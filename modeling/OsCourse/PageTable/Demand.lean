import OsCourse.Foundations.Census
import OsCourse.PageTable.System

/-! # How many frames a run takes

A frame is a table, and a table is found by its root and its path. An update adds the tables on
the path of its page number that were missing, so the tables after a run are those on the paths
of all its updates, in whatever order they came.
-/

namespace OsCourse.PageTable
open Foundations

/-- The places that have a table: root and path. -/
def tables (m : PhysMem) (roots : Set Word) : Set (Word × List (Fin 512)) :=
  LinkForest.paths (child m) roots 4

/-- The tables at `q` below `r` and on from there along some symbols. -/
def branch (r : Word) : List (Fin 512) → List (Fin 512) → Set (Word × List (Fin 512))
  | q, [] => {(r, q)}
  | q, s :: l => insert (r, q) (branch r (q ++ [s]) l)

theorem finite_branch (r : Word) (q l : List (Fin 512)) : (branch r q l).Finite := by
  induction l generalizing q with
  | nil => exact Set.finite_singleton _
  | cons s l ih => exact (ih (q ++ [s])).insert _

theorem self_mem_branch (r : Word) (q l : List (Fin 512)) : (r, q) ∈ branch r q l := by
  cases l with
  | nil => exact Set.mem_singleton _
  | cons s l => exact Set.mem_insert _ _

theorem mem_branch {e : Word × List (Fin 512)} {r : Word} {q l : List (Fin 512)} :
    e ∈ branch r q l ↔ e.1 = r ∧ ∃ j ≤ l.length, e.2 = q ++ l.take j := by
  induction l generalizing q with
  | nil => simp [branch, Prod.ext_iff]
  | cons s l ih =>
    rw [branch, Set.mem_insert_iff, ih, Prod.ext_iff]
    constructor
    · rintro (⟨hr, hq⟩ | ⟨hr, j, hj, hq⟩)
      · exact ⟨hr, 0, by simp, by simpa using hq⟩
      · exact ⟨hr, j + 1, by simpa using hj, by simpa using hq⟩
    · rintro ⟨hr, j, hj, hq⟩
      cases j with
      | zero => exact Or.inl ⟨hr, by simpa using hq⟩
      | succ j => exact Or.inr ⟨hr, j, by simpa using hj, by simpa using hq⟩

theorem ncard_allocated (m : PhysMem) : (allocated m).ncard = m.nalloc.toNat := by
  have himage : BitVec.toNat '' allocated m = ↑(Finset.range m.nalloc.toNat) := by
    ext n
    rw [Finset.coe_range, Set.mem_image, Set.mem_Iio]
    constructor
    · rintro ⟨p, hp, rfl⟩
      exact hp
    · intro hn
      have hlt := m.nalloc.isLt
      have heq : (BitVec.ofNat 64 n).toNat = n := by
        rw [BitVec.toNat_ofNat, Nat.mod_eq_of_lt (by omega)]
      exact ⟨BitVec.ofNat 64 n, mem_allocated.mpr (by rwa [heq]), heq⟩
  rw [← Set.ncard_image_of_injective _ fun _ _ => BitVec.eq_of_toNat_eq, himage,
    Set.ncard_coe_finset, Finset.card_range]

namespace PageForest
variable {m : PhysMem} {roots : Set Word}

theorem finite_tables (F : PageForest m roots) : (tables m roots).Finite := by
  rw [tables, ← F.owner_image]
  exact (Set.toFinite _).image _

/-- There is one frame for each place that has a table. -/
theorem ncard_tables (F : PageForest m roots) : (tables m roots).ncard = m.nalloc.toNat := by
  rw [tables, F.ncard_paths, ncard_allocated]

theorem owner_mem_tables (F : PageForest m roots) {p : Word} (hp : p ∈ allocated m) :
    F.owner p ∈ tables m roots := by
  rw [tables, ← F.owner_image]
  exact Set.mem_image_of_mem _ hp

/-- Below a zero entry there is no table. -/
theorem child_not_mem_tables (F : PageForest m roots) {p : Word} {k : Fin 512}
    (hp : p ∈ allocated m) (hz : m.entry p k = 0#64) :
    ((F.owner p).1, (F.owner p).2 ++ [k]) ∉ tables m roots := by
  rintro ⟨_, _, hsome⟩
  rw [follow_snoc, F.follow_owner hp, Option.bind_some, child_eq_none hz] at hsome
  cases hsome

theorem tables_addRoot (F : PageForest m roots) (hn : m.nalloc.toNat ≠ NPAGES) :
    tables m.push (insert m.nalloc roots) = insert (m.nalloc, []) (tables m roots) := by
  have hold : ∀ p ∈ allocated m, (F.addRoot hn).owner p = F.owner p := fun p hp =>
    Function.update_of_ne (ne_of_mem_of_not_mem hp (nalloc_not_mem m)) _ _
  have hnew : (F.addRoot hn).owner m.nalloc = (m.nalloc, []) := Function.update_self _ _ _
  rw [tables, F.paths_insert (F.addRoot hn).toLinkForest F.allocated_push hold, hnew, tables]

theorem tables_linkNext (F : PageForest m roots) {p : Word} {k : Fin 512} (hp : p ∈ allocated m)
    (hd : (F.owner p).2.length < 4) (hz : m.entry p k = 0#64) (hn : m.nalloc.toNat ≠ NPAGES) :
    tables (m.linkNext p k) roots =
      insert ((F.owner p).1, (F.owner p).2 ++ [k]) (tables m roots) := by
  have hold : ∀ q ∈ allocated m, (F.linkNext hp hd hz hn).owner q = F.owner q := fun q hq =>
    Function.update_of_ne (ne_of_mem_of_not_mem hq (nalloc_not_mem m)) _ _
  rw [tables, F.paths_insert (F.linkNext hp hd hz hn).toLinkForest F.allocated_push hold,
    F.linkNext_owner_new, tables]

theorem tables_setLeaf (F : PageForest m roots) {p : Word} (hp : p ∈ allocated m)
    (hd : (F.owner p).2.length = 4) (k : Fin 512) (w : Word) :
    tables (m.setEntry p k w) roots = tables m roots := by
  rw [tables, tables, ← (F.setLeaf hp hd k w).owner_image, ← F.owner_image]
  rfl

/-! ## One update -/

/-- The update loop adds the tables on its path, or it has run out of frames and these would have
been too many. -/
theorem updateLayers_tables (layers : ℕ) (w : Walk) (F : PageForest w.mem roots) {p : Word}
    (h : w.At p) (hd : (F.owner p).2.length + layers = 4) :
    (∀ w', updateLayers layers w = .ok w' → tables w'.mem roots =
      tables w.mem roots ∪ branch (F.owner p).1 (F.owner p).2 (path layers w.tempVpn)) ∧
    (updateLayers layers w = .error .outOfPhysicalMemory → NPAGES <
      (tables w.mem roots ∪ branch (F.owner p).1 (F.owner p).2 (path layers w.tempVpn)).ncard) := by
  induction layers generalizing w p with
  | zero =>
    refine ⟨fun w' hw' => ?_, fun he => by cases he⟩
    rw [← Except.ok.inj hw', path, branch, Set.union_singleton,
      Set.insert_eq_of_mem (F.owner_mem_tables h.mem)]
  | succ layers ih =>
    have hself := F.owner_mem_tables h.mem
    rw [path, branch, Set.union_insert, Set.insert_eq_of_mem (Set.mem_union_left _ hself)]
    have hnext := self_mem_branch (F.owner p).1 ((F.owner p).2 ++ [symbol w.tempVpn])
      (path layers (w.tempVpn <<< 9))
    rcases F.updateLayer_step h (by omega) with
      ⟨hz, hn, hu⟩ | ⟨m', g, hu, hat, ⟨G, ho⟩, hm⟩
    · rw [updateLayers, hu, error_bind]
      refine ⟨fun _ hok => absurd hok (by simp), fun _ => ?_⟩
      have hsub := Set.insert_subset (Set.mem_union_right (tables w.mem roots) hnext)
        Set.subset_union_left
      have hle := Set.ncard_le_ncard hsub (F.finite_tables.union (finite_branch _ _ _))
      rw [Set.ncard_insert_of_notMem (F.child_not_mem_tables h.mem hz) F.finite_tables,
        F.ncard_tables, hn] at hle
      exact hle
    · have hlen : (G.owner g).2.length + layers = 4 := by
        rw [ho, List.length_append, List.length_singleton]
        omega
      have hrest := ih _ G hat hlen
      rw [ho] at hrest
      rw [updateLayers, hu, ok_bind]
      rcases hm with rfl | ⟨hz, hn, rfl, rfl⟩
      · exact hrest
      · -- the table that the turn has added is on the rest of the path
        have htables : tables (w.descend (w.mem.linkNext p (symbol w.tempVpn))
            (linkWord w.mem.nalloc)).mem roots = _ := F.tables_linkNext h.mem (by omega) hz hn
        rw [htables, Set.insert_union, Set.insert_eq_of_mem] at hrest
        · exact hrest
        · exact Set.mem_union_right _ hnext

/-- `page_table_update` adds the tables on the path of its page number, or runs out of frames where
that would be too many. -/
theorem update_tables (F : PageForest m roots) {r : Word} (hr : r ∈ roots) (v ppn : Word) :
    (∃ m', pageTableUpdate m r v ppn = .ok m' ∧
        tables m' roots = tables m roots ∪ branch r [] (path 4 v)) ∨
      pageTableUpdate m r v ppn = .error .outOfPhysicalMemory ∧
        NPAGES < (tables m roots ∪ branch r [] (path 4 v)).ncard := by
  have hd : (F.owner r).2.length + 4 = 4 := by simp [F.owner_root r hr]
  have htables := F.updateLayers_tables 4 (.start m r v) (F.start_at hr v) hd
  rw [F.owner_root r hr] at htables
  rcases F.updateWalk_cases hr v ppn with ⟨hl, hu⟩ | ⟨w, f, hl, hdesc, hu⟩
  · exact Or.inr ⟨by rw [pageTableUpdate, hu]; rfl, htables.2 hl⟩
  · obtain ⟨G, _, hleaf⟩ := hdesc.owner_length
    refine Or.inl ⟨_, by rw [pageTableUpdate, hu]; rfl, ?_⟩
    rw [G.tables_setLeaf hdesc.here.mem hleaf, htables.1 w hl]
    rfl

end PageForest

/-! ## Runs -/

/-- One call, with how it ends the program where it does. -/
def Os.exec (s : Os) : Call → Except Stop Os
  | .alloc => (allocPageFrame s.mem).map fun (m, p) => ⟨m, p :: s.roots⟩
  | .update pt vpn ppn => (pageTableUpdate s.mem pt vpn ppn).map (⟨·, s.roots⟩)

def Os.execs (s : Os) (cs : List Call) : Except Stop Os := cs.foldlM Os.exec s

/-- An update of a run. -/
structure Update where
  pt : Word
  vpn : Word
  ppn : Word
  deriving DecidableEq, Repr

def Update.call (u : Update) : Call := .update u.pt u.vpn u.ppn

/-- `k` roots are allocated, then updated. They are the frames below `k`. -/
def program (k : ℕ) (us : List Update) : List Call :=
  List.replicate k .alloc ++ us.map Update.call

/-- The distinct pairs of a shift and a shifted page number, over the updates of a root. -/
def prefixes (us : List Update) (r : ℕ) : Finset (ℕ × ℕ) :=
  ((us.toFinset.filter (·.pt.toNat = r)) ×ˢ {36, 27, 18, 9}).image fun (u, s) =>
    (s, (u.vpn.toNat % 2 ^ 45) >>> s)

/-- The frames that a program takes: its roots, and one for each pair of a root. -/
def demand (k : ℕ) (us : List Update) : ℕ := k + ∑ r ∈ Finset.range k, (prefixes us r).card

theorem Os.call_update_eq {s : Os} {pt : Word} (hpt : pt ∈ s.roots) (vpn ppn : Word) :
    s.call (.update pt vpn ppn) = (s.exec (.update pt vpn ppn)).toOption := by
  rw [Os.call, if_pos hpt, Os.exec]
  cases pageTableUpdate s.mem pt vpn ppn <;> rfl

theorem Os.exec_alloc (s : Os) : s.exec .alloc =
    if s.mem.nalloc.toNat = NPAGES then .error .outOfPhysicalMemory
    else .ok ⟨s.mem.push, s.mem.nalloc :: s.roots⟩ := by
  rw [Os.exec, allocPageFrame]
  split <;> rfl

/-- What there is after `k` allocations. -/
structure Booted (k : ℕ) (s : Os) : Prop where
  forest : Nonempty (PageForest s.mem s.rootSet)
  nalloc : s.mem.nalloc.toNat = k
  root_iff : ∀ r, r ∈ s.roots ↔ r.toNat < k
  tables_eq : tables s.mem s.rootSet = {e | e.1.toNat < k ∧ e.2 = []}

theorem Booted.succ {k : ℕ} {s : Os} (h : Booted k s) (hk : k ≠ NPAGES) :
    Booted (k + 1) ⟨s.mem.push, s.mem.nalloc :: s.roots⟩ := by
  obtain ⟨F⟩ := h.forest
  have hn : s.mem.nalloc.toNat ≠ NPAGES := by rwa [h.nalloc]
  have hnew : ∀ r : Word, r = s.mem.nalloc ↔ r.toNat = k := fun r => by
    rw [← BitVec.toNat_inj, h.nalloc]
  have hroots : Os.rootSet ⟨s.mem.push, s.mem.nalloc :: s.roots⟩ = insert s.mem.nalloc s.rootSet := by
    ext r
    simp [Os.rootSet]
  refine ⟨?_, ?_, fun r => ?_, ?_⟩
  · rw [hroots]
    exact ⟨F.addRoot hn⟩
  · rw [PhysMem.push_nalloc, F.valid.push_toNat, h.nalloc]
  · rw [List.mem_cons, h.root_iff, hnew]
    omega
  · rw [hroots, F.tables_addRoot hn, h.tables_eq]
    ext e
    rw [Set.mem_insert_iff, Prod.ext_iff, hnew, Set.mem_ofPred_eq, Set.mem_ofPred_eq]
    constructor
    · rintro (⟨hr, hq⟩ | ⟨hr, hq⟩)
      · exact ⟨by omega, hq⟩
      · exact ⟨by omega, hq⟩
    · rintro ⟨hr, hq⟩
      rcases Nat.lt_succ_iff_lt_or_eq.mp hr with hlt | heq
      · exact Or.inr ⟨hlt, hq⟩
      · exact Or.inl ⟨heq, hq⟩

theorem execs_snoc (s : Os) (cs : List Call) (c : Call) :
    s.execs (cs ++ [c]) = s.execs cs >>= fun t => t.exec c := by
  rw [Os.execs, List.foldlM_append]
  congr 1
  funext t
  rw [List.foldlM_cons]
  cases t.exec c <;> rfl

/-- The allocations succeed up to `NPAGES` of them. -/
theorem execs_allocs (k : ℕ) :
    (k ≤ NPAGES → ∃ s, Os.execs .boot (List.replicate k .alloc) = .ok s ∧ Booted k s) ∧
    (NPAGES < k → Os.execs .boot (List.replicate k .alloc) = .error .outOfPhysicalMemory) := by
  induction k with
  | zero =>
    refine ⟨fun _ => ⟨.boot, rfl, ?_⟩, fun h => by omega⟩
    have hroots : Os.boot.rootSet = ∅ := by
      ext r
      simp [Os.boot, Os.rootSet]
    refine ⟨hroots ▸ PageForest.empty, rfl, by simp [Os.boot], ?_⟩
    rw [hroots]
    ext e
    simp [tables, LinkForest.paths]
  | succ k ih =>
    rw [List.replicate_succ', execs_snoc]
    refine ⟨fun hle => ?_, fun hlt => ?_⟩
    · obtain ⟨s, hs, hbooted⟩ := ih.1 (by omega)
      have hk : k ≠ NPAGES := by omega
      rw [hs, ok_bind, s.exec_alloc, if_neg (by rwa [hbooted.nalloc])]
      exact ⟨_, rfl, hbooted.succ hk⟩
    · rcases Nat.lt_succ_iff_lt_or_eq.mp hlt with hlt | heq
      · rw [ih.2 hlt, error_bind]
      · obtain ⟨s, hs, hbooted⟩ := ih.1 (by omega)
        rw [hs, ok_bind, s.exec_alloc, if_pos (by rw [hbooted.nalloc, heq])]

/-- The tables on the paths of some updates. -/
def branches (us : List Update) : Set (Word × List (Fin 512)) :=
  {e | ∃ u ∈ us, e ∈ branch u.pt [] (path 4 u.vpn)}

theorem branches_cons (u : Update) (us : List Update) :
    branches (u :: us) = branch u.pt [] (path 4 u.vpn) ∪ branches us := by
  ext e
  simp [branches]

theorem finite_branches (us : List Update) : (branches us).Finite := by
  induction us with
  | nil => simp [branches]
  | cons u us ih =>
    rw [branches_cons]
    exact (finite_branch _ _ _).union ih

theorem exec_update {s : Os} (hs : Nonempty (PageForest s.mem s.rootSet)) {u : Update}
    (hu : u.pt ∈ s.roots) :
    (∃ t, s.exec u.call = .ok t ∧ Nonempty (PageForest t.mem t.rootSet) ∧ t.roots = s.roots ∧
        tables t.mem t.rootSet = tables s.mem s.rootSet ∪ branch u.pt [] (path 4 u.vpn)) ∨
      s.exec u.call = .error .outOfPhysicalMemory ∧
        NPAGES < (tables s.mem s.rootSet ∪ branch u.pt [] (path 4 u.vpn)).ncard := by
  obtain ⟨F⟩ := hs
  rcases F.update_tables hu u.vpn u.ppn with ⟨m', hm', htables⟩ | ⟨he, hlt⟩
  · have hexec : s.exec u.call = .ok ⟨m', s.roots⟩ := by
      rw [Update.call, Os.exec, hm']
      rfl
    have hcall : s.call u.call = some ⟨m', s.roots⟩ := by
      rw [Update.call, Os.call_update_eq hu, ← Update.call, hexec]
      rfl
    exact Or.inl ⟨_, hexec, Os.call_forest hcall ⟨F⟩, rfl, htables⟩
  · refine Or.inr ⟨?_, hlt⟩
    rw [Update.call, Os.exec, he]
    rfl

theorem execs_updates (us : List Update) {s : Os} (hs : Nonempty (PageForest s.mem s.rootSet))
    (hus : ∀ u ∈ us, u.pt ∈ s.roots) :
    (∃ t, s.execs (us.map Update.call) = .ok t ∧ Nonempty (PageForest t.mem t.rootSet) ∧
        tables t.mem t.rootSet = tables s.mem s.rootSet ∪ branches us) ∨
      s.execs (us.map Update.call) = .error .outOfPhysicalMemory ∧
        NPAGES < (tables s.mem s.rootSet ∪ branches us).ncard := by
  induction us generalizing s with
  | nil => exact Or.inl ⟨s, rfl, hs, by simp [branches]⟩
  | cons u us ih =>
    rw [List.forall_mem_cons] at hus
    rw [List.map_cons, Os.execs, List.foldlM_cons, branches_cons, ← Set.union_assoc]
    rcases exec_update hs hus.1 with ⟨t, ht, hforest, hroots, htables⟩ | ⟨he, hlt⟩
    · rw [ht, ok_bind, ← htables]
      exact ih hforest (by rw [hroots]; exact hus.2)
    · rw [he, error_bind]
      obtain ⟨F⟩ := hs
      have hfinite := (F.finite_tables.union (finite_branch u.pt [] (path 4 u.vpn))).union
        (finite_branches us)
      exact Or.inr ⟨rfl, hlt.trans_le (Set.ncard_le_ncard Set.subset_union_left hfinite)⟩

/-! ## Counting -/

/-- Page numbers share the first `j` symbols if they share the bits above the others. -/
theorem take_path_eq_iff (v w : Word) {i j : ℕ} (hi : i ≤ 4) (hj : j ≤ 4) :
    (path 4 v).take i = (path 4 w).take j ↔ i = j ∧
      (v.toNat % 2 ^ 45) >>> (45 - 9 * i) = (w.toNat % 2 ^ 45) >>> (45 - 9 * i) := by
  have hlen : (path 4 v).take i = (path 4 w).take j → i = j := fun h => by
    have := congrArg List.length h
    rw [List.length_take, List.length_take, path_length, path_length] at this
    omega
  by_cases hij : i = j
  · subst hij
    rw [take_path_iff v w hi, show 45 - 9 * i = 9 * (5 - i) by omega, and_iff_right rfl]
  · exact iff_of_false (fun h => hij (hlen h)) fun h => hij h.1

/-- The tables below the roots on the paths of some updates. -/
def inner (us : List Update) : Finset (Word × List (Fin 512)) :=
  (us.toFinset ×ˢ {36, 27, 18, 9}).image fun (u, s) => (u.pt, (path 4 u.vpn).take (5 - s / 9))

theorem mem_inner {us : List Update} {e : Word × List (Fin 512)} : e ∈ inner us ↔
    ∃ u ∈ us, ∃ s ∈ ({36, 27, 18, 9} : Finset ℕ),
      (u.pt, (path 4 u.vpn).take (5 - s / 9)) = e := by
  simp only [inner, Finset.mem_image, Finset.mem_product, List.mem_toFinset, Prod.exists]
  constructor
  · rintro ⟨u, s, ⟨hu, hs⟩, he⟩
    exact ⟨u, hu, s, hs, he⟩
  · rintro ⟨u, hu, s, hs, he⟩
    exact ⟨u, s, ⟨hu, hs⟩, he⟩

theorem card_inner {k : ℕ} {us : List Update} (hus : ∀ u ∈ us, u.pt.toNat < k) :
    (inner us).card = ∑ r ∈ Finset.range k, (prefixes us r).card := by
  have hmaps : Set.MapsTo (fun e : Word × List (Fin 512) => e.1.toNat) (inner us)
      (Finset.range k) := by
    intro e he
    obtain ⟨u, hu, s, _, rfl⟩ := mem_inner.mp he
    exact Finset.mem_range.mpr (hus u hu)
  rw [Finset.card_eq_sum_card_fiberwise hmaps]
  refine Finset.sum_congr rfl fun r _ => ?_
  rw [inner, Finset.filter_image, prefixes]
  have hfilter : (us.toFinset ×ˢ {36, 27, 18, 9}).filter (fun x : Update × ℕ => x.1.pt.toNat = r) =
      us.toFinset.filter (·.pt.toNat = r) ×ˢ {36, 27, 18, 9} := by
    ext x
    simp only [Finset.mem_filter, Finset.mem_product]
    tauto
  rw [hfilter]
  refine card_image_congr ?_
  rintro ⟨u, s⟩ hu ⟨u', s'⟩ hu'
  simp only [Finset.mem_product, Finset.mem_filter, Finset.mem_insert,
    Finset.mem_singleton] at hu hu'
  have hpt : u.pt = u'.pt := BitVec.eq_of_toNat_eq (hu.1.2.trans hu'.1.2.symm)
  have hs : s = 45 - 9 * (5 - s / 9) := by omega
  have hlevel : 5 - s / 9 = 5 - s' / 9 ↔ s = s' := by omega
  rw [Prod.mk.injEq, Prod.mk.injEq, take_path_eq_iff _ _ (by omega) (by omega), hlevel, ← hs]
  constructor
  · rintro ⟨_, rfl, hv⟩
    exact ⟨rfl, hv⟩
  · rintro ⟨rfl, hv⟩
    exact ⟨hpt, rfl, hv⟩

/-- A program that completes has taken what it demands. -/
theorem ncard_tables_branches {k : ℕ} {us : List Update} (hus : ∀ u ∈ us, u.pt.toNat < k) {s : Os}
    (hs : Booted k s) : (tables s.mem s.rootSet ∪ branches us).ncard = demand k us := by
  obtain ⟨F⟩ := hs.forest
  have hunion : tables s.mem s.rootSet ∪ branches us = tables s.mem s.rootSet ∪ ↑(inner us) := by
    ext e
    rw [Set.mem_union, Set.mem_union, Finset.mem_coe, mem_inner, hs.tables_eq]
    constructor
    · rintro (hroot | ⟨u, hu, he⟩)
      · exact Or.inl hroot
      · obtain ⟨hpt, j, hj, hq⟩ := mem_branch.mp he
        rw [path_length] at hj
        rw [List.nil_append] at hq
        by_cases h0 : j = 0
        · refine Or.inl ⟨hpt ▸ hus u hu, ?_⟩
          rw [hq, h0, List.take_zero]
        · refine Or.inr ⟨u, hu, 45 - 9 * j, ?_, Prod.ext hpt.symm ?_⟩
          · interval_cases j <;> simp at h0 ⊢
          · rw [show 5 - (45 - 9 * j) / 9 = j by omega, hq]
    · rintro (hroot | ⟨u, hu, s, hs, rfl⟩)
      · exact Or.inl hroot
      · simp only [Finset.mem_insert, Finset.mem_singleton] at hs
        have hle : 5 - s / 9 ≤ (path 4 u.vpn).length := by
          rw [path_length]
          omega
        exact Or.inr ⟨u, hu, mem_branch.mpr ⟨rfl, _, hle, by rw [List.nil_append]⟩⟩
  have hdisjoint : Disjoint (tables s.mem s.rootSet) ↑(inner us) := by
    rw [Set.disjoint_left, hs.tables_eq]
    rintro e ⟨_, hnil⟩ he
    obtain ⟨u, _, s, hs, rfl⟩ := mem_inner.mp he
    have hlen := congrArg List.length hnil
    simp only [Finset.mem_insert, Finset.mem_singleton] at hs
    rw [List.length_take, path_length, List.length_nil] at hlen
    omega
  rw [hunion, Set.ncard_union_eq hdisjoint F.finite_tables (Finset.finite_toSet _), F.ncard_tables,
    hs.nalloc, Set.ncard_coe_finset, card_inner hus, demand]

theorem demand_perm {k : ℕ} {us us' : List Update} (h : us'.Perm us) :
    demand k us' = demand k us := by
  simp only [demand, prefixes, List.toFinset_eq_of_perm _ _ h]

/-- How a program ends. -/
theorem program_cases {k : ℕ} {us : List Update} (hus : ∀ u ∈ us, u.pt.toNat < k) :
    (∃ s, Os.execs .boot (program k us) = .ok s ∧ s.mem.nalloc.toNat = demand k us ∧
        demand k us ≤ NPAGES) ∨
      Os.execs .boot (program k us) = .error .outOfPhysicalMemory ∧ NPAGES < demand k us := by
  have hsplit : Os.execs .boot (program k us) =
      Os.execs .boot (List.replicate k .alloc) >>= fun s => s.execs (us.map Update.call) :=
    List.foldlM_append
  rw [hsplit]
  by_cases hk : k ≤ NPAGES
  · obtain ⟨s, hs, hbooted⟩ := (execs_allocs k).1 hk
    have hroots : ∀ u ∈ us, u.pt ∈ s.roots := fun u hu => (hbooted.root_iff _).mpr (hus u hu)
    have hcount := ncard_tables_branches hus hbooted
    rw [hs, ok_bind]
    rcases execs_updates us hbooted.forest hroots with ⟨t, ht, ⟨F⟩, htables⟩ | ⟨he, hlt⟩
    · have hn : t.mem.nalloc.toNat = demand k us := by
        rw [← F.ncard_tables, htables, hcount]
      exact Or.inl ⟨t, ht, hn, hn ▸ F.valid.nalloc_le⟩
    · exact Or.inr ⟨he, hcount ▸ hlt⟩
  · rw [(execs_allocs k).2 (by omega), error_bind]
    exact Or.inr ⟨rfl, by rw [demand]; omega⟩

/-- A program takes as many frames as it demands, and runs out of physical memory exactly if these
are more than there are; the order of its updates does not matter. -/
theorem frames_on_demand (k : ℕ) (us : List Update) (hus : ∀ u ∈ us, u.pt.toNat < k) :
    (∀ s, Os.execs .boot (program k us) = .ok s → s.mem.nalloc.toNat = demand k us) ∧
    (∀ us', us'.Perm us → demand k us' = demand k us) ∧
    (Os.execs .boot (program k us) = .error .outOfPhysicalMemory ↔ NPAGES < demand k us) ∧
    (demand k us ≤ NPAGES → ∃ s, Os.execs .boot (program k us) = .ok s) := by
  refine ⟨?_, fun us' h => demand_perm h, ?_⟩
  · rcases program_cases hus with ⟨s, hs, hn, _⟩ | ⟨he, _⟩
    · intro t ht
      rw [← Except.ok.inj (hs.symm.trans ht), hn]
    · intro t ht
      cases he.symm.trans ht
  · rcases program_cases hus with ⟨s, hs, _, hle⟩ | ⟨he, hlt⟩
    · exact ⟨iff_of_false (fun h => by cases hs.symm.trans h) (by omega), fun _ => ⟨s, hs⟩⟩
    · exact ⟨iff_of_true he hlt, fun hle => by omega⟩

/-- Two roots; the second update shares one table with the first, and the third none. -/
def sampleUpdates : List Update :=
  [⟨0#64, 0xcafe#64, 0xf00d#64⟩, ⟨0#64, 0xfffffffff#64, 1#64⟩, ⟨1#64, 0xcafe#64, 0#64⟩]

theorem frames_on_demand_sample : demand 2 sampleUpdates = 13 ∧
    ∃ s, Os.execs .boot (program 2 sampleUpdates) = .ok s := by
  have h := frames_on_demand 2 sampleUpdates (by decide)
  have hdemand : demand 2 sampleUpdates = 13 := by decide +kernel
  exact ⟨hdemand, h.2.2.2 (by rw [hdemand, NPAGES]; omega)⟩

end OsCourse.PageTable
