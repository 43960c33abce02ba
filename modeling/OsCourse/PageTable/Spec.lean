import OsCourse.PageTable.Lookup

/-! # What the two walks do to a forest

One spec lemma for a turn of each loop, one for the loop, and one for the function.
Query returns `lookup`. Update either finds no free frame or ends in a forest with
the same mappings but the one it was asked to change.
-/

namespace OsCourse.PageTable
open Foundations

/-- The access goes to the base of an allocated page, at an index inside it. -/
structure Access.Good (m : PhysMem) (a : Access) : Prop where
  base : ∃ p ∈ allocated m, a.ptNode = .base p
  index_lt : a.currSymbol.toNat < 512

/-- The walk stands at the base of the allocated frame `p`. -/
structure Walk.At (w : Walk) (p : Word) : Prop where
  ptNode : w.ptNode = .base p
  mem : p ∈ allocated w.mem

theorem Walk.At.good {w : Walk} {p : Word} (h : w.At p) :
    Access.Good w.mem ⟨w.ptNode, currSymbol w.tempVpn⟩ :=
  ⟨⟨p, h.mem, h.ptNode⟩, currSymbol_lt _⟩

theorem Access.Good.mono {m m' : PhysMem} (h : allocated m ⊆ allocated m') {a : Access}
    (ha : a.Good m) : a.Good m' := by
  obtain ⟨p, hp, hb⟩ := ha.base
  exact ⟨⟨p, h hp, hb⟩, ha.index_lt⟩

namespace PageForest
variable {m : PhysMem} {roots : Set Word}

theorem physToVirt_child (F : PageForest m roots) {p : Word} (hp : p ∈ allocated m) :
    physToVirt m (linkWord p &&& twelveBitsLsb) = .base p := by
  have hf : (linkWord p &&& twelveBitsLsb) >>> 12 = p := by
    rw [mask_frame, frameOf_linkWord (F.toNat_lt hp)]
  rw [physToVirt_base F.valid (mask_offset _) (by rw [hf]; exact hp), hf]

theorem physToVirt_root (F : PageForest m roots) {r : Word} (hr : r ∈ roots) :
    physToVirt m (r <<< 12) = .base r := by
  have ha := F.root_alloc r hr
  have hf : (r <<< 12) >>> 12 = r := root_frame (F.toNat_lt ha)
  rw [physToVirt_base F.valid (root_offset r) (by rw [hf]; exact ha), hf]

theorem start_at (F : PageForest m roots) {r : Word} (hr : r ∈ roots) (vpn : Word) :
    (Walk.start m r vpn).At r :=
  ⟨F.physToVirt_root hr, F.root_alloc r hr⟩

theorem load_at {w : Walk} (F : PageForest w.mem roots) {p : Word} (h : w.At p) :
    load w.mem w.ptNode (currSymbol w.tempVpn) = .ok (w.mem.entry p (symbol w.tempVpn)) := by
  rw [h.ptNode]
  exact load_base (F.isSome h.mem) _ _ (symbol_val _).symm

theorem store_at {w : Walk} (F : PageForest w.mem roots) {p : Word} (h : w.At p) (e : Word) :
    store w.mem w.ptNode (currSymbol w.tempVpn) e =
      .ok (w.mem.setEntry p (symbol w.tempVpn) e) := by
  rw [h.ptNode]
  exact store_base (F.isSome h.mem) _ _ _ (symbol_val _).symm

/-! ## Query -/

theorem queryLayers_spec (layers : ℕ) (w : Walk) (F : PageForest w.mem roots) {p : Word}
    (h : w.At p) (hd : (F.owner p).2.length + layers = 4)
    (hw : ∀ a ∈ w.accesses, a.Good w.mem) :
    ∃ w' reached, queryLayers layers w = .ok (w', reached) ∧ w'.mem = w.mem ∧
      (∀ a ∈ w'.accesses, a.Good w.mem) ∧
      reached = (follow (child w.mem) p (path layers w.tempVpn)).isSome ∧
      ∀ f, follow (child w.mem) p (path layers w.tempVpn) = some f →
        w'.At f ∧ w'.tempVpn = shiftVpn layers w.tempVpn := by
  induction layers generalizing w p with
  | zero =>
    refine ⟨w, true, rfl, rfl, hw, rfl, ?_⟩
    rintro _ ⟨⟩
    exact ⟨h, rfl⟩
  | succ layers ih =>
    have hacc : ∀ a ∈ w.accesses ++ [⟨w.ptNode, currSymbol w.tempVpn⟩], a.Good w.mem := by
      simpa [or_imp, forall_and] using ⟨hw, h.good⟩
    rcases F.entry_cases h.mem (by omega) (symbol w.tempVpn) with
      ⟨hz, hc⟩ | ⟨g, hg, he, hc, ho⟩
    · refine ⟨{ w with accesses := w.accesses ++ [⟨w.ptNode, currSymbol w.tempVpn⟩] }, false,
        ?_, rfl, hacc, ?_, ?_⟩
      · rw [queryLayers, F.load_at h, hz, ok_bind, if_pos (by rfl)]
        rfl
      · simp [path, follow, hc]
      · simp [path, follow, hc]
    · have hnext : (w.descend w.mem (linkWord g)).At g := ⟨F.physToVirt_child hg, hg⟩
      have hlen : (F.owner g).2.length + layers = 4 := by
        rw [ho, List.length_append, List.length_singleton]
        omega
      have hpath : follow (child w.mem) p (path (layers + 1) w.tempVpn) =
          follow (child w.mem) g (path layers (w.tempVpn <<< 9)) := by
        rw [path, follow, hc, Option.bind_some]
      obtain ⟨w', reached, hq, hm, ha, hf⟩ := ih (w.descend w.mem (linkWord g)) F hnext hlen hacc
      refine ⟨w', reached, ?_, hm, ha, by rw [hpath]; exact hf⟩
      rw [queryLayers, F.load_at h, he, ok_bind, if_neg (linkWord_valid g)]
      exact hq

/-- `page_table_query` returns the mapping and only makes good accesses. -/
theorem query_spec (F : PageForest m roots) {r : Word} (hr : r ∈ roots) (v : Word) :
    ∃ accesses, pageTableQueryWalk m r v = .ok (lookup m r v, accesses) ∧
      ∀ a ∈ accesses, a.Good m := by
  have hd : (F.owner r).2.length + 4 = 4 := by simp [F.owner_root r hr]
  obtain ⟨w, reached, hq, hm, ha, hreached, hf⟩ :=
    queryLayers_spec 4 (.start m r v) F (F.start_at hr v) hd (by simp [Walk.start])
  change reached = (leafTable m r v).isSome at hreached
  change ∀ f, leafTable m r v = some f → _ at hf
  cases hl : leafTable m r v with
  | none =>
    rw [hl] at hreached
    refine ⟨w.accesses, ?_, ha⟩
    rw [pageTableQueryWalk, hq, hreached, lookup, hl]
    rfl
  | some f =>
    obtain ⟨hat, hv⟩ := hf f hl
    rw [hl] at hreached
    have hm' : w.mem = m := hm
    have hs : symbol w.tempVpn = leafSymbol v := by rw [hv]; rfl
    have hload := load_at (hm' ▸ F : PageForest w.mem roots) hat
    rw [hs, hm'] at hload
    refine ⟨w.accesses ++ [⟨w.ptNode, currSymbol w.tempVpn⟩], ?_, ?_⟩
    · rw [pageTableQueryWalk, hq, hreached, lookup, hl, ok_bind]
      simp only [Option.isSome_some, if_true, hm', hload, ok_bind, Option.elim_some, decode]
      split_ifs <;> rfl
    · have hgood := hat.good
      rw [hm'] at hgood
      simpa [or_imp, forall_and] using ⟨ha, hgood⟩

/-! ## Update -/

/-- A turn of the update loop follows the link, runs out of frames, or links a fresh one. -/
theorem updateLayer_cases {w : Walk} (F : PageForest w.mem roots) {p : Word} (h : w.At p)
    (hd : (F.owner p).2.length < 4) :
    (∃ g ∈ allocated w.mem, updateLayer w = .ok (w.descend w.mem (linkWord g)) ∧
        F.owner g = ((F.owner p).1, (F.owner p).2 ++ [symbol w.tempVpn])) ∨
      w.mem.entry p (symbol w.tempVpn) = 0#64 ∧
        (w.mem.nalloc.toNat = NPAGES ∧ updateLayer w = .error .outOfPhysicalMemory ∨
          w.mem.nalloc.toNat ≠ NPAGES ∧ updateLayer w =
            .ok (w.descend (w.mem.linkNext p (symbol w.tempVpn)) (linkWord w.mem.nalloc))) := by
  rcases F.entry_cases h.mem hd (symbol w.tempVpn) with ⟨hz, _⟩ | ⟨g, hg, he, _, ho⟩
  · refine Or.inr ⟨hz, ?_⟩
    by_cases hn : w.mem.nalloc.toNat = NPAGES
    · refine Or.inl ⟨hn, ?_⟩
      rw [updateLayer, F.load_at h, hz, ok_bind, if_pos rfl, allocPageFrame, if_pos hn,
        error_bind]
    · refine Or.inr ⟨hn, ?_⟩
      have hne : p ≠ w.mem.nalloc := ne_of_mem_of_not_mem h.mem (nalloc_not_mem w.mem)
      have hs : (w.mem.push.pages p).isSome := by
        simpa [PhysMem.push, Function.update_of_ne hne] using F.isSome h.mem
      have hstore : store w.mem.push w.ptNode (currSymbol w.tempVpn) (linkWord w.mem.nalloc) =
          .ok (w.mem.linkNext p (symbol w.tempVpn)) := by
        rw [h.ptNode]
        exact store_base hs _ _ _ (symbol_val _).symm
      have halloc : allocPageFrame w.mem = .ok (w.mem.push, w.mem.nalloc) :=
        allocPageFrame_eq_ok.mpr ⟨hn, rfl, rfl⟩
      rw [updateLayer, F.load_at h, hz, ok_bind, if_pos rfl, halloc, ok_bind]
      change (store w.mem.push w.ptNode _ (linkWord w.mem.nalloc) >>= _) = _
      rw [hstore, ok_bind]
      rfl
  · refine Or.inl ⟨g, hg, ?_, ho⟩
    rw [updateLayer, F.load_at h, he, ok_bind, if_neg (linkWord_ne_zero g)]
    rfl

/-- A turn of the update loop runs out of frames at a zero entry, or ends one level further down in
the same memory, or in one with a fresh frame there. -/
theorem updateLayer_step {w : Walk} (F : PageForest w.mem roots) {p : Word} (h : w.At p)
    (hd : (F.owner p).2.length < 4) :
    w.mem.entry p (symbol w.tempVpn) = 0#64 ∧ w.mem.nalloc.toNat = NPAGES ∧
        updateLayer w = .error .outOfPhysicalMemory ∨
      ∃ m' g, updateLayer w = .ok (w.descend m' (linkWord g)) ∧
        (w.descend m' (linkWord g)).At g ∧
        (∃ G : PageForest m' roots,
          G.owner g = ((F.owner p).1, (F.owner p).2 ++ [symbol w.tempVpn])) ∧
        (m' = w.mem ∨ w.mem.entry p (symbol w.tempVpn) = 0#64 ∧ w.mem.nalloc.toNat ≠ NPAGES ∧
          m' = w.mem.linkNext p (symbol w.tempVpn) ∧ g = w.mem.nalloc) := by
  rcases F.updateLayer_cases h hd with ⟨g, hg, hu, ho⟩ | ⟨hz, ⟨hn, hu⟩ | ⟨hn, hu⟩⟩
  · exact Or.inr ⟨w.mem, g, hu, ⟨F.physToVirt_child hg, hg⟩, ⟨F, ho⟩, Or.inl rfl⟩
  · exact Or.inl ⟨hz, hn, hu⟩
  · let G := F.linkNext h.mem hd hz hn
    have hnew : w.mem.nalloc ∈ allocated (w.mem.linkNext p (symbol w.tempVpn)) := by
      rw [show allocated (w.mem.linkNext p (symbol w.tempVpn)) = _ from F.allocated_push]
      exact Set.mem_insert _ _
    exact Or.inr ⟨_, _, hu, ⟨G.physToVirt_child hnew, hnew⟩, ⟨G, F.linkNext_owner_new ..⟩,
      Or.inr ⟨hz, hn, rfl, rfl⟩⟩

theorem allocated_linkNext (F : PageForest m roots) (p : Word) (k : Fin 512) :
    allocated (m.linkNext p k) = insert m.nalloc (allocated m) := F.allocated_push

/-- The walk has gone down from `p` along `q`, in a memory that has at most grown. -/
structure Descended (m : PhysMem) (roots : Set Word) (r : Word) (q : List (Fin 512)) (w' : Walk)
    (f : Word) : Prop where
  forest : ∃ F : PageForest w'.mem roots, F.owner f = (r, q)
  here : w'.At f
  mono : allocated m ⊆ allocated w'.mem
  lookup_eq : ∀ r ∈ roots, ∀ v, lookup w'.mem r v = lookup m r v
  good : ∀ a ∈ w'.accesses, a.Good w'.mem

/-- The update loop runs out of frames or goes down along the path of the page number. -/
theorem updateLayers_spec (layers : ℕ) (w : Walk) (F : PageForest w.mem roots) {p : Word}
    (h : w.At p) (hd : (F.owner p).2.length + layers = 4)
    (hw : ∀ a ∈ w.accesses, a.Good w.mem) :
    updateLayers layers w = .error .outOfPhysicalMemory ∨
      ∃ w' f, updateLayers layers w = .ok w' ∧ w'.tempVpn = shiftVpn layers w.tempVpn ∧
        Descended w.mem roots (F.owner p).1 ((F.owner p).2 ++ path layers w.tempVpn) w' f := by
  induction layers generalizing w p with
  | zero =>
    exact Or.inr ⟨w, p, rfl, rfl, ⟨F, by simp [path]⟩, h, subset_rfl, fun _ _ _ => rfl, hw⟩
  | succ layers ih =>
    have hacc : ∀ a ∈ w.accesses ++ [⟨w.ptNode, currSymbol w.tempVpn⟩], a.Good w.mem := by
      simpa [or_imp, forall_and] using ⟨hw, h.good⟩
    rcases F.updateLayer_step h (by omega) with
      ⟨_, _, hu⟩ | ⟨m', g, hu, hat, ⟨G, ho⟩, hm⟩
    · exact Or.inl (by rw [updateLayers, hu, error_bind])
    have hlen : (G.owner g).2.length + layers = 4 := by
      rw [ho, List.length_append, List.length_singleton]
      omega
    have hmono : allocated w.mem ⊆ allocated m' := by
      rcases hm with rfl | ⟨_, _, rfl, _⟩
      · exact subset_rfl
      · rw [F.allocated_linkNext]
        exact Set.subset_insert _ _
    have hlookup : ∀ r ∈ roots, ∀ v, lookup m' r v = lookup w.mem r v := by
      intro r hr v
      rcases hm with rfl | ⟨hz, _, rfl, _⟩
      · rfl
      · exact F.lookup_linkNext h.mem (by omega) hz hr v
    rw [updateLayers, hu, ok_bind]
    refine (ih _ G hat hlen (fun a ha => (hacc a ha).mono hmono)).imp id ?_
    rintro ⟨w', f, hu', hv, hdesc⟩
    rw [ho, List.append_assoc] at hdesc
    refine ⟨w', f, hu', hv, hdesc.forest, hdesc.here, hmono.trans hdesc.mono, ?_, hdesc.good⟩
    intro r hr v
    rw [hdesc.lookup_eq r hr v]
    exact hlookup r hr v

/-- Below the loop, `page_table_update` writes the leaf entry of the page number. -/
theorem updateWalk_cases (F : PageForest m roots) {r : Word} (hr : r ∈ roots) (v ppn : Word) :
    updateLayers 4 (.start m r v) = .error .outOfPhysicalMemory ∧
        pageTableUpdateWalk m r v ppn = .error .outOfPhysicalMemory ∨
      ∃ w f, updateLayers 4 (.start m r v) = .ok w ∧
        Descended m roots r (path 4 v) w f ∧
        pageTableUpdateWalk m r v ppn = .ok ⟨w.mem.setEntry f (leafSymbol v)
          (finalPte (w.mem.entry f (leafSymbol v)) ppn), w.ptNode, w.tempVpn,
          w.accesses ++ [⟨w.ptNode, currSymbol w.tempVpn⟩]⟩ := by
  have hd : (F.owner r).2.length + 4 = 4 := by simp [F.owner_root r hr]
  rcases F.updateLayers_spec 4 (.start m r v) (F.start_at hr v) hd (by simp [Walk.start]) with
    hu | ⟨w, f, hu, hv, hdesc⟩
  · exact Or.inl ⟨hu, by rw [pageTableUpdateWalk, hu, error_bind]⟩
  · obtain ⟨G, _⟩ := hdesc.forest
    have hs : symbol w.tempVpn = leafSymbol v := by rw [hv]; rfl
    rw [F.owner_root r hr, List.nil_append] at hdesc
    refine Or.inr ⟨w, f, hu, hdesc, ?_⟩
    rw [pageTableUpdateWalk, hu, ok_bind, G.load_at hdesc.here, ok_bind, G.store_at hdesc.here,
      ok_bind, hs]
    rfl

theorem Descended.owner_length {r f v : Word} {w : Walk}
    (h : Descended m roots r (path 4 v) w f) :
    ∃ G : PageForest w.mem roots, G.owner f = (r, path 4 v) ∧ (G.owner f).2.length = 4 := by
  obtain ⟨G, ho⟩ := h.forest
  exact ⟨G, ho, by rw [ho]; exact path_length 4 _⟩

/-- `page_table_update` runs out of frames, or keeps the forest, changes the one mapping it is
asked to change and only makes good accesses. -/
theorem update_spec (F : PageForest m roots) {r : Word} (hr : r ∈ roots) (v ppn : Word) :
    pageTableUpdateWalk m r v ppn = .error .outOfPhysicalMemory ∨
      ∃ w, pageTableUpdateWalk m r v ppn = .ok w ∧ Nonempty (PageForest w.mem roots) ∧
        (∀ a ∈ w.accesses, a.Good w.mem) ∧
        ∀ r' ∈ roots, ∀ v', lookup w.mem r' v' =
          if r' = r ∧ v'.toNat % 2 ^ 45 = v.toNat % 2 ^ 45 then mapped ppn
          else lookup m r' v' := by
  rcases F.updateWalk_cases hr v ppn with ⟨_, hu⟩ | ⟨w, f, _, hdesc, hu⟩
  · exact Or.inl hu
  · right
    obtain ⟨G, ho, hleaf⟩ := hdesc.owner_length
    refine ⟨_, hu, ⟨G.setLeaf hdesc.here.mem hleaf _ _⟩, ?_, ?_⟩
    · -- writing a word allocates and frees nothing, so the accesses stay good
      have hgood : ∀ a ∈ w.accesses ++ [⟨w.ptNode, currSymbol w.tempVpn⟩], a.Good w.mem := by
        simpa [or_imp, forall_and] using ⟨hdesc.good, hdesc.here.good⟩
      exact fun a ha => ⟨(hgood a ha).base, (hgood a ha).index_lt⟩
    · intro r' hr' v'
      dsimp only
      rw [G.lookup_setLeaf hdesc.here.mem hleaf _ _ hr', decode_finalPte,
        hdesc.lookup_eq r' hr' v', ho]
      have hiff : (r, path 4 v) = (r', path 4 v') ∧ leafSymbol v' = leafSymbol v ↔
          r' = r ∧ v'.toNat % 2 ^ 45 = v.toNat % 2 ^ 45 := by
        rw [← symbols_eq_iff, Prod.mk.injEq, and_assoc]
        exact ⟨fun ⟨h₁, h₂, h₃⟩ => ⟨h₁.symm, h₂.symm, h₃⟩,
          fun ⟨h₁, h₂, h₃⟩ => ⟨h₁.symm, h₂.symm, h₃⟩⟩
      simp only [hiff]

end PageForest
end OsCourse.PageTable
