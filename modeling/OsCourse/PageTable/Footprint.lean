import OsCourse.PageTable.Shape

/-! # The words that an update touches

The walk of an update follows its path as far as there are tables. Where the path breaks off, one
zero entry of an old table becomes a link, and everything behind it is new; where it does not,
only the leaf entry is written. The walk is the same for a mapping that is to be destroyed.
-/

namespace OsCourse.PageTable
open Foundations

/-- The symbol of a page number at a level, the root's being level 0. -/
def level (v : Word) (l : ℕ) : Fin 512 := symbol (v <<< (9 * l))

theorem level_zero (v : Word) : level v 0 = symbol v := by
  rw [level, Nat.mul_zero, BitVec.shiftLeft_zero]

theorem level_succ (v : Word) (l : ℕ) : level v (l + 1) = level (v <<< 9) l := by
  rw [level, level, ← BitVec.shiftLeft_add, Nat.mul_succ, Nat.add_comm]

theorem Walk.At.unique {w : Walk} {p q : Word} (hp : w.At p) (hq : w.At q) : p = q := by
  have h := hp.ptNode.symm.trans hq.ptNode
  rw [VAddr.base, VAddr.base, VAddr.mk.injEq, Option.some.injEq] at h
  exact h.1

/-- What a walk of `n` levels down from `p` along `v` does to the memory `m`: there are tables for
`i` levels, the last of them `f`. If that is not the whole way, one entry of `f` is linked, and the
new tables are zero but for the links between them. -/
structure Extends (m m' : PhysMem) (p v : Word) (n i : ℕ) (f : Word) : Prop where
  le : i ≤ n
  here : follow (child m) p ((path n v).take i) = some f
  old : f ∈ allocated m
  mono : allocated m ⊆ allocated m'
  link : i < n → m.entry f (level v i) = 0#64 ∧ m'.entry f (level v i) = linkWord m.nalloc ∧
    m.nalloc ∈ allocated m'
  frame : ∀ q ∈ allocated m, ∀ k, (i < n → (q, k) ≠ (f, level v i)) → m'.entry q k = m.entry q k
  fresh : ∀ g ∈ allocated m', g ∉ allocated m → ∃ l, i < l ∧ l ≤ n ∧
    follow (child m') p ((path n v).take l) = some g ∧
    ∀ k, (l < n → k ≠ level v l) → m'.entry g k = 0#64

theorem Extends.refl {m : PhysMem} {p : Word} (hp : p ∈ allocated m) (v : Word) :
    Extends m m p v 0 0 p where
  le := le_rfl
  here := rfl
  old := hp
  mono := subset_rfl
  link h := absurd h (lt_irrefl 0)
  frame _ _ _ _ := rfl
  fresh _ hg hold := absurd hg hold

/-- The table that a link leads to continues the walk. -/
theorem Extends.cons {m m' : PhysMem} {p g v f : Word} {n i : ℕ}
    (h : Extends m m' g (v <<< 9) n i f) (hp : p ∈ allocated m)
    (hc : child m p (symbol v) = some g) : Extends m m' p v (n + 1) (i + 1) f where
  le := Nat.succ_le_succ h.le
  here := by rw [path, List.take_succ_cons, follow, hc, Option.bind_some, h.here]
  old := h.old
  mono := h.mono
  link hi := by
    rw [level_succ]
    exact h.link (Nat.lt_of_succ_lt_succ hi)
  frame q hq k hk := by
    rw [level_succ] at hk
    exact h.frame q hq k fun hi => hk (Nat.succ_lt_succ hi)
  fresh g' hg' hold := by
    -- the entry of `p` is not the one that is linked, as it was not zero before
    have hentry : m'.entry p (symbol v) = m.entry p (symbol v) := by
      refine h.frame p hp _ fun hi heq => ?_
      have hz := (h.link hi).1
      rw [← (Prod.mk.inj heq).1, ← (Prod.mk.inj heq).2] at hz
      rw [child, if_pos hz] at hc
      cases hc
    have hc' : child m' p (symbol v) = some g := by rw [child, hentry, ← child, hc]
    obtain ⟨l, hil, hln, hfollow, hzero⟩ := h.fresh g' hg' hold
    refine ⟨l + 1, Nat.succ_lt_succ hil, Nat.succ_le_succ hln, ?_, fun k hk => ?_⟩
    · rw [path, List.take_succ_cons, follow, hc', Option.bind_some, hfollow]
    · rw [level_succ] at hk
      exact hzero k fun hl => hk (Nat.succ_lt_succ hl)

/-- A walk that finds all its tables adds none. -/
theorem Extends.allocated_eq {m m' : PhysMem} {p v f : Word} {n : ℕ}
    (h : Extends m m' p v n n f) : allocated m' = allocated m := by
  refine Set.Subset.antisymm (fun g hg => ?_) h.mono
  by_contra hold
  obtain ⟨l, hlt, hle, _⟩ := h.fresh g hg hold
  exact absurd hle (not_le_of_gt hlt)

namespace PageForest
variable {m : PhysMem} {roots : Set Word}

/-- Below a fresh table there is nothing yet, so the walk breaks off there again. -/
theorem extends_fresh (F : PageForest m roots) {m' : PhysMem} {p v f : Word} {k : Fin 512} {n i : ℕ}
    (hp : p ∈ allocated m) (h : Extends (m.linkNext p k) m' m.nalloc v n i f) :
    i = 0 ∧ f = m.nalloc := by
  cases n with
  | zero =>
    obtain rfl : i = 0 := Nat.le_zero.mp h.le
    exact ⟨rfl, (Option.some.inj h.here).symm⟩
  | succ n =>
    cases i with
    | zero => exact ⟨rfl, (Option.some.inj h.here).symm⟩
    | succ i =>
      have hhere := h.here
      rw [path, List.take_succ_cons, follow, F.child_linkNext_new hp, Option.bind_none] at hhere
      cases hhere

/-- A walk that links a fresh table and goes on in it has broken off at `p`. -/
theorem extends_linkNext (F : PageForest m roots) {m' : PhysMem} {p v f : Word} {n i : ℕ}
    (hp : p ∈ allocated m) (hz : m.entry p (symbol v) = 0#64)
    (h : Extends (m.linkNext p (symbol v)) m' m.nalloc (v <<< 9) n i f) :
    Extends m m' p v (n + 1) 0 p := by
  obtain ⟨rfl, rfl⟩ := F.extends_fresh hp h
  have halloc := F.allocated_linkNext p (symbol v)
  have hnew : m.nalloc ∈ allocated (m.linkNext p (symbol v)) := halloc ▸ Set.mem_insert _ _
  have hold : ∀ q ∈ allocated m, q ∈ allocated (m.linkNext p (symbol v)) ∧ q ≠ m.nalloc :=
    fun q hq => ⟨halloc ▸ Set.mem_insert_of_mem _ hq, ne_of_mem_of_not_mem hq (nalloc_not_mem m)⟩
  have hentry : ∀ q ∈ allocated m, ∀ k, m'.entry q k = (m.linkNext p (symbol v)).entry q k :=
    fun q hq k => h.frame q (hold q hq).1 k fun _ heq => (hold q hq).2 (Prod.mk.inj heq).1
  have hlink : m'.entry p (symbol v) = linkWord m.nalloc := by
    rw [hentry p hp, F.linkNext_entry hp, if_pos rfl]
  have hchild : child m' p (symbol v) = some m.nalloc := by
    have hself := F.child_linkNext_self (k := symbol v) hp
    rwa [child, hentry p hp, ← child]
  exact {
    le := Nat.zero_le _
    here := rfl
    old := hp
    mono := fun q hq => h.mono (hold q hq).1
    link := fun _ => by
      rw [level_zero]
      exact ⟨hz, hlink, h.mono hnew⟩
    frame := fun q hq k hk => by
      have hne : (q, k) ≠ (p, symbol v) := level_zero v ▸ hk (Nat.succ_pos n)
      rw [hentry q hq, F.linkNext_entry hp, if_neg hne, if_neg (hold q hq).2]
    fresh := fun g hg hgold => by
      by_cases hgn : g = m.nalloc
      · refine ⟨1, Nat.one_pos, Nat.succ_le_succ (Nat.zero_le n), ?_, fun k hk => ?_⟩
        · rw [path, List.take_succ_cons, List.take_zero, follow, hchild, Option.bind_some, hgn,
            follow_nil]
        · have hne : (m.nalloc, k) ≠ (p, symbol v) := fun heq =>
            (hold p hp).2 (Prod.mk.inj heq).1.symm
          rw [hgn, h.frame _ hnew k, F.linkNext_entry hp, if_neg hne, if_pos rfl]
          intro hn heq
          rw [level_succ] at hk
          exact hk (Nat.succ_lt_succ hn) (Prod.mk.inj heq).2
      · have hgold' : g ∉ allocated (m.linkNext p (symbol v)) := by
          rw [halloc, Set.mem_insert_iff, not_or]
          exact ⟨hgn, hgold⟩
        obtain ⟨l, hl0, hln, hfollow, hzero⟩ := h.fresh g hg hgold'
        refine ⟨l + 1, Nat.succ_pos l, Nat.succ_le_succ hln, ?_, fun k hk => ?_⟩
        · rw [path, List.take_succ_cons, follow, hchild, Option.bind_some, hfollow]
        · rw [level_succ] at hk
          exact hzero k fun hl => hk (Nat.succ_lt_succ hl) }

/-- The update loop extends the tables on its path and ends at the last of them. -/
theorem updateLayers_extends (layers : ℕ) (w : Walk) (F : PageForest w.mem roots) {p : Word}
    (h : w.At p) (hd : (F.owner p).2.length + layers = 4) {w' : Walk}
    (hw : updateLayers layers w = .ok w') :
    ∃ i f f', Extends w.mem w'.mem p w.tempVpn layers i f ∧ w'.At f' ∧
      (i = layers → f' = f) ∧ (i < layers → f' ∉ allocated w.mem) := by
  induction layers generalizing w p with
  | zero =>
    obtain rfl := Except.ok.inj hw
    exact ⟨0, p, p, Extends.refl h.mem _, h, fun _ => rfl, fun hi => absurd hi (lt_irrefl 0)⟩
  | succ layers ih =>
    rcases F.updateLayer_step h (by omega) with
      ⟨_, _, hu⟩ | ⟨m', g, hu, hat, ⟨G, ho⟩, hm⟩
    · rw [updateLayers, hu, error_bind] at hw
      cases hw
    have hlen : (G.owner g).2.length + layers = 4 := by
      rw [ho, List.length_append, List.length_singleton]
      omega
    rw [updateLayers, hu, ok_bind] at hw
    obtain ⟨i, f, f', hext, hat', hlast, hnew⟩ := ih _ G hat hlen hw
    rcases hm with rfl | ⟨hz, hn, rfl, rfl⟩
    · have hc : child w.mem p (symbol w.tempVpn) = some g := by
        have hfollow := G.follow_owner hat.mem
        rw [ho, follow_snoc, F.follow_owner h.mem] at hfollow
        exact hfollow
      refine ⟨i + 1, f, f', hext.cons h.mem hc, hat', fun hi => hlast (Nat.succ_inj.mp hi),
        fun hi => hnew (Nat.lt_of_succ_lt_succ hi)⟩
    · refine ⟨0, p, f', F.extends_linkNext h.mem hz hext, hat', fun hi => by omega, fun _ => ?_⟩
      obtain ⟨rfl, rfl⟩ := F.extends_fresh h.mem hext
      intro hold
      by_cases hl : 0 = layers
      · exact nalloc_not_mem w.mem (hlast hl ▸ hold)
      · refine hnew (by omega) ?_
        rw [show allocated (w.descend (w.mem.linkNext p (symbol w.tempVpn)) _).mem = _ from
          F.allocated_linkNext p (symbol w.tempVpn)]
        exact Set.mem_insert_of_mem _ hold

/-- `page_table_update` extends the tables on the path of its page number and writes the leaf entry
at the end of it, which belongs to an old table only if nothing had to be added. -/
theorem update_extends (F : PageForest m roots) {r : Word} (hr : r ∈ roots) {v ppn : Word}
    {m' : PhysMem} (hu : pageTableUpdate m r v ppn = .ok m') :
    ∃ i f mid leaf, Extends m mid r v 4 i f ∧ m' = mid.setEntry leaf (leafSymbol v)
        (finalPte (mid.entry leaf (leafSymbol v)) ppn) ∧
      (∃ G : PageForest mid roots, leaf ∈ allocated mid ∧ G.owner leaf = (r, path 4 v)) ∧
      (i = 4 → leaf = f) ∧ (i < 4 → leaf ∉ allocated m) := by
  have hd : (F.owner r).2.length + 4 = 4 := by simp [F.owner_root r hr]
  rcases F.updateWalk_cases hr v ppn with ⟨_, hwalk⟩ | ⟨w, leaf, hl, hdesc, hwalk⟩
  · rw [pageTableUpdate, hwalk] at hu
    cases hu
  · rw [pageTableUpdate, hwalk] at hu
    obtain ⟨i, f, f', hext, hat, hlast, hnew⟩ :=
      F.updateLayers_extends 4 (.start m r v) (F.start_at hr v) hd hl
    obtain rfl := Walk.At.unique hat hdesc.here
    obtain ⟨G, ho, _⟩ := hdesc.owner_length
    exact ⟨i, f, w.mem, f', hext, (Except.ok.inj hu).symm, ⟨G, hat.mem, ho⟩, hlast, hnew⟩

/-- With the leaf entry written, the new tables are zero but for their entry on the path. -/
theorem fresh_setLeaf {mid : PhysMem} (G : PageForest mid roots) {r leaf v f g : Word} {i : ℕ}
    (hr : r ∈ roots) (hext : Extends m mid r v 4 i f) (hleaf : leaf ∈ allocated mid)
    (ho : G.owner leaf = (r, path 4 v)) (x : Word) (hg : g ∈ allocated mid)
    (hold : g ∉ allocated m) :
    ∃ l ≤ 4, follow (child (mid.setEntry leaf (leafSymbol v) x)) r ((path 4 v).take l) = some g ∧
      ∀ k, k ≠ level v l → (mid.setEntry leaf (leafSymbol v) x).entry g k = 0#64 := by
  obtain ⟨l, _, hl, hfollow, hzero⟩ := hext.fresh g hg hold
  have hlen : ((path 4 v).take l).length ≤ 4 := by
    rw [List.length_take, path_length]
    omega
  refine ⟨l, hl, ?_, fun k hk => ?_⟩
  · rw [G.follow_setLeaf hleaf (by rw [ho]; exact path_length 4 v) _ _ hr hlen, hfollow]
  · rw [PhysMem.setEntry_entry (G.isSome hleaf), if_neg]
    · exact hzero k fun _ => hk
    · -- the leaf table is the one at the end of the path
      intro heq
      obtain ⟨rfl, rfl⟩ := Prod.mk.inj heq
      have hpath := (G.owner_of_follow hr hlen hfollow).2
      rw [ho, Prod.mk.injEq] at hpath
      have hfour := congrArg List.length hpath.2
      rw [List.length_take, path_length] at hfour
      exact hk (by rw [leafSymbol_eq, level, show l = 4 by omega])

end PageForest

/-- One update changes one word of the old tables: the leaf entry of its page number, if all tables
on the path exist, or the first zero entry on the path, which becomes a link to a new table. The
new tables are zero but for their entry on the path. -/
theorem update_touches_one_word {s : Os} (h : system.Reachable s) {r : Word} (hr : r ∈ s.roots)
    (v ppn : Word) {m' : PhysMem} (hu : pageTableUpdate s.mem r v ppn = .ok m') :
    ((∃ f, s.Table r (path 4 v) f ∧ allocated m' = allocated s.mem ∧
        ∀ q ∈ allocated s.mem, ∀ k, (q, k) ≠ (f, level v 4) → m'.entry q k = s.mem.entry q k) ∨
      ∃ i < 4, ∃ f, s.Table r ((path 4 v).take i) f ∧ s.mem.entry f (level v i) = 0#64 ∧
        (∃ g ∈ allocated m', g ∉ allocated s.mem ∧ m'.entry f (level v i) = (g <<< 12) + 1#64 ∧
          m'.entry f (level v i) &&& 1#64 ≠ 0#64) ∧
        ∀ q ∈ allocated s.mem, ∀ k, (q, k) ≠ (f, level v i) → m'.entry q k = s.mem.entry q k) ∧
    ∀ g ∈ allocated m', g ∉ allocated s.mem → ∃ l ≤ 4,
      follow (child m') r ((path 4 v).take l) = some g ∧
        ∀ k, k ≠ level v l → m'.entry g k = 0#64 := by
  obtain ⟨F⟩ := reachable_forest h
  obtain ⟨i, f, mid, leaf, hext, rfl, ⟨G, hleaf, ho⟩, hlast, hnew⟩ := F.update_extends hr hu
  have hentry := PhysMem.setEntry_entry (G.isSome hleaf) (leafSymbol v)
    (finalPte (mid.entry leaf (leafSymbol v)) ppn)
  have hlevel : leafSymbol v = level v 4 := leafSymbol_eq v
  refine ⟨?_, fun g hg hold => ?_⟩
  · by_cases hi : i = 4
    · subst hi
      obtain rfl := hlast rfl
      have htake : (path 4 v).take 4 = path 4 v := List.take_of_length_le (path_length 4 v).le
      refine Or.inl ⟨leaf, ⟨hr, htake ▸ hext.here⟩, hext.allocated_eq, fun q hq k hk => ?_⟩
      rw [hentry, if_neg (hlevel ▸ hk), hext.frame q hq k fun hlt => absurd hlt (lt_irrefl 4)]
    · have hlt : i < 4 := lt_of_le_of_ne hext.le hi
      have hne : ∀ q ∈ allocated s.mem, ∀ k, (q, k) ≠ (leaf, leafSymbol v) := fun q hq k heq =>
        hnew hlt ((Prod.mk.inj heq).1 ▸ hq)
      obtain ⟨hz, hlink, hfresh⟩ := hext.link hlt
      refine Or.inr ⟨i, hlt, f, ⟨hr, hext.here⟩, hz, ⟨s.mem.nalloc, hfresh,
        PageForest.nalloc_not_mem s.mem, ?_, ?_⟩, fun q hq k hk => ?_⟩
      · rw [hentry, if_neg (hne f hext.old _), hlink, linkWord]
      · rw [hentry, if_neg (hne f hext.old _), hlink]
        exact linkWord_valid _
      · rw [hentry, if_neg (hne q hq k), hext.frame q hq k fun _ => hk]
  · exact G.fresh_setLeaf hr hext hleaf ho _ hg hold

theorem update_touches_one_word_sample : ∃ m',
    pageTableUpdate sampleState.mem 1#64 0xfeca#64 7#64 = .ok m' ∧
    ∀ g ∈ allocated m', g ∉ allocated sampleState.mem → ∃ l ≤ 4,
      follow (child m') 1#64 ((path 4 0xfeca#64).take l) = some g ∧
        ∀ k, k ≠ level 0xfeca#64 l → m'.entry g k = 0#64 := by
  have h : system.Run sampleCalls sampleState := Machine.run_ofFun.mpr rfl
  have hr : 1#64 ∈ sampleState.roots := by decide +kernel
  have hsome : (pageTableUpdate sampleState.mem 1#64 0xfeca#64 7#64).toOption.isSome := by
    decide +kernel
  cases hu : pageTableUpdate sampleState.mem 1#64 0xfeca#64 7#64 with
  | error e =>
    rw [hu] at hsome
    cases hsome
  | ok m' => exact ⟨m', rfl, (update_touches_one_word h.reachable hr 0xfeca#64 7#64 hu).2⟩

/-! ## Unmapping what is not mapped -/

namespace PageForest
variable {m : PhysMem} {roots : Set Word}

/-- Where the interior path breaks off, an update that returns has allocated the next frame. -/
theorem nalloc_mem_of_update (F : PageForest m roots) {r : Word} (hr : r ∈ roots) {v ppn : Word}
    (hnone : leafTable m r v = none) {m' : PhysMem} (hu : pageTableUpdate m r v ppn = .ok m') :
    m.nalloc ∈ allocated m' := by
  obtain ⟨i, f, mid, leaf, hext, rfl, _⟩ := F.update_extends hr hu
  have hi : i < 4 := by
    refine lt_of_le_of_ne hext.le ?_
    rintro rfl
    have hhere := hext.here
    rw [List.take_of_length_le (path_length 4 v).le, ← leafTable, hnone] at hhere
    cases hhere
  exact (hext.link hi).2.2

/-- Where there are tables all along the path, the update loop only follows their links. -/
theorem updateLayers_of_follow (layers : ℕ) (w : Walk) (F : PageForest w.mem roots) {p f : Word}
    (h : w.At p) (hd : (F.owner p).2.length + layers = 4)
    (hf : follow (child w.mem) p (path layers w.tempVpn) = some f) :
    ∃ w', updateLayers layers w = .ok w' ∧ w'.mem = w.mem := by
  induction layers generalizing w p with
  | zero => exact ⟨w, rfl, rfl⟩
  | succ layers ih =>
    obtain ⟨g, hc, hf⟩ := Option.bind_eq_some_iff.mp hf
    obtain ⟨hg, ho⟩ := F.down p h.mem (by omega) _ g hc
    rcases F.updateLayer_cases h (by omega) with ⟨g', hg', hu, ho'⟩ | ⟨hz, _⟩
    · obtain rfl := F.owner_injOn hg' hg (ho'.trans ho.symm)
      have hlen : (F.owner g').2.length + layers = 4 := by
        rw [ho, List.length_append, List.length_singleton]
        omega
      rw [updateLayers, hu, ok_bind]
      exact ih (w.descend w.mem (linkWord g')) F ⟨F.physToVirt_child hg, hg⟩ hlen hf
    · rw [child, if_pos hz] at hc
      cases hc

/-- Where the leaf table exists and its entry maps nothing, destroying the mapping changes
nothing. -/
theorem update_of_leafTable (F : PageForest m roots) {r : Word} (hr : r ∈ roots) {v f : Word}
    (hf : leafTable m r v = some f) (hv : lookup m r v = NO_MAPPING) :
    pageTableUpdate m r v NO_MAPPING = .ok m := by
  have hd : (F.owner r).2.length + 4 = 4 := by simp [F.owner_root r hr]
  obtain ⟨w, hw, hmem⟩ := F.updateLayers_of_follow 4 (.start m r v) (F.start_at hr v) hd hf
  replace hmem : w.mem = m := hmem
  rcases F.updateWalk_cases hr v NO_MAPPING with ⟨hl, _⟩ | ⟨w', leaf, hl, hdesc, hwalk⟩
  · rw [hw] at hl
    cases hl
  · obtain rfl := Except.ok.inj (hw.symm.trans hl)
    obtain ⟨G, ho, _⟩ := hdesc.owner_length
    have hleaf := (G.leafTable_eq_some_iff hr).mpr ⟨hdesc.here.mem, ho⟩
    rw [hmem, hf, Option.some.injEq] at hleaf
    have hentry : decode (m.entry leaf (leafSymbol v)) = NO_MAPPING := by
      rw [← hleaf, ← hv, lookup, hf, Option.elim_some]
    rw [pageTableUpdate, hwalk, hmem, finalPte_of_decode hentry, PhysMem.setEntry_self]
    rfl

end PageForest

/-- Destroying a mapping that does not exist leaves the memory as it is if and only if the four
tables below the root on its path exist. -/
theorem unmap_noop_iff {s : Os} (h : system.Reachable s) {r : Word} (hr : r ∈ s.roots) {v : Word}
    (hq : pageTableQuery s.mem r v = .ok NO_MAPPING) :
    pageTableUpdate s.mem r v NO_MAPPING = .ok s.mem ↔ ∃ f, s.Table r (path 4 v) f := by
  obtain ⟨F⟩ := reachable_forest h
  constructor
  · intro hu
    refine (Option.ne_none_iff_exists'.mp fun hnone => ?_).imp fun f hf => ⟨hr, hf⟩
    exact PageForest.nalloc_not_mem s.mem (F.nalloc_mem_of_update hr hnone hu)
  · rintro ⟨f, _, hf⟩
    rw [query_eq h hr] at hq
    exact F.update_of_leafTable hr hf (Except.ok.inj hq)

/-- A mapping that has been destroyed is destroyed again; another page number has no leaf table. -/
theorem unmap_noop_iff_sample :
    pageTableUpdate sampleState.mem 0#64 0xcafe#64 NO_MAPPING = .ok sampleState.mem ∧
      pageTableUpdate sampleState.mem 1#64 0xfeca#64 NO_MAPPING ≠ .ok sampleState.mem := by
  have h : system.Run sampleCalls sampleState := Machine.run_ofFun.mpr rfl
  constructor
  · have hsome : (follow (child sampleState.mem) 0#64 (path 4 0xcafe#64)).isSome := by
      decide +kernel
    obtain ⟨f, hf⟩ := Option.isSome_iff_exists.mp hsome
    have hr : 0#64 ∈ sampleState.roots := by decide +kernel
    exact (unmap_noop_iff h.reachable hr (v := 0xcafe#64) (by decide +kernel)).mpr ⟨f, hr, hf⟩
  · have hnone : follow (child sampleState.mem) 1#64 (path 4 0xfeca#64) = none := by
      decide +kernel
    intro hu
    obtain ⟨f, _, hf⟩ := (unmap_noop_iff h.reachable (r := 1#64) (by decide +kernel)
      (by decide +kernel)).mp hu
    rw [hnone] at hf
    cases hf

/-- Below a fresh root nothing is mapped, and unmapping there allocates four frames. -/
theorem unmap_allocates : ∃ s m', system.Run [.alloc] s ∧ 0#64 ∈ s.roots ∧
    pageTableQuery s.mem 0#64 0xcafe#64 = .ok NO_MAPPING ∧
    pageTableUpdate s.mem 0#64 0xcafe#64 NO_MAPPING = .ok m' ∧ s.mem.nalloc = 1#64 ∧
    m'.nalloc = 5#64 ∧ s.mem.entry 0#64 (level 0xcafe#64 0) = 0#64 ∧
    m'.entry 0#64 (level 0xcafe#64 0) = linkWord 1#64 := by
  obtain ⟨s, hs⟩ : ∃ s, Machine.perform Os.call .boot [.alloc] = some s := ⟨_, rfl⟩
  obtain ⟨m', hm'⟩ : ∃ m', pageTableUpdate s.mem 0#64 0xcafe#64 NO_MAPPING = .ok m' := by
    cases hs
    exact ⟨_, rfl⟩
  refine ⟨s, m', Machine.run_ofFun.mpr hs, ?_, ?_, hm', ?_⟩
  · cases hs
    decide
  · cases hs
    decide +kernel
  · cases hs
    cases hm'
    decide +kernel

end OsCourse.PageTable
