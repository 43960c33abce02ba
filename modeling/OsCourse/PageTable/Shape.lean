import OsCourse.PageTable.System

/-! # The shape of every reachable memory

The forest invariant read off the memory itself: interior entries are zero or
links, every frame that is no root hangs below exactly one interior entry, every
frame is reached along exactly one path, and no walk leaves the allocated pages.
-/

namespace OsCourse.PageTable
open Foundations

/-- `f` is the table that the symbols `p` lead to from the root `r`; its level is
`p.length + 1`. -/
def Os.Table (s : Os) (r : Word) (p : List (Fin 512)) (f : Word) : Prop :=
  r ∈ s.roots ∧ follow (child s.mem) r p = some f

/-- The interior entry `k` of the table at `p` below `r` links to `f`. -/
def Os.LinksTo (s : Os) (e : Word × List (Fin 512) × Fin 512) (f : Word) : Prop :=
  e.2.1.length < 4 ∧ ∃ n, s.Table e.1 e.2.1 n ∧ s.mem.entry n e.2.2 = linkWord f

namespace PageForest
variable {m : PhysMem} {roots : Set Word}

theorem linkWord_inj (F : PageForest m roots) {f g : Word} (hf : f ∈ allocated m)
    (hg : g ∈ allocated m) (h : linkWord f = linkWord g) : f = g := by
  rw [← frameOf_linkWord (F.toNat_lt hf), h, frameOf_linkWord (F.toNat_lt hg)]

/-- On an interior entry the link word and the link of the forest are the same thing. -/
theorem entry_eq_linkWord_iff (F : PageForest m roots) {n f : Word} (hn : n ∈ allocated m)
    (hd : (F.owner n).2.length < 4) (hf : f ∈ allocated m) (k : Fin 512) :
    m.entry n k = linkWord f ↔ child m n k = some f := by
  rcases F.entry_cases hn hd k with ⟨hz, hc⟩ | ⟨g, hg, he, hc, _⟩
  · simp [hz, hc, (linkWord_ne_zero f).symm]
  · rw [he, hc, Option.some.injEq]
    exact ⟨F.linkWord_inj hg hf, fun h => by rw [h]⟩

end PageForest

section
variable {s : Os}

theorem interior_entry (F : PageForest s.mem s.rootSet) {r f : Word} {p : List (Fin 512)}
    (hp : p.length < 4) (ht : s.Table r p f) (k : Fin 512) :
    s.mem.entry f k = 0#64 ∨
      ∃ g ∈ allocated s.mem, g ∉ s.roots ∧ s.mem.entry f k = linkWord g := by
  obtain ⟨hf, ho⟩ := F.owner_of_follow ht.1 hp.le ht.2
  have hd : (F.owner f).2.length < 4 := by rwa [ho]
  rcases F.entry_cases hf hd k with ⟨hz, _⟩ | ⟨g, hg, he, hc, _⟩
  · exact Or.inl hz
  · exact Or.inr ⟨g, hg, F.link_ne_root hf hd hc, he⟩

theorem linksTo_iff (F : PageForest s.mem s.rootSet) {e : Word × List (Fin 512) × Fin 512}
    {f : Word} (hf : f ∈ allocated s.mem) :
    s.LinksTo e f ↔ e.1 ∈ s.rootSet ∧ e.2.1.length < 4 ∧
      ∃ n, follow (child s.mem) e.1 e.2.1 = some n ∧ child s.mem n e.2.2 = some f := by
  constructor
  · rintro ⟨hp, n, ⟨hr, hn⟩, he⟩
    obtain ⟨hna, ho⟩ := F.owner_of_follow hr hp.le hn
    exact ⟨hr, hp, n, hn, (F.entry_eq_linkWord_iff hna (by rwa [ho]) hf _).mp he⟩
  · rintro ⟨hr, hp, n, hn, hc⟩
    obtain ⟨hna, ho⟩ := F.owner_of_follow hr hp.le hn
    exact ⟨hp, n, ⟨hr, hn⟩, (F.entry_eq_linkWord_iff hna (by rwa [ho]) hf _).mpr hc⟩

theorem not_linksTo_root (F : PageForest s.mem s.rootSet) {r : Word} (hr : r ∈ s.roots)
    (e : Word × List (Fin 512) × Fin 512) : ¬ s.LinksTo e r := by
  intro h
  obtain ⟨hr', hp, n, hn, hc⟩ := (linksTo_iff F (F.root_alloc r hr)).mp h
  obtain ⟨hna, ho⟩ := F.owner_of_follow hr' hp.le hn
  exact F.link_ne_root hna (by rwa [ho]) hc hr

/-- Page-table memory is a forest of valid frames in every reachable state. -/
theorem memory_is_forest (h : system.Reachable s) :
    (∀ r p f, p.length < 4 → s.Table r p f → ∀ k,
      (s.mem.entry f k = 0#64 ∨
        ∃ g ∈ allocated s.mem, g ∉ s.roots ∧ s.mem.entry f k = (g <<< 12) + 1#64) ∧
      (s.mem.entry f k ≠ 0#64 ↔ s.mem.entry f k &&& 1#64 ≠ 0#64)) ∧
    (∀ f ∈ allocated s.mem,
      (f ∈ s.roots ∧ (∀ e, ¬ s.LinksTo e f) ∨ f ∉ s.roots ∧ ∃! e, s.LinksTo e f) ∧
      ∃! q : Word × List (Fin 512), q.2.length ≤ 4 ∧ s.Table q.1 q.2 f) ∧
    (∀ r ∈ s.roots, ∀ v,
      (∃ pte accesses, pageTableQueryWalk s.mem r v = .ok (pte, accesses) ∧
        ∀ a ∈ accesses, a.Good s.mem) ∧
      ∀ ppn, pageTableUpdateWalk s.mem r v ppn = .error .outOfPhysicalMemory ∨
        ∃ w, pageTableUpdateWalk s.mem r v ppn = .ok w ∧ ∀ a ∈ w.accesses, a.Good w.mem) := by
  obtain ⟨F⟩ := reachable_forest h
  refine ⟨fun r p f hp ht k => ?_, fun f hf => ⟨?_, ?_⟩, fun r hr v => ⟨?_, fun ppn => ?_⟩⟩
  · have hk := interior_entry F hp ht k
    refine ⟨hk, ?_⟩
    rcases hk with hz | ⟨g, _, _, he⟩
    · simp [hz]
    · rw [he]
      exact iff_of_true (linkWord_ne_zero g) (linkWord_valid g)
  · by_cases hr : f ∈ s.roots
    · exact Or.inl ⟨hr, not_linksTo_root F hr⟩
    · refine Or.inr ⟨hr, ?_⟩
      simp only [linksTo_iff F hf]
      exact F.existsUnique_link hf hr
  · obtain ⟨q, ⟨hr, hl, hq⟩, huniq⟩ := F.existsUnique_path hf
    exact ⟨q, ⟨hl, hr, hq⟩, fun q' ⟨hl', hr', hq'⟩ => huniq q' ⟨hr', hl', hq'⟩⟩
  · obtain ⟨accesses, hq, hg⟩ := F.query_spec hr v
    exact ⟨_, accesses, hq, hg⟩
  · refine (F.update_spec hr v ppn).imp id ?_
    rintro ⟨w, hw, _, hg, _⟩
    exact ⟨w, hw, hg⟩

theorem memory_is_forest_sample : ∃! q : Word × List (Fin 512),
    q.2.length ≤ 4 ∧ sampleState.Table q.1 q.2 2#64 := by
  have h : system.Run sampleCalls sampleState := Machine.run_ofFun.mpr rfl
  have hmem : (2#64).toNat < sampleState.mem.nalloc.toNat := by decide +kernel
  exact ((memory_is_forest h.reachable).2.1 2#64 hmem).2

end
end OsCourse.PageTable
