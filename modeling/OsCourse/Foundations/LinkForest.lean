import Mathlib

/-! # Forests of linked nodes in one shared memory

Nodes are linked by a partial function `link`. A `LinkForest` records, for every
allocated node, the one root it belongs to and the one path that leads there;
a node whose path is shorter than `depth` is interior, and only the links of
interior nodes count. Since a node has one owner, subtrees never overlap.
-/

namespace OsCourse.Foundations
variable {ν σ : Type*}

/-- Follow the links of `p` from `n`. -/
def follow (link : ν → σ → Option ν) : ν → List σ → Option ν
  | n, [] => some n
  | n, s :: p => (link n s).bind (follow link · p)

@[simp] theorem follow_nil (link : ν → σ → Option ν) (n : ν) : follow link n [] = some n := rfl

theorem follow_append (link : ν → σ → Option ν) (n : ν) (p q : List σ) :
    follow link n (p ++ q) = (follow link n p).bind (follow link · q) := by
  induction p generalizing n with
  | nil => rfl
  | cons s p ih =>
    cases h : link n s with
    | none => simp [follow, h]
    | some c => simp [follow, h, ih]

theorem follow_snoc (link : ν → σ → Option ν) (n : ν) (p : List σ) (s : σ) :
    follow link n (p ++ [s]) = (follow link n p).bind (link · s) := by
  rw [follow_append]
  congr 1
  funext m
  cases h : link m s <;> simp [follow, h]

/-- The forest over the nodes `alloc`: every node has one owning root and one path. -/
structure LinkForest (link : ν → σ → Option ν) (alloc roots : Set ν) (depth : ℕ) where
  owner : ν → ν × List σ
  root_alloc : ∀ r ∈ roots, r ∈ alloc
  owner_root : ∀ r ∈ roots, owner r = (r, [])
  owner_mem : ∀ n ∈ alloc, (owner n).1 ∈ roots
  length_le : ∀ n ∈ alloc, (owner n).2.length ≤ depth
  eq_root : ∀ n ∈ alloc, (owner n).2 = [] → n = (owner n).1
  down : ∀ n ∈ alloc, (owner n).2.length < depth → ∀ s c, link n s = some c →
    c ∈ alloc ∧ owner c = ((owner n).1, (owner n).2 ++ [s])
  up : ∀ c ∈ alloc, ∀ p s, (owner c).2 = p ++ [s] →
    ∃ n ∈ alloc, owner n = ((owner c).1, p) ∧ link n s = some c

namespace LinkForest
variable {link : ν → σ → Option ν} {alloc roots : Set ν} {depth : ℕ}

/-- The path recorded for a node leads to it. -/
theorem follow_owner (F : LinkForest link alloc roots depth) {n : ν} (hn : n ∈ alloc) :
    follow link (F.owner n).1 (F.owner n).2 = some n := by
  obtain ⟨p, hp⟩ : ∃ p, (F.owner n).2 = p := ⟨_, rfl⟩
  induction p using List.reverseRecOn generalizing n with
  | nil =>
    rw [hp, follow_nil, ← F.eq_root n hn hp]
  | append_singleton p s ih =>
    obtain ⟨m, hm, ho, hl⟩ := F.up n hn p s hp
    have hfm := ih hm (by rw [ho])
    rw [hp, follow_snoc]
    rw [ho] at hfm
    simpa [hfm] using hl

/-- A short path from a root leads to a node that records it. -/
theorem owner_of_follow (F : LinkForest link alloc roots depth) {r n : ν} {p : List σ}
    (hr : r ∈ roots) (hp : p.length ≤ depth) (h : follow link r p = some n) :
    n ∈ alloc ∧ F.owner n = (r, p) := by
  induction p using List.reverseRecOn generalizing n with
  | nil =>
    cases h
    exact ⟨F.root_alloc _ hr, F.owner_root _ hr⟩
  | append_singleton p s ih =>
    rw [follow_snoc] at h
    cases hm : follow link r p with
    | none => simp [hm] at h
    | some m =>
      have hl : link m s = some n := by simpa [hm] using h
      simp only [List.length_append, List.length_singleton] at hp
      obtain ⟨hma, ho⟩ := ih (by omega) hm
      have hd := F.down m hma (by rw [ho]; exact hp) s n hl
      simpa [ho] using hd

theorem follow_eq_some_iff (F : LinkForest link alloc roots depth) {r n : ν} {p : List σ}
    (hr : r ∈ roots) (hp : p.length ≤ depth) :
    follow link r p = some n ↔ n ∈ alloc ∧ F.owner n = (r, p) := by
  refine ⟨F.owner_of_follow hr hp, fun ⟨hn, ho⟩ => ?_⟩
  have h := F.follow_owner hn
  rwa [ho] at h

theorem owner_injOn (F : LinkForest link alloc roots depth) {n m : ν} (hn : n ∈ alloc)
    (hm : m ∈ alloc) (h : F.owner n = F.owner m) : n = m := by
  have hf := F.follow_owner hn
  rw [h, F.follow_owner hm] at hf
  exact (Option.some.inj hf).symm

/-- Every allocated node is reached from exactly one root along exactly one path. -/
theorem existsUnique_path (F : LinkForest link alloc roots depth) {n : ν} (hn : n ∈ alloc) :
    ∃! q : ν × List σ, q.1 ∈ roots ∧ q.2.length ≤ depth ∧ follow link q.1 q.2 = some n := by
  refine ⟨F.owner n, ⟨F.owner_mem n hn, F.length_le n hn, F.follow_owner hn⟩, ?_⟩
  rintro ⟨r, p⟩ ⟨hr, hp, h⟩
  exact (F.owner_of_follow hr hp h).2.symm

/-- A root is not the target of any interior link. -/
theorem link_ne_root (F : LinkForest link alloc roots depth) {n c : ν} {s : σ} (hn : n ∈ alloc)
    (hd : (F.owner n).2.length < depth) (h : link n s = some c) : c ∉ roots := by
  intro hc
  have ho := (F.down n hn hd s c h).2
  rw [F.owner_root c hc] at ho
  simpa using congrArg (fun q => q.2.length) ho

/-- A node that is no root is the target of exactly one link of an interior node. -/
theorem existsUnique_link (F : LinkForest link alloc roots depth) {c : ν} (hc : c ∈ alloc)
    (hr : c ∉ roots) :
    ∃! e : ν × List σ × σ, e.1 ∈ roots ∧ e.2.1.length < depth ∧
      ∃ n, follow link e.1 e.2.1 = some n ∧ link n e.2.2 = some c := by
  rcases List.eq_nil_or_concat (F.owner c).2 with hnil | ⟨p, s, hp⟩
  · exact absurd (F.eq_root c hc hnil ▸ F.owner_mem c hc) hr
  · rw [List.concat_eq_append] at hp
    obtain ⟨n, hn, ho, hl⟩ := F.up c hc p s hp
    have hlen := F.length_le c hc
    rw [hp, List.length_append, List.length_singleton] at hlen
    refine ⟨((F.owner c).1, p, s), ⟨F.owner_mem c hc, by dsimp only; omega, n, ?_, hl⟩, ?_⟩
    · have h := F.follow_owner hn
      rwa [ho] at h
    · rintro ⟨r, q, t⟩ ⟨hr', hq, m, hm, hlm⟩
      have hf : follow link r (q ++ [t]) = some c := by rw [follow_snoc, hm]; exact hlm
      have hq' : (q ++ [t]).length ≤ depth := by
        rw [List.length_append, List.length_singleton]; exact hq
      have hoc := (F.owner_of_follow hr' hq' hf).2
      rw [hoc] at hp
      obtain ⟨hqp, hts⟩ := List.append_inj' hp rfl
      have hr'' : r = (F.owner c).1 := by rw [hoc]
      cases hts
      cases hqp
      rw [hr'']

/-- Only the links of interior nodes matter. -/
def congr (F : LinkForest link alloc roots depth) (link' : ν → σ → Option ν)
    (h : ∀ n ∈ alloc, (F.owner n).2.length < depth → link' n = link n) :
    LinkForest link' alloc roots depth where
  owner := F.owner
  root_alloc := F.root_alloc
  owner_root := F.owner_root
  owner_mem := F.owner_mem
  length_le := F.length_le
  eq_root := F.eq_root
  down n hn hd s c hl := F.down n hn hd s c (by rwa [h n hn hd] at hl)
  up c hc p s hp := by
    obtain ⟨n, hn, ho, hl⟩ := F.up c hc p s hp
    refine ⟨n, hn, ho, ?_⟩
    have hlen := F.length_le c hc
    rw [hp, List.length_append, List.length_singleton] at hlen
    rw [h n hn (by rw [ho]; exact hlen)]
    exact hl

/-- Links of leaves do not show on any path. -/
theorem follow_congr (F : LinkForest link alloc roots depth) (link' : ν → σ → Option ν)
    (h : ∀ n ∈ alloc, (F.owner n).2.length < depth → link' n = link n) {r : ν} {p : List σ}
    (hr : r ∈ roots) (hp : p.length ≤ depth) : follow link' r p = follow link r p := by
  ext n
  rw [F.follow_eq_some_iff hr hp, (F.congr link' h).follow_eq_some_iff hr hp]
  rfl

/-- The same forest over sets that are equal to the given ones. -/
def recast (F : LinkForest link alloc roots depth) {alloc' roots' : Set ν} (ha : alloc' = alloc)
    (hr : roots' = roots) : LinkForest link alloc' roots' depth where
  owner := F.owner
  root_alloc := by subst ha hr; exact F.root_alloc
  owner_root := by subst hr; exact F.owner_root
  owner_mem := by subst ha hr; exact F.owner_mem
  length_le := by subst ha; exact F.length_le
  eq_root := by subst ha; exact F.eq_root
  down := by subst ha; exact F.down
  up := by subst ha; exact F.up

/-! ## Counting nodes by their paths -/

/-- The paths from the roots, of length up to `depth`, that lead somewhere. -/
def paths (link : ν → σ → Option ν) (roots : Set ν) (depth : ℕ) : Set (ν × List σ) :=
  {q | q.1 ∈ roots ∧ q.2.length ≤ depth ∧ (follow link q.1 q.2).isSome}

theorem owner_image (F : LinkForest link alloc roots depth) :
    F.owner '' alloc = paths link roots depth := by
  ext q
  constructor
  · rintro ⟨n, hn, rfl⟩
    exact ⟨F.owner_mem n hn, F.length_le n hn, by rw [F.follow_owner hn]; rfl⟩
  · rintro ⟨hr, hp, hsome⟩
    obtain ⟨n, hn⟩ := Option.isSome_iff_exists.mp hsome
    obtain ⟨ha, ho⟩ := F.owner_of_follow hr hp hn
    exact ⟨n, ha, ho⟩

/-- There are as many paths as nodes. -/
theorem ncard_paths (F : LinkForest link alloc roots depth) :
    (paths link roots depth).ncard = alloc.ncard := by
  rw [← F.owner_image]
  exact Set.InjOn.ncard_image fun n hn m hm h => F.owner_injOn hn hm h

/-- A forest that has one node more has one path more. -/
theorem paths_insert (F : LinkForest link alloc roots depth) {link' : ν → σ → Option ν}
    {alloc' roots' : Set ν} (G : LinkForest link' alloc' roots' depth) {g : ν}
    (halloc : alloc' = insert g alloc) (hold : ∀ n ∈ alloc, G.owner n = F.owner n) :
    paths link' roots' depth = insert (G.owner g) (paths link roots depth) := by
  subst halloc
  rw [← G.owner_image, ← F.owner_image, Set.image_insert_eq, Set.image_congr hold]

variable [DecidableEq ν]

private theorem update_old {o : ν → ν × List σ} {g n : ν} {q : ν × List σ} (hg : g ∉ alloc)
    (hn : n ∈ alloc) : Function.update o g q n = o n :=
  Function.update_of_ne (ne_of_mem_of_not_mem hn hg) _ _

/-- A fresh node without links becomes a root. -/
def addRoot (F : LinkForest link alloc roots depth) {g : ν} (hg : g ∉ alloc)
    (link' : ν → σ → Option ν) (hold : ∀ n ∈ alloc, link' n = link n)
    (hnew : ∀ s, link' g s = none) :
    LinkForest link' (insert g alloc) (insert g roots) depth where
  owner := Function.update F.owner g (g, [])
  root_alloc r hr := hr.imp id (F.root_alloc r)
  owner_root r hr := by
    rcases hr with rfl | hr
    · simp
    · rw [update_old hg (F.root_alloc r hr), F.owner_root r hr]
  owner_mem n hn := by
    rcases hn with rfl | hn
    · simp
    · rw [update_old hg hn]
      exact Or.inr (F.owner_mem n hn)
  length_le n hn := by
    rcases hn with rfl | hn
    · simp
    · rw [update_old hg hn]
      exact F.length_le n hn
  eq_root n hn := by
    rcases hn with rfl | hn
    · simp
    · rw [update_old hg hn]
      exact F.eq_root n hn
  down n hn := by
    rcases hn with rfl | hn
    · intro _ s c hl
      rw [hnew] at hl
      cases hl
    · rw [update_old hg hn]
      intro hd s c hl
      obtain ⟨hc, ho⟩ := F.down n hn hd s c (by rwa [hold n hn] at hl)
      exact ⟨Or.inr hc, by rw [update_old hg hc, ho]⟩
  up c hc p s := by
    rcases hc with rfl | hc
    · simp
    · rw [update_old hg hc]
      intro hp
      obtain ⟨n, hn, ho, hl⟩ := F.up c hc p s hp
      exact ⟨n, Or.inr hn, by rw [update_old hg hn, ho],
        by rw [hold n hn]; exact hl⟩

/-- A fresh node without links is linked below the interior node `n` at the free symbol `s`. -/
def grow (F : LinkForest link alloc roots depth) {n g : ν} {s : σ} (hn : n ∈ alloc)
    (hd : (F.owner n).2.length < depth) (hfree : link n s = none) (hg : g ∉ alloc)
    (link' : ν → σ → Option ν) (hlink : link' n s = some g)
    (hold : ∀ m ∈ alloc, ∀ t, (m, t) ≠ (n, s) → link' m t = link m t)
    (hnew : ∀ t, link' g t = none) :
    LinkForest link' (insert g alloc) roots depth where
  owner := Function.update F.owner g ((F.owner n).1, (F.owner n).2 ++ [s])
  root_alloc r hr := Or.inr (F.root_alloc r hr)
  owner_root r hr := by
    rw [update_old hg (F.root_alloc r hr), F.owner_root r hr]
  owner_mem m hm := by
    rcases hm with rfl | hm
    · simpa using F.owner_mem n hn
    · rw [update_old hg hm]
      exact F.owner_mem m hm
  length_le m hm := by
    rcases hm with rfl | hm
    · simpa using Nat.succ_le_of_lt hd
    · rw [update_old hg hm]
      exact F.length_le m hm
  eq_root m hm := by
    rcases hm with rfl | hm
    · simp
    · rw [update_old hg hm]
      exact F.eq_root m hm
  down m hm := by
    rcases hm with rfl | hm
    · intro _ t c hl
      rw [hnew] at hl
      cases hl
    · rw [update_old hg hm]
      intro hdm t c hl
      by_cases hmt : (m, t) = (n, s)
      · cases hmt
        rw [hlink] at hl
        cases hl
        exact ⟨Or.inl rfl, by simp⟩
      · rw [hold m hm t hmt] at hl
        obtain ⟨hc, ho⟩ := F.down m hm hdm t c hl
        exact ⟨Or.inr hc, by rw [update_old hg hc, ho]⟩
  up c hc p t := by
    rcases hc with rfl | hc
    · rw [Function.update_self]
      intro hp
      obtain ⟨hp', hst⟩ := List.append_inj' hp rfl
      cases hst
      cases hp'
      exact ⟨n, Or.inr hn, by rw [update_old hg hn], hlink⟩
    · rw [update_old hg hc]
      intro hp
      obtain ⟨m, hm, ho, hl⟩ := F.up c hc p t hp
      have hmt : (m, t) ≠ (n, s) := by
        rintro ⟨⟩
        rw [hfree] at hl
        cases hl
      exact ⟨m, Or.inr hm, by rw [update_old hg hm, ho],
        by rw [hold m hm t hmt]; exact hl⟩

theorem addRoot_owner_old (F : LinkForest link alloc roots depth) {g m : ν} (hg : g ∉ alloc)
    (link' : ν → σ → Option ν) (hold : ∀ n ∈ alloc, link' n = link n)
    (hnew : ∀ s, link' g s = none) (hm : m ∈ alloc) :
    (F.addRoot hg link' hold hnew).owner m = F.owner m := update_old hg hm

theorem addRoot_owner_new (F : LinkForest link alloc roots depth) {g : ν} (hg : g ∉ alloc)
    (link' : ν → σ → Option ν) (hold : ∀ n ∈ alloc, link' n = link n)
    (hnew : ∀ s, link' g s = none) : (F.addRoot hg link' hold hnew).owner g = (g, []) :=
  Function.update_self _ _ _

/-- A new root leaves every path from an old root alone. -/
theorem follow_addRoot (F : LinkForest link alloc roots depth) {g : ν} (hg : g ∉ alloc)
    (link' : ν → σ → Option ν) (hold : ∀ n ∈ alloc, link' n = link n)
    (hnew : ∀ s, link' g s = none) {r : ν} {q : List σ} (hr : r ∈ roots)
    (hq : q.length ≤ depth) : follow link' r q = follow link r q := by
  have hrg : r ≠ g := ne_of_mem_of_not_mem (F.root_alloc r hr) hg
  ext c
  rw [(F.addRoot hg link' hold hnew).follow_eq_some_iff (Or.inr hr) hq,
    F.follow_eq_some_iff hr hq]
  constructor
  · rintro ⟨rfl | hc, ho⟩
    · rw [F.addRoot_owner_new hg] at ho
      exact absurd (congrArg Prod.fst ho).symm hrg
    · rw [F.addRoot_owner_old hg _ _ _ hc] at ho
      exact ⟨hc, ho⟩
  · rintro ⟨hc, ho⟩
    exact ⟨Or.inr hc, by rw [F.addRoot_owner_old hg _ _ _ hc, ho]⟩

section Grow
variable (F : LinkForest link alloc roots depth) {n g : ν} {s : σ} (hn : n ∈ alloc)
  (hd : (F.owner n).2.length < depth) (hfree : link n s = none) (hg : g ∉ alloc)
  (link' : ν → σ → Option ν) (hlink : link' n s = some g)
  (hold : ∀ m ∈ alloc, ∀ t, (m, t) ≠ (n, s) → link' m t = link m t)
  (hnew : ∀ t, link' g t = none)

theorem grow_owner_new : (F.grow hn hd hfree hg link' hlink hold hnew).owner g =
    ((F.owner n).1, (F.owner n).2 ++ [s]) := Function.update_self _ _ _

theorem grow_owner_old {m : ν} (hm : m ∈ alloc) :
    (F.grow hn hd hfree hg link' hlink hold hnew).owner m = F.owner m := update_old hg hm

include hn hd hfree hg hlink hold hnew in
/-- Growing the forest makes one path reach the new node and leaves all others alone. -/
theorem follow_grow [DecidableEq σ] {r : ν} {q : List σ} (hr : r ∈ roots)
    (hq : q.length ≤ depth) :
    follow link' r q =
      if (r, q) = ((F.owner n).1, (F.owner n).2 ++ [s]) then some g else follow link r q := by
  have hnewOwner := F.grow_owner_new hn hd hfree hg link' hlink hold hnew
  have holdOwner := fun m => F.grow_owner_old hn hd hfree hg link' hlink hold hnew (m := m)
  ext c
  rw [(F.grow hn hd hfree hg link' hlink hold hnew).follow_eq_some_iff hr hq]
  split_ifs with h
  · constructor
    · rintro ⟨rfl | hc, ho⟩
      · rfl
      · -- an old node at the end of this path would hang below `n` at the free symbol
        rw [holdOwner c hc] at ho
        obtain ⟨m, hm, hom, hl⟩ := F.up c hc (F.owner n).2 s (by rw [ho, h])
        have hmn : m = n := F.owner_injOn hm hn (by rw [hom, ho, h])
        rw [hmn, hfree] at hl
        cases hl
    · intro hc
      cases hc
      exact ⟨Or.inl rfl, by rw [hnewOwner, h]⟩
  · rw [F.follow_eq_some_iff hr hq]
    constructor
    · rintro ⟨rfl | hc, ho⟩
      · exact absurd (by rw [← ho, hnewOwner]) h
      · exact ⟨hc, by rw [← ho, holdOwner c hc]⟩
    · rintro ⟨hc, ho⟩
      exact ⟨Or.inr hc, by rw [holdOwner c hc, ho]⟩

end Grow

end LinkForest
end OsCourse.Foundations
