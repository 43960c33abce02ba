import OsCourse.Foundations.Machine
import OsCourse.Foundations.Registers
import OsCourse.PageTable.Spec

/-! # Runs of the page-table code

A run starts from empty physical memory, allocates roots and updates them in any
order. Every state it reaches is a forest, and the page tables refine one
register for each root and page number modulo `2 ^ 45`.
-/

namespace OsCourse.PageTable
open Foundations

/-- Physical memory and the roots handed out so far. -/
structure Os where
  mem : PhysMem
  roots : List Word

def Os.boot : Os := ⟨.empty, []⟩

inductive Call where
  | alloc
  | update (pt vpn ppn : Word)
  deriving DecidableEq, Repr

/-- One call of a run; `none` when the program ends in it or the root was never allocated. -/
def Os.call (s : Os) : Call → Option Os
  | .alloc => (allocPageFrame s.mem).toOption.map fun (m, p) => ⟨m, p :: s.roots⟩
  | .update pt vpn ppn =>
    if pt ∈ s.roots then (pageTableUpdate s.mem pt vpn ppn).toOption.map (⟨·, s.roots⟩) else none

def system : Machine Os Call := .ofFun .boot Os.call

theorem Os.call_alloc {s t : Os} (h : s.call .alloc = some t) :
    s.mem.nalloc.toNat ≠ NPAGES ∧ t = ⟨s.mem.push, s.mem.nalloc :: s.roots⟩ := by
  cases ha : allocPageFrame s.mem with
  | error e => simp [Os.call, ha, Except.toOption] at h
  | ok mp =>
    obtain ⟨hn, hm, hp⟩ := allocPageFrame_eq_ok.mp ha
    simp only [Os.call, ha, Except.toOption, Option.map_some, Option.some.injEq] at h
    exact ⟨hn, by rw [← h, hm, hp]⟩

theorem Os.call_update {s t : Os} {pt vpn ppn : Word} (h : s.call (.update pt vpn ppn) = some t) :
    pt ∈ s.roots ∧ ∃ w, pageTableUpdateWalk s.mem pt vpn ppn = .ok w ∧ t = ⟨w.mem, s.roots⟩ := by
  by_cases hr : pt ∈ s.roots
  · refine ⟨hr, ?_⟩
    cases hw : pageTableUpdateWalk s.mem pt vpn ppn with
    | error e => simp [Os.call, hr, pageTableUpdate, hw, Except.map, Except.toOption] at h
    | ok w =>
      simp only [Os.call, hr, pageTableUpdate, hw, Except.map, Except.toOption, if_true,
        Option.map_some, Option.some.injEq] at h
      exact ⟨w, rfl, h.symm⟩
  · simp [Os.call, hr] at h

/-! ## Every reachable memory is a forest -/

def Os.rootSet (s : Os) : Set Word := {r | r ∈ s.roots}

theorem Os.call_forest {s t : Os} {c : Call} (h : s.call c = some t)
    (hs : Nonempty (PageForest s.mem s.rootSet)) : Nonempty (PageForest t.mem t.rootSet) := by
  obtain ⟨F⟩ := hs
  cases c with
  | alloc =>
    obtain ⟨hn, rfl⟩ := Os.call_alloc h
    have hroots : Os.rootSet ⟨s.mem.push, s.mem.nalloc :: s.roots⟩ =
        insert s.mem.nalloc s.rootSet := by
      ext r
      simp [Os.rootSet]
    rw [hroots]
    exact ⟨F.addRoot hn⟩
  | update pt vpn ppn =>
    obtain ⟨hr, w, hw, rfl⟩ := Os.call_update h
    rcases F.update_spec hr vpn ppn with he | ⟨w', hw', hF, _, _⟩
    · rw [hw] at he
      cases he
    · rw [hw] at hw'
      cases hw'
      exact hF

theorem reachable_forest {s : Os} (h : system.Reachable s) :
    Nonempty (PageForest s.mem s.rootSet) := by
  refine h.invariant (I := fun s => Nonempty (PageForest s.mem s.rootSet)) ?_ ?_
  · rintro s rfl
    have hroots : Os.boot.rootSet = ∅ := by
      ext r
      simp [Os.boot, Os.rootSet]
    rw [hroots]
    exact PageForest.empty
  · intro s c t hs ht
    exact Os.call_forest ht hs

theorem query_eq {s : Os} (h : system.Reachable s) {r : Word} (hr : r ∈ s.roots) (v : Word) :
    pageTableQuery s.mem r v = .ok (lookup s.mem r v) := by
  obtain ⟨F⟩ := reachable_forest h
  obtain ⟨accesses, hq, _⟩ := F.query_spec hr v
  simp [pageTableQuery, hq, Except.map]

theorem call_update_lookup {s t : Os} (h : system.Reachable s) {pt vpn ppn : Word}
    (hc : s.call (.update pt vpn ppn) = some t) {r : Word} (hr : r ∈ s.roots) (v : Word) :
    lookup t.mem r v =
      if r = pt ∧ v.toNat % 2 ^ 45 = vpn.toNat % 2 ^ 45 then mapped ppn else lookup s.mem r v := by
  obtain ⟨F⟩ := reachable_forest h
  obtain ⟨hpt, w, hw, rfl⟩ := Os.call_update hc
  rcases F.update_spec hpt vpn ppn with he | ⟨w', hw', _, _, hl⟩
  · rw [hw] at he
    cases he
  · rw [hw] at hw'
    cases hw'
    exact hl r hr v

/-! ## Refinement of registers -/

/-- The register an update writes: its root and its page number modulo `2 ^ 45`. -/
def Call.write : Call → Option ((Word × ℕ) × Word)
  | .alloc => none
  | .update pt vpn ppn => some ((pt, vpn.toNat % 2 ^ 45), ppn)

/-- The page tables hold what the registers hold; frames that are no roots have no registers. -/
structure Refines (s : Os) (t : Word × ℕ → Option Word) : Prop where
  root : ∀ r ∈ s.roots, ∀ v, lookup s.mem r v = (t (r, v.toNat % 2 ^ 45)).elim NO_MAPPING mapped
  other : ∀ r ∉ s.roots, ∀ k, t (r, k) = none

theorem system_refines :
    Machine.Simulation system (registers (Word × ℕ) Word) Call.write Refines where
  init s hs := by
    obtain rfl : s = Os.boot := hs
    exact ⟨fun _ => none, rfl, by simp [Os.boot], fun _ _ _ => rfl⟩
  step s c s' t hreach hstep hR := by
    refine ⟨writeRegister t c.write, rfl, ?_⟩
    obtain ⟨F⟩ := reachable_forest hreach
    cases c with
    | alloc =>
      obtain ⟨_, rfl⟩ := Os.call_alloc hstep
      constructor
      · intro r hr v
        rcases List.mem_cons.mp hr with rfl | hr
        · have hnew : s.mem.nalloc ∉ s.roots := fun hr =>
            PageForest.nalloc_not_mem s.mem (F.root_alloc _ hr)
          simp [PageForest.lookup_new_root, Call.write, writeRegister, hR.other _ hnew]
        · rw [F.lookup_addRoot hr]
          exact hR.root r hr v
      · intro r hr k
        exact hR.other r (fun h => hr (List.mem_cons_of_mem _ h)) k
    | update pt vpn ppn =>
      have hl := fun r hr v => call_update_lookup hreach hstep (r := r) hr v
      obtain ⟨hpt, w, _, rfl⟩ := Os.call_update hstep
      constructor
      · intro r hr v
        rw [hl r hr v]
        by_cases hk : r = pt ∧ v.toNat % 2 ^ 45 = vpn.toNat % 2 ^ 45
        · rw [if_pos hk, hk.1, hk.2, Call.write, writeRegister, Function.update_self,
            Option.elim_some]
        · have hne : (r, v.toNat % 2 ^ 45) ≠ (pt, vpn.toNat % 2 ^ 45) := by simpa using hk
          rw [if_neg hk, hR.root r hr v, Call.write, writeRegister, Function.update_of_ne hne]
      · intro r hr k
        have hne : (r, k) ≠ (pt, vpn.toNat % 2 ^ 45) := by
          rintro ⟨⟩
          exact hr hpt
        rw [Call.write, writeRegister, Function.update_of_ne hne]
        exact hR.other r hr k

/-- Every query returns what the last update of its root and page number has left, and an
update leaves the queries of the other roots alone. -/
theorem query_eq_last_update {cs : List Call} {s : Os} (h : system.Run cs s) :
    (∀ r ∈ s.roots, ∀ v : Word, pageTableQuery s.mem r v =
      .ok (match lastWrite (r, v.toNat % 2 ^ 45) (cs.filterMap Call.write) with
        | none => NO_MAPPING
        | some ppn => if ppn = NO_MAPPING then NO_MAPPING else BitVec.ofNat 64 (ppn.toNat % 2 ^ 52))) ∧
      ∀ r v ppn t, s.call (.update r v ppn) = some t → ∀ r' ∈ s.roots, r' ≠ r → ∀ v',
        pageTableQuery t.mem r' v' = pageTableQuery s.mem r' v' := by
  constructor
  · intro r hr v
    obtain ⟨t, ht, hR⟩ := system_refines.run h
    rw [query_eq h.reachable hr, hR.root r hr v, registers_run ht, List.filterMap_map]
    change Except.ok (Option.elim (lastWrite _ (cs.filterMap Call.write)) _ _) = _
    cases lastWrite (r, v.toNat % 2 ^ 45) (cs.filterMap Call.write) with
    | none => rfl
    | some ppn =>
      have hw : (ppn.setWidth 52).setWidth 64 = BitVec.ofNat 64 (ppn.toNat % 2 ^ 52) := by
        apply BitVec.eq_of_toNat_eq
        simp
      rw [Option.elim_some, mapped, hw]
  · intro r v ppn t ht r' hr' hne v'
    have hroots : t.roots = s.roots := by
      obtain ⟨_, w, _, rfl⟩ := Os.call_update ht
      rfl
    rw [query_eq h.reachable hr', query_eq (h.reachable.step ht) (by rwa [hroots]),
      call_update_lookup h.reachable ht hr', if_neg (fun h => hne h.1)]

/-- Two roots, the first of them frame number zero; one mapping of the first is destroyed. -/
def sampleCalls : List Call :=
  [.alloc, .alloc, .update 0#64 0xcafe#64 0xf00d#64, .update 1#64 0xcafe#64 0#64,
    .update 0#64 0xcafe#64 NO_MAPPING]

def sampleState : Os := (Machine.perform Os.call .boot sampleCalls).getD .boot

theorem query_eq_last_update_sample :
    pageTableQuery sampleState.mem 0#64 0xcafe#64 = .ok NO_MAPPING ∧
      pageTableQuery sampleState.mem 1#64 0xcafe#64 = .ok 0#64 := by
  have h : system.Run sampleCalls sampleState := Machine.run_ofFun.mpr rfl
  exact ⟨(query_eq_last_update h).1 0#64 (by decide +kernel) 0xcafe#64,
    (query_eq_last_update h).1 1#64 (by decide +kernel) 0xcafe#64⟩

end OsCourse.PageTable
