import OsCourse.MessageSlot.Order

/-! # When a new channel is refused

`ioctl` compares `CHANNELS_LIMIT` with an address that has been stepped by the size of an
`int`, once too often. So a slot refuses its next channel when it has `LIST_LIMIT` channels,
a quarter of the limit.
-/

namespace OsCourse.MessageSlot
open Foundations Store

variable {grants : ℕ → Bool} {k : Kernel} {d : MessageSlotsDevices} {nodes : Minor → List Ptr}
  {m : Minor} {file : ℕ} {f : File} {param : BitVec 64}

namespace Orderly

/-- The guard of a further channel is met exactly by a list of `LIST_LIMIT` channels. -/
theorem full_iff (h : Orderly k d nodes) :
    CHANNELS_LIMIT ≤ (d.numOfChannels m).toNat ↔ (nodes m).length = LIST_LIMIT := by
  have hb := h.bound m
  rw [h.counter m]
  by_cases hnil : nodes m = []
  · rw [hnil]
    decide
  · rw [← not_iff_not, Nat.not_le, steppedTo_lt_iff hnil]
    omega

theorem counter_le_iff (h : Orderly k d nodes) :
    (d.numOfChannels m).toNat ≤ (nodes m).length ↔ nodes m = [] := by
  rw [h.counter m, steppedTo]
  by_cases hnil : nodes m = []
  · simp [hnil]
  · rw [if_neg hnil]
    simp only [hnil, iff_false]
    omega

variable (grants) in
/-- An `ioctl` for a new channel that returns an error. -/
theorem refused_iff (h : Orderly k d nodes) (hf : k.files file = some f) (hparam : param ≠ 0#64)
    (hnot : ¬ Has k nodes f.f_inode (narrow param)) :
    (∃ k' ret, call grants k (.ioctl file MSG_SLOT_CHANNEL param) = .ok (k', ret) ∧
      ret.value ≠ 0) ↔ (nodes f.f_inode).length = LIST_LIMIT := by
  rw [← h.full_iff]
  constructor
  · rintro ⟨k', ret, hcall, hret⟩
    obtain ⟨d', nodes', ht⟩ := h.call_ok hcall
    cases ht with
    | reject hop => simp [Rejected, hf, hparam] at hop
    | full hf' _ _ _ hlim =>
      obtain rfl := Option.some.inj (hf.symm.trans hf')
      exact hlim
    | select => exact absurd rfl hret
    | linkRoot => exact absurd rfl hret
    | linkLast => exact absurd rfl hret
  · intro hlim
    obtain ⟨_, b, hb, _⟩ := h.file file f hf
    have hne : nodes f.f_inode ≠ [] := by
      intro hnil
      rw [h.full_iff, hnil] at hlim
      cases hlim
    have hio := h.ioctl_full grants hf hb hparam hne hnot hlim
    refine ⟨selected k f b param, ⟨-1, []⟩, ?_, by decide⟩
    rw [call, hf]
    dsimp only
    rw [hio, ok_bind]

/-- A channel that is not refused is appended. -/
theorem added {k' : Kernel} {d' : MessageSlotsDevices} {nodes' : Minor → List Ptr} {ret : Ret}
    (h : Orderly k d nodes) (ht : Turn k d nodes (.ioctl file MSG_SLOT_CHANNEL param) k' d' nodes' ret)
    (hf : k.files file = some f) (hparam : param ≠ 0#64)
    (hnot : ¬ Has k nodes f.f_inode (narrow param)) (hlen : (nodes f.f_inode).length ≠ LIST_LIMIT) :
    nodes' = appended nodes f.f_inode k.fresh ∧ k'.files = k.files := by
  cases ht with
  | reject hop => simp [Rejected, hf, hparam] at hop
  | select hf' _ _ hhas =>
    obtain rfl := Option.some.inj (hf.symm.trans hf')
    exact absurd hhas hnot
  | full hf' _ _ _ hlim =>
    obtain rfl := Option.some.inj (hf.symm.trans hf')
    exact absurd (h.full_iff.mp hlim) hlen
  | linkRoot hf' =>
    obtain rfl := Option.some.inj (hf.symm.trans hf')
    exact ⟨rfl, rfl⟩
  | linkLast hf' =>
    obtain rfl := Option.some.inj (hf.symm.trans hf')
    exact ⟨rfl, rfl⟩

end Orderly

/-- For every valid `ioctl` whose channel is not in the list of its slot: that an error means a list
of `CHANNELS_LIMIT` channels is true except for lists of `LIST_LIMIT` channels; and what is compared
with the limit is at most the length only of the empty list. -/
theorem refuses_only_full_iff {s : System} (hs : (messageSlots grants).Reachable s)
    (hf : s.kernel.files file = some f) (hparam : param ≠ 0#64) {l : List Ptr}
    (hl : s.kernel.SlotList f.f_inode l)
    (hnew : ∀ p ∈ l, ∀ c, s.kernel.At p c → c.channel_id ≠ narrow param) :
    ((∀ k' ret, call grants s.kernel (.ioctl file MSG_SLOT_CHANNEL param) = .ok (k', ret) →
      ret.value ≠ 0 → CHANNELS_LIMIT ≤ l.length) ↔ l.length ≠ LIST_LIMIT) ∧
    ∀ d, s.kernel.devices = some d →
      ((d.numOfChannels f.f_inode).toNat ≤ l.length ↔ l = []) := by
  obtain ⟨d, nodes, h⟩ := Orderly.of_reachable hs
  obtain rfl := h.slotList_iff.mp hl
  have hnot : ¬ Has s.kernel nodes f.f_inode (narrow param) := by
    intro hhas
    obtain ⟨p, hp, c, hc, hid⟩ := exists_at_of_has hhas
    exact hnew p hp c hc hid
  refine ⟨?_, fun d' hd' => ?_⟩
  · rw [ne_eq, ← h.refused_iff grants hf hparam hnot]
    constructor
    · rintro hfull ⟨k', ret, hcall, hret⟩
      have hlong := (hfull k' ret hcall hret).trans (h.bound f.f_inode)
      exact absurd hlong (by decide)
    · exact fun hok k' ret hcall hret => absurd ⟨k', ret, hcall, hret⟩ hok
  · obtain rfl := Option.some.inj (h.table.symm.trans hd')
    exact h.counter_le_iff

/-! ## Filling a slot -/

/-- File 0 is open on slot 0, which has the channels 1 to `n`. -/
structure Filled (n : ℕ) (s : System) (d : MessageSlotsDevices) (nodes : Minor → List Ptr) : Prop
    extends Orderly s.kernel d nodes where
  opened : ∃ f, s.kernel.files 0 = some f ∧ f.f_inode = 0
  length : (nodes 0).length = n
  small : ∀ id, Has s.kernel nodes 0 id → id.toNat ≤ n

theorem narrow_toNat {n : ℕ} (hn : n ≤ LIST_LIMIT) : (narrow (BitVec.ofNat 64 n)).toNat = n := by
  have hlt : n < 2 ^ 32 := Nat.lt_of_le_of_lt hn (by decide)
  rw [narrow, BitVec.toNat_setWidth, BitVec.toNat_ofNat, Nat.mod_mod_of_dvd _ (by decide),
    Nat.mod_eq_of_lt hlt]

/-- The next number is none of the channels. -/
theorem Filled.next_new {n : ℕ} {s : System} (h : Filled n s d nodes) (hn : n < LIST_LIMIT) :
    BitVec.ofNat 64 (n + 1) ≠ 0#64 ∧
      ¬ Has s.kernel nodes 0 (narrow (BitVec.ofNat 64 (n + 1))) := by
  have hid := narrow_toNat (n := n + 1) hn
  constructor
  · intro h0
    rw [h0] at hid
    cases hid
  · intro hhas
    have := h.small _ hhas
    omega

/-- There is room for one more channel. -/
theorem Filled.next {n : ℕ} {s : System} (h : Filled n s d nodes) (hn : n < LIST_LIMIT) :
    ∃ t d' nodes', (messageSlots fun _ => true).step s
      (.ioctl 0 MSG_SLOT_CHANNEL (BitVec.ofNat 64 (n + 1))) t ∧ Filled (n + 1) t d' nodes' := by
  obtain ⟨f, hf, hm⟩ := h.opened
  have hid := narrow_toNat (n := n + 1) hn
  obtain ⟨hparam, hnot⟩ := h.next_new hn
  rcases h.call_turn (fun _ => true) (fun m hm => h.room hm)
    (.ioctl 0 MSG_SLOT_CHANNEL (BitVec.ofNat 64 (n + 1))) with
    ⟨k', d', nodes', ret, hcall, ht⟩ | ⟨_, hstarved | hlost⟩
  · obtain ⟨rfl, hfiles⟩ := h.added ht hf hparam (by rwa [hm]) (by rw [hm, h.length]; exact hn.ne)
    refine ⟨⟨k', s.journal.record (.ioctl 0 MSG_SLOT_CHANNEL (.ofNat 64 (n + 1))) ret⟩, d', _,
      ⟨ret, hcall, rfl⟩, h.turn ht, ?_, ?_, ?_⟩
    · exact ⟨f, by rw [hfiles, hf], hm⟩
    · rw [hm, appended, Function.update_self, List.length_append, h.length]
      rfl
    · intro id hhas
      rcases ht.has h.toStore hhas with hhas | ⟨_, _, _, heq, _, _, rfl⟩
      · exact Nat.le_succ_of_le (h.small id hhas)
      · obtain ⟨_, _, rfl⟩ := Op.ioctl.inj heq
        exact hid.le
  · simp [Starved] at hstarved
  · exact hlost.elim

/-- A slot can be filled up to its limit. -/
theorem filled {n : ℕ} (hn : n ≤ LIST_LIMIT) :
    ∃ s d nodes, (messageSlots fun _ => true).Reachable s ∧ Filled n s d nodes := by
  induction n with
  | zero =>
    obtain ⟨s, hs, hv⟩ := reachable_of_execute (show ((boot fun _ => true).bind fun s =>
      Machine.perform (execute fun _ => true) s [.open 0 0 0#64]).map (fun s =>
        ((s.kernel.files 0).map File.f_inode, s.kernel.devices.map fun d => d.numOfChannels 0)) =
      some (some 0, some 0#64) by decide +kernel)
    obtain ⟨hfile, hcounter⟩ := Prod.mk.inj hv
    obtain ⟨f, hf, hm⟩ := Option.map_eq_some_iff.mp hfile
    obtain ⟨d, nodes, h⟩ := Orderly.of_reachable hs
    rw [h.table, Option.map_some, Option.some.injEq] at hcounter
    have hnil : nodes 0 = [] := by
      rw [← h.counter_le_iff, hcounter]
      exact Nat.zero_le _
    refine ⟨s, d, nodes, hs, h, ⟨f, hf, hm⟩, by rw [hnil]; rfl, fun id hhas => ?_⟩
    exact absurd hnil hhas.ne_nil
  | succ n ih =>
    obtain ⟨s, d, nodes, hs, h⟩ := ih (Nat.le_of_succ_le hn)
    obtain ⟨t, d', nodes', hst, h'⟩ := h.next hn
    exact ⟨t, d', nodes', hs.step hst, h'⟩

/-- A slot with 262143 channels refuses its next one, far below `CHANNELS_LIMIT`. -/
theorem refused_at_a_quarter : ∃ s k' ret f l, (messageSlots fun _ => true).Reachable s ∧
    s.kernel.files 0 = some f ∧ s.kernel.SlotList f.f_inode l ∧ l.length = 262143 ∧
    (∀ p ∈ l, ∀ c, s.kernel.At p c → c.channel_id ≠ narrow 262144#64) ∧
    call (fun _ => true) s.kernel (.ioctl 0 MSG_SLOT_CHANNEL 262144#64) = .ok (k', ret) ∧
    ret.value ≠ 0 ∧ l.length < CHANNELS_LIMIT := by
  obtain ⟨s, d, nodes, hs, h⟩ := filled (le_refl LIST_LIMIT)
  obtain ⟨f, hf, hm⟩ := h.opened
  have hlen : (nodes f.f_inode).length = LIST_LIMIT := by rw [hm, h.length]
  have hnot : ¬ Has s.kernel nodes f.f_inode (narrow 262144#64) := by
    rw [hm]
    intro hhas
    exact absurd (h.small _ hhas) (by decide)
  obtain ⟨k', ret, hcall, hret⟩ :=
    (h.refused_iff (fun _ => true) hf (by decide) hnot).mpr hlen
  refine ⟨s, k', ret, f, nodes f.f_inode, hs, hf, h.slotList_iff.mpr rfl, hlen,
    h.ids_of_not_has hnot, hcall, hret, ?_⟩
  rw [hlen]
  decide

theorem refuses_only_full_iff_sample : ∃ s f l, (messageSlots fun _ => true).Reachable s ∧
    s.kernel.files 0 = some f ∧ s.kernel.SlotList f.f_inode l ∧ l.length = 1 ∧
    ∀ k' ret, call (fun _ => true) s.kernel (.ioctl 0 MSG_SLOT_CHANNEL 2#64) = .ok (k', ret) →
      ret.value ≠ 0 → CHANNELS_LIMIT ≤ l.length := by
  obtain ⟨s, d, nodes, hs, h⟩ := filled (n := 1) (by decide)
  obtain ⟨f, hf, hm⟩ := h.opened
  have hl : s.kernel.SlotList f.f_inode (nodes f.f_inode) := h.slotList_iff.mpr rfl
  have hnot : ¬ Has s.kernel nodes f.f_inode (narrow 2#64) := by
    rw [hm]
    exact fun hhas => absurd (h.small _ hhas) (by decide)
  have hlen : (nodes f.f_inode).length = 1 := by rw [hm, h.length]
  refine ⟨s, f, nodes f.f_inode, hs, hf, hl, hlen, ?_⟩
  exact (refuses_only_full_iff hs hf (by decide) hl (h.ids_of_not_has hnot)).1.mpr
    (by rw [hlen]; decide)

end OsCourse.MessageSlot
