import OsCourse.MessageSlot.Journal
import OsCourse.MessageSlot.Turns

/-! # The store stays in order

The representation invariant of the module: the number of drivers, the shape of the lists
of channels and their contents. What bounds a list is a counter that a list of `n`
channels has stepped to `4 * (n + 1)`.
-/

namespace OsCourse.MessageSlot
open Foundations Store

/-- The channels of slot `m` are `l`, in the order of its list. -/
def Kernel.SlotList (k : Kernel) (m : Minor) (l : List Ptr) : Prop :=
  ∃ d, k.devices = some d ∧ (d.minors m = 0 → l = []) ∧
    (d.minors m ≠ 0 → ∃ root, k.slots (d.minors m) = some root ∧ k.ListAt root l)

/-- Slot `m` has a channel `id` whose message is `bytes` (empty if there is none). -/
def Kernel.Holds (k : Kernel) (m : Minor) (id : BitVec 32) (bytes : List Byte) : Prop :=
  ∃ l, k.SlotList m l ∧ ∃ p ∈ l, ∃ c b, k.At p c ∧ c.channel_id = id ∧
    k.messages c.message = some b ∧ bytes = (List.ofFn b).take c.size.toNat

/-- Where `numOfChannels` has been stepped to when the channels of the slot are `l`. -/
def steppedTo (l : List Ptr) : ℕ := if l = [] then 0 else 4 * (l.length + 1)

/-- No list of channels gets longer than this. -/
def LIST_LIMIT : ℕ := CHANNELS_LIMIT / 4 - 1

/-- A store with its counters. -/
structure Orderly (k : Kernel) (d : MessageSlotsDevices) (nodes : Minor → List Ptr) : Prop
    extends Store k d nodes where
  drivers : k.numOfDrivers = (Finset.univ.filter fun m => d.minors m ≠ 0).card
  counter : ∀ m, (d.numOfChannels m).toNat = steppedTo (nodes m)
  bound : ∀ m, (nodes m).length ≤ LIST_LIMIT

variable {grants : ℕ → Bool} {k k' : Kernel} {d d' : MessageSlotsDevices}
  {nodes nodes' : Minor → List Ptr} {m : Minor} {op : Op} {ret : Ret}

namespace Store
variable {l : List Ptr} {id : BitVec 32} {bytes : List Byte}

theorem slotList_iff (h : Store k d nodes) : k.SlotList m l ↔ l = nodes m := by
  constructor
  · rintro ⟨d', hd, hnil, hlist⟩
    obtain rfl := Option.some.inj (h.table.symm.trans hd)
    by_cases hm : d.minors m = 0
    · rw [hnil hm, h.no_slot m hm]
    · obtain ⟨root, hroot, hl⟩ := hlist hm
      obtain ⟨root', hroot', hl'⟩ := h.slot m hm
      obtain rfl := Option.some.inj (hroot.symm.trans hroot')
      exact hl.unique hl'
  · rintro rfl
    exact ⟨d, h.table, h.no_slot m, h.slot m⟩

theorem holds_iff (h : Store k d nodes) : k.Holds m id bytes ↔ Shows k nodes m id bytes := by
  constructor
  · rintro ⟨l, hl, p, hp, c, b, hc, rfl, hb, rfl⟩
    obtain rfl := h.slotList_iff.mp hl
    exact ⟨p, hp, c.size, c.message, b, hc.data, hb, rfl⟩
  · rintro ⟨p, hp, n, q, b, hdata, hb, rfl⟩
    obtain ⟨c, hc, rfl, rfl, rfl⟩ := at_of_data hdata
    exact ⟨nodes m, h.slotList_iff.mpr rfl, p, hp, c, b, hc, rfl, hb, rfl⟩

theorem has_iff (h : Store k d nodes) : Has k nodes m id ↔ ∃ bytes, k.Holds m id bytes := by
  simp only [h.holds_iff, Has]

end Store

/-! ## The counters -/

theorem steppedTo_snoc {l : List Ptr} (hl : l ≠ []) (a : Ptr) :
    steppedTo (l ++ [a]) = steppedTo l + 4 := by
  rw [steppedTo, steppedTo, if_neg hl, if_neg (by simp), List.length_append, List.length_singleton]
  omega

/-- The guard of `addFurtherChannel`, read on the list. -/
theorem steppedTo_lt_iff {l : List Ptr} (hl : l ≠ []) :
    steppedTo l < CHANNELS_LIMIT ↔ l.length < LIST_LIMIT := by
  rw [steppedTo, if_neg hl, LIST_LIMIT, CHANNELS_LIMIT]
  omega

theorem bumped_toNat {m' : Minor} {n : BitVec 64}
    (hlt : (d.numOfChannels m).toNat + n.toNat < 2 ^ 64) :
    ((d.bumped m n).numOfChannels m').toNat =
      (d.numOfChannels m').toNat + if m' = m then n.toNat else 0 := by
  by_cases hm : m' = m
  · subst hm
    simp only [MessageSlotsDevices.bumped, Function.update_self, BitVec.toNat_add, if_true]
    exact Nat.mod_eq_of_lt hlt
  · simp [MessageSlotsDevices.bumped, hm]

theorem counter_appended {a : Ptr} {n : BitVec 64}
    (hc : ∀ m, (d.numOfChannels m).toNat = steppedTo (nodes m))
    (hn : steppedTo (nodes m ++ [a]) = steppedTo (nodes m) + n.toNat)
    (hlt : steppedTo (nodes m) + n.toNat < 2 ^ 64) (m' : Minor) :
    ((d.bumped m n).numOfChannels m').toNat = steppedTo (appended nodes m a m') := by
  rw [bumped_toNat (by rwa [hc m]), hc m']
  by_cases hm : m' = m
  · subst hm
    rw [if_pos rfl, appended, Function.update_self, hn]
  · rw [if_neg hm, appended, Function.update_of_ne hm, Nat.add_zero]

theorem bound_appended {a : Ptr} (hb : ∀ m, (nodes m).length ≤ LIST_LIMIT)
    (hm : (nodes m).length < LIST_LIMIT) (m' : Minor) :
    (appended nodes m a m').length ≤ LIST_LIMIT := by
  by_cases hmm : m' = m
  · subst hmm
    rw [appended, Function.update_self, List.length_append]
    exact hm
  · rw [appended, Function.update_of_ne hmm]
    exact hb m'

theorem drivers_create {minors : Minor → Ptr} (hm : minors m = 0) {a : Ptr} (ha : a ≠ 0) :
    (Finset.univ.filter fun m' => Function.update minors m a m' ≠ 0).card =
      (Finset.univ.filter fun m' => minors m' ≠ 0).card + 1 := by
  have hinsert : (Finset.univ.filter fun m' => Function.update minors m a m' ≠ 0) =
      insert m (Finset.univ.filter fun m' => minors m' ≠ 0) := by
    ext m'
    by_cases hmm : m' = m
    · simp [hmm, ha]
    · simp [hmm]
  rw [hinsert, Finset.card_insert_of_notMem (by simp [hm])]

namespace Orderly

/-- A minor without a slot is one that has not been counted. -/
theorem room (h : Orderly k d nodes) (hm : d.minors m = 0) :
    k.numOfDrivers ≠ (MINORS_LIMIT : ℤ) := by
  have hlt := Finset.card_lt_univ_of_notMem
    (show m ∉ Finset.univ.filter fun m => d.minors m ≠ 0 by simp [hm])
  rw [Fintype.card_fin] at hlt
  rw [h.drivers]
  exact fun he => Nat.ne_of_lt hlt (Int.ofNat.inj he)

theorem init (hk : prepare grants = .ok k) :
    Orderly k ⟨fun _ => 0, fun _ => 0#64⟩ fun _ => [] := by
  obtain ⟨hs, hb⟩ := prepare_store hk
  exact { hs with
    drivers := by simp [hb.numOfDrivers]
    counter := fun _ => rfl
    bound := fun _ => Nat.zero_le _ }

/-- Every turn keeps the store in order. -/
theorem turn (h : Orderly k d nodes) (ht : Turn k d nodes op k' d' nodes' ret) :
    Orderly k' d' nodes' := by
  have hkeep := ht.keeps h.toStore
  cases ht with
  | reject => exact h
  | read => exact h
  | refuse => exact { hkeep with drivers := h.drivers, counter := h.counter, bound := h.bound }
  | reopen => exact { hkeep with drivers := h.drivers, counter := h.counter, bound := h.bound }
  | create _ hm =>
    refine { hkeep with drivers := ?_, counter := h.counter, bound := h.bound }
    rw [drivers_create hm (Nat.succ_ne_zero _)]
    exact congrArg (· + 1) h.drivers
  | select => exact { hkeep with drivers := h.drivers, counter := h.counter, bound := h.bound }
  | full => exact { hkeep with drivers := h.drivers, counter := h.counter, bound := h.bound }
  | linkRoot _ _ _ hnil =>
    refine { hkeep with
      drivers := h.drivers
      counter := counter_appended h.counter ?_ ?_
      bound := bound_appended h.bound ?_ }
    · rw [hnil]
      rfl
    · rw [hnil]
      decide
    · rw [hnil]
      decide
  | @linkLast file f b param l last c _ _ _ _ hlim hnodes =>
    have hne : nodes f.f_inode ≠ [] := by
      rw [hnodes]
      simp
    rw [h.counter] at hlim
    refine { hkeep with
      drivers := h.drivers
      counter := counter_appended h.counter (steppedTo_snoc hne _) ?_
      bound := bound_appended h.bound ((steppedTo_lt_iff hne).mp hlim) }
    rw [CHANNELS_LIMIT] at hlim
    exact Nat.lt_trans (Nat.add_lt_add_right hlim _) (by decide)
  | spill => exact { hkeep with drivers := h.drivers, counter := h.counter, bound := h.bound }
  | store => exact { hkeep with drivers := h.drivers, counter := h.counter, bound := h.bound }
  | release => exact { hkeep with drivers := h.drivers, counter := h.counter, bound := h.bound }

/-- A call that returns takes a turn. -/
theorem call_ok (h : Orderly k d nodes) (hcall : call grants k op = .ok (k', ret)) :
    ∃ d' nodes', Turn k d nodes op k' d' nodes' ret := by
  rcases h.call_turn grants (fun m hm => h.room hm) op with
    ⟨k₁, d', nodes', ret₁, heq, ht⟩ | ⟨heq, _⟩
  · obtain ⟨rfl, rfl⟩ := Prod.mk.inj (Except.ok.inj (heq.symm.trans hcall))
    exact ⟨d', nodes', ht⟩
  · rw [heq] at hcall
    cases hcall

theorem of_reachable {s : System} (hs : (messageSlots grants).Reachable s) :
    ∃ d nodes, Orderly s.kernel d nodes := by
  refine Machine.Reachable.invariant (I := fun s => ∃ d nodes, Orderly s.kernel d nodes) ?_ ?_ hs
  · rintro s ⟨hk, _⟩
    exact ⟨_, _, init hk⟩
  · rintro s op t ⟨d, nodes, h⟩ ⟨ret, hcall, _⟩
    obtain ⟨d', nodes', ht⟩ := h.call_ok hcall
    exact ⟨d', nodes', h.turn ht⟩

end Orderly
/-! ## The representation invariant -/

/-- What holds of the module's data in every state; `lists` are the channels of each slot. -/
structure Kernel.Represents (k : Kernel) (d : MessageSlotsDevices) (lists : Minor → List Ptr) :
    Prop where
  table : k.devices = some d
  drivers : k.numOfDrivers = (Finset.univ.filter fun m => d.minors m ≠ 0).card
  list : ∀ m, k.SlotList m (lists m)
  nodup : ∀ m, (lists m).Nodup
  ids : ∀ m, ∀ p ∈ lists m, ∀ q ∈ lists m, ∀ c c', k.At p c → k.At q c' →
    c.channel_id = c'.channel_id → p = q
  limit : ∀ m, (lists m).length ≤ CHANNELS_LIMIT
  node : ∀ m, ∀ p ∈ lists m, ∃ c b, k.At p c ∧ 0 ≤ c.size ∧ c.size ≤ BUFFER_LENGTH ∧
    c.message ≠ 0 ∧ k.messages c.message = some b

/-- No channel of `k` has been lost, moved or renumbered. -/
structure Prolongs (k : Kernel) (lists : Minor → List Ptr) (k' : Kernel)
    (lists' : Minor → List Ptr) : Prop where
  list : ∀ m, lists m <+: lists' m
  ids : ∀ m, ∀ p ∈ lists m, ∀ c, k.At p c → ∃ c', k'.At p c' ∧ c'.channel_id = c.channel_id

theorem Prolongs.refl (k : Kernel) (lists : Minor → List Ptr) : Prolongs k lists k lists :=
  ⟨fun _ => List.prefix_refl _, fun _ _ _ c hc => ⟨c, hc, rfl⟩⟩

theorem Prolongs.trans {k'' : Kernel} {nodes'' : Minor → List Ptr} (h : Prolongs k nodes k' nodes')
    (h' : Prolongs k' nodes' k'' nodes'') : Prolongs k nodes k'' nodes'' := by
  refine ⟨fun m => (h.list m).trans (h'.list m), fun m p hp c hc => ?_⟩
  obtain ⟨c', hc', hid⟩ := h.ids m p hp c hc
  obtain ⟨c'', hc'', hid'⟩ := h'.ids m p ((h.list m).subset hp) c' hc'
  exact ⟨c'', hc'', hid'.trans hid⟩

theorem Orderly.represents (h : Orderly k d nodes) : k.Represents d nodes where
  table := h.table
  drivers := h.drivers
  list _ := h.slotList_iff.mpr rfl
  nodup m := by
    by_cases hm : d.minors m = 0
    · rw [h.no_slot m hm]
      exact List.nodup_nil
    · obtain ⟨root, _, hl⟩ := h.slot m hm
      exact hl.nodup
  ids := h.ids
  limit m := (h.bound m).trans (by decide)
  node _ p hp := by
    obtain ⟨c, hc⟩ := h.at_of_mem hp
    obtain ⟨h0, hsize, b, hb⟩ := h.node _ p hp c hc
    exact ⟨c, b, hc, h0, hsize, (ne_of_none (h.messages_none 0 (Or.inl rfl)) hb), hb⟩

/-- Writing a node that keeps its number, or a new one. -/
theorem id_of_update (k : Kernel) (a : Ptr) (c' : MessageChannel) {p : Ptr} {c : MessageChannel}
    (ha : ∀ c₀, k.At a c₀ → c'.channel_id = c₀.channel_id) (hc : k.At p c) :
    ∃ c₂, Function.update k.channels a (some c') p = some c₂ ∧ c₂.channel_id = c.channel_id := by
  by_cases hp : p = a
  · subst hp
    exact ⟨c', Function.update_self .., ha c hc⟩
  · exact ⟨c, (Function.update_of_ne hp ..).trans hc, rfl⟩

theorem list_appended (m m' : Minor) (a : Ptr) :
    appended nodes m a m' = nodes m' ∨ appended nodes m a m' = nodes m' ++ [a] := by
  by_cases hm : m' = m
  · subst hm
    exact Or.inr (Function.update_self ..)
  · exact Or.inl (Function.update_of_ne hm ..)

theorem Turn.list (ht : Turn k d nodes op k' d' nodes' ret) (m : Minor) :
    nodes' m = nodes m ∨ ∃ a, nodes' m = nodes m ++ [a] := by
  cases ht with
  | linkRoot => exact (list_appended _ m _).imp id fun h => ⟨_, h⟩
  | linkLast => exact (list_appended _ m _).imp id fun h => ⟨_, h⟩
  | _ => exact Or.inl rfl

theorem Turn.ids (ht : Turn k d nodes op k' d' nodes' ret) (h : Store k d nodes) {p : Ptr}
    {c : MessageChannel} (hc : k.At p c) : ∃ c', k'.At p c' ∧ c'.channel_id = c.channel_id := by
  have hnew : ∀ {id : BitVec 32}, ∀ c₀, k.At k.fresh c₀ → id = c₀.channel_id := by
    intro id c₀ hc₀
    exact absurd rfl (ne_of_none (h.channels_none _ (fresh_unused k 0)) hc₀)
  have hsame : ∀ {k : Kernel} {q c₁ c₀}, k.At q c₁ → k.At q c₀ → c₁.channel_id = c₀.channel_id :=
    fun h₁ h₀ => congrArg _ (Option.some.inj (h₁.symm.trans h₀))
  cases ht with
  | linkRoot => exact id_of_update k _ _ hnew hc
  | @linkLast file f b param l last cl _ hb _ _ _ _ hcl =>
    obtain ⟨c₁, hc₁, hid₁⟩ := id_of_update k k.fresh ⟨k.fresh + 1, 0, narrow param, 0⟩ hnew hc
    obtain ⟨c₂, hc₂, hid₂⟩ := id_of_update (created (selected k f b param) (narrow param)) last
      { cl with next_node := k.fresh } (fun c₀ hc₀ =>
        show cl.channel_id = c₀.channel_id from
          hsame ((h.select hb param).at_created hcl (narrow param)) hc₀) hc₁
    exact ⟨c₂, hc₂, hid₂.trans hid₁⟩
  | @store file f b buffer length garbage q cq _ _ _ _ hcq =>
    refine id_of_update k _ _ (fun c₀ hc₀ => ?_) hc
    exact show cq.channel_id = c₀.channel_id from hsame hcq hc₀
  | _ => exact ⟨c, hc, rfl⟩

theorem Turn.prolongs (ht : Turn k d nodes op k' d' nodes' ret) (h : Store k d nodes) :
    Prolongs k nodes k' nodes' := by
  refine ⟨fun m => ?_, fun m p _ c hc => ht.ids h hc⟩
  rcases ht.list m with heq | ⟨a, heq⟩
  · rw [heq]
  · rw [heq]
    exact List.prefix_append ..

theorem Orderly.later (h : Orderly k d nodes) {j : Journal} {t : System}
    (ht : (messageSlots grants).Later ⟨k, j⟩ t) :
    ∃ d' nodes', Orderly t.kernel d' nodes' ∧ Prolongs k nodes t.kernel nodes' := by
  refine ht.invariant (I := fun t => ∃ d' nodes', Orderly t.kernel d' nodes' ∧
    Prolongs k nodes t.kernel nodes') ?_ ⟨d, nodes, h, .refl k nodes⟩
  rintro s op t ⟨d₁, nodes₁, h₁, hp⟩ ⟨ret, hcall, _⟩
  obtain ⟨d', nodes', hturn⟩ := h₁.call_ok hcall
  exact ⟨d', nodes', h₁.turn hturn, hp.trans (hturn.prolongs h₁.toStore)⟩

/-- No call loops for ever. -/
theorem Orderly.call_ne_hang (h : Orderly k d nodes) (op : Op) : call grants k op ≠ .error .hang := by
  rcases h.call_turn grants (fun m hm => h.room hm) op with
    ⟨_, _, _, _, heq, _⟩ | ⟨heq, _⟩
  · simp [heq]
  · simp [heq]

/-- In every reachable state the representation invariant holds, no call loops for ever and no
`device_open` returns `-ENOSPC`; a call keeps each list or appends one channel to it; and over a
whole run no channel is lost, moved or renumbered. -/
theorem store_represents {s : System} (hs : (messageSlots grants).Reachable s) :
    ∃ d lists, s.kernel.Represents d lists ∧
      (∀ file m garbage k' ret, call grants s.kernel (.open file m garbage) = .ok (k', ret) →
        ret.value ≠ -ENOSPC) ∧
      (∀ op, call grants s.kernel op ≠ .error .hang) ∧
      (∀ op t, (messageSlots grants).step s op t → ∃ d' lists', t.kernel.Represents d' lists' ∧
        ∀ m, lists' m = lists m ∨ ∃ a, lists' m = lists m ++ [a]) ∧
      ∀ t, (messageSlots grants).Later s t → ∃ d' lists', t.kernel.Represents d' lists' ∧
        Prolongs s.kernel lists t.kernel lists' := by
  obtain ⟨d, nodes, h⟩ := Orderly.of_reachable hs
  refine ⟨d, nodes, h.represents, ?_, h.call_ne_hang, ?_, ?_⟩
  · intro file m garbage k' ret hcall
    obtain ⟨d', nodes', ht⟩ := h.call_ok hcall
    cases ht with
    | reject _ hres => rcases hres with rfl | rfl | rfl <;> decide
    | refuse => decide
    | reopen => decide
    | create => decide
  · rintro op t ⟨ret, hcall, _⟩
    obtain ⟨d', nodes', ht⟩ := h.call_ok hcall
    exact ⟨d', nodes', (h.turn ht).represents, ht.list⟩
  · intro t ht
    obtain ⟨d', nodes', h', hp⟩ := h.later ht
    exact ⟨d', nodes', h'.represents, hp⟩

/-! ## Running calls -/

/-- Make one call. -/
def execute (grants : ℕ → Bool) (s : System) (op : Op) : Option System :=
  (call grants s.kernel op).toOption.map fun r => ⟨r.1, s.journal.record op r.2⟩

theorem execute_step {s t : System} (h : execute grants s op = some t) :
    (messageSlots grants).step s op t := by
  obtain ⟨⟨k, ret⟩, hcall, rfl⟩ := Option.map_eq_some_iff.mp h
  exact ⟨ret, eq_ok_of_toOption hcall, rfl⟩

/-- What can be seen of the state after some calls is seen of the end of a run. -/
theorem run_of_execute {B : Type*} {ops : List Op} {observe : System → B} {v : B}
    (h : ((boot grants).bind fun s => Machine.perform (execute grants) s ops).map observe =
      some v) : ∃ s, (messageSlots grants).Run ops s ∧ observe s = v := by
  obtain ⟨s, hs, hv⟩ := Option.map_eq_some_iff.mp h
  obtain ⟨s₀, h₀, hs⟩ := Option.bind_eq_some_iff.mp hs
  have hinit : (messageSlots grants).init s₀ := boot_init h₀
  exact ⟨s, (Machine.Run.start hinit).perform (fun _ _ _ h => execute_step h) hs, hv⟩

theorem reachable_of_execute {B : Type*} {ops : List Op} {observe : System → B} {v : B}
    (h : ((boot grants).bind fun s => Machine.perform (execute grants) s ops).map observe =
      some v) : ∃ s, (messageSlots grants).Reachable s ∧ observe s = v := by
  obtain ⟨s, hs, hv⟩ := run_of_execute h
  exact ⟨s, hs.reachable, hv⟩

theorem store_represents_sample : ∃ s, (messageSlots fun _ => true).Reachable s ∧
    s.journal.writes = [((5, 7#32), [65#8, 66#8])] ∧ ∃ d lists, s.kernel.Represents d lists := by
  obtain ⟨s, hs, hw⟩ := reachable_of_execute (show ((boot fun _ => true).bind fun s =>
    Machine.perform (execute fun _ => true) s sampleOps).map (fun s => s.journal.writes) =
      some [((5, 7#32), [65#8, 66#8])] by decide +kernel)
  obtain ⟨d, lists, h, _⟩ := store_represents hs
  exact ⟨s, hs, hw, d, lists, h⟩

end OsCourse.MessageSlot
