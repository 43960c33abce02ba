import OsCourse.MessageSlot.Blocks

/-! # Unloading the module

`finalize` frees what the table leads to. Freeing a block that is not live is a fault, so
that it returns says that it frees nothing twice; what is live afterwards has leaked.
-/

namespace OsCourse.MessageSlot
open Foundations Store

/-- `kfree`. -/
def kfree {A : Type} (blocks : Ptr → Option A) (p : Ptr) : Except Fault (Ptr → Option A) :=
  if p = 0 then .ok blocks
  else do
    let _ ← deref (blocks p)
    .ok (Function.update blocks p none)

/-- The loop of `finalize` over the list of a slot; it may free `fuel` nodes. -/
def freeChannels (k : Kernel) : ℕ → Ptr → Except Fault Kernel
  | 0, _ => .error .hang
  | fuel + 1, node =>
    if node = 0 then .ok k
    else do
      let c ← deref (k.channels node)
      let k := { k with
        channels := Function.update k.channels node (some { c with size := 0, channel_id := 0#32 }) }
      let messages ← kfree k.messages c.message
      let channels ← kfree k.channels node
      freeChannels { k with messages, channels } fuel c.next_node

/-- One turn of the loop of `finalize`. -/
def freeMinor (k : Kernel) (m : Minor) : Except Fault Kernel := do
  let d ← deref k.devices
  if d.minors m = 0 then .ok k
  else
    let root ← deref (k.slots (d.minors m))
    let k ← freeChannels k k.fresh root
    let slots ← kfree k.slots (d.minors m)
    .ok { k with slots, numOfDrivers := k.numOfDrivers - 1 }

/-- `finalize`. -/
def finalize (k : Kernel) : Except Fault Kernel := do
  let k ← (List.finRange MINORS_LIMIT).foldlM freeMinor k
  let _ ← deref k.devices
  .ok { k with devices := none }

variable {grants : ℕ → Bool} {k k' : Kernel} {d : MessageSlotsDevices}
  {nodes : Minor → List Ptr} {m : Minor} {gone : Block → Prop}

/-! ## What has been freed so far -/

/-- `k'` is `k` without the blocks `gone`; the table and the private data are still there. -/
structure Swept (k : Kernel) (gone : Block → Prop) (k' : Kernel) : Prop where
  devices : k'.devices = k.devices
  privates : k'.privates = k.privates
  fresh : k'.fresh = k.fresh
  slots : ∀ p, (gone (.slot p) → k'.slots p = none) ∧ (¬ gone (.slot p) → k'.slots p = k.slots p)
  channels : ∀ p, (gone (.channel p) → k'.channels p = none) ∧
    (¬ gone (.channel p) → k'.channels p = k.channels p)
  messages : ∀ q, (gone (.message q) → k'.messages q = none) ∧
    (¬ gone (.message q) → k'.messages q = k.messages q)

theorem kfree_live {A : Type} {blocks : Ptr → Option A} {p : Ptr} {v : A} (hp : p ≠ 0)
    (hv : blocks p = some v) : kfree blocks p = .ok (Function.update blocks p none) := by
  rw [kfree, if_neg hp, hv, deref_some, ok_bind]

theorem swept_update {A : Type} {blocks blocks' : Ptr → Option A} {g g' : Ptr → Prop} {a : Ptr}
    (h : ∀ p, (g p → blocks' p = none) ∧ (¬ g p → blocks' p = blocks p))
    (hg : ∀ p, g' p ↔ g p ∨ p = a) (p : Ptr) :
    (g' p → Function.update blocks' a none p = none) ∧
      (¬ g' p → Function.update blocks' a none p = blocks p) := by
  rw [hg p]
  by_cases hp : p = a
  · subst hp
    simp
  · rw [Function.update_of_ne hp, or_iff_left hp]
    exact h p

theorem Swept.congr {gone' : Block → Prop} (h : Swept k gone k') (hg : ∀ b, gone' b ↔ gone b) :
    Swept k gone' k' := by
  obtain rfl : gone' = gone := funext fun b => propext (hg b)
  exact h

/-- The nodes of a list and their messages. -/
def ofList (k : Kernel) (l : List Ptr) : Block → Prop
  | .channel p => p ∈ l
  | .message q => ∃ p ∈ l, ∃ c, k.At p c ∧ c.message = q
  | _ => False

theorem ofList_cons {p : Ptr} {l : List Ptr} {c : MessageChannel} (hc : k.At p c) {b : Block} :
    ofList k (p :: l) b ↔ b = .channel p ∨ b = .message c.message ∨ ofList k l b := by
  cases b with
  | channel q => simp [ofList]
  | message q =>
    simp only [ofList, List.mem_cons, exists_eq_or_imp, reduceCtorEq, false_or, Block.message.injEq]
    refine or_congr_left ⟨?_, ?_⟩
    · rintro ⟨c', hc', rfl⟩
      exact congrArg _ (Option.some.inj (hc'.symm.trans hc))
    · rintro rfl
      exact ⟨c, hc, rfl⟩
  | _ => simp [ofList]

/-- The loop over a list frees its nodes and their messages, each once. -/
theorem freeChannels_swept (h : Store k d nodes) (hl : MessagesApart k nodes) {l : List Ptr}
    (hsub : l ⊆ nodes m) {node : Ptr} {fuel : ℕ} (hlen : l.length < fuel)
    (hlist : k.ListAt node l) (hs : Swept k gone k') (hfree : ∀ b, ofList k l b → ¬ gone b) :
    ∃ k'', freeChannels k' fuel node = .ok k'' ∧ Swept k (fun b => gone b ∨ ofList k l b) k'' := by
  induction l generalizing node fuel k' gone with
  | nil =>
    cases hlist
    cases fuel with
    | zero => cases hlen
    | succ fuel =>
      refine ⟨k', rfl, hs.congr fun b => or_iff_left ?_⟩
      cases b <;> simp [ofList]
  | cons p l ih =>
    have hnodup := hlist.nodup
    obtain ⟨rfl, hp, c, hc, hlist⟩ := hlist
    cases fuel with
    | zero => cases hlen
    | succ fuel =>
      have hmem : node ∈ nodes m := hsub List.mem_cons_self
      obtain ⟨_, _, b, hb⟩ := h.node m node hmem c hc
      have hc' : k'.channels node = some c := by
        rw [(hs.channels node).2 (hfree (.channel node) List.mem_cons_self), hc]
      have hb' : k'.messages c.message = some b := by
        rw [(hs.messages c.message).2 (hfree (.message c.message) ⟨node, List.mem_cons_self, c, hc, rfl⟩),
          hb]
      have hm0 : c.message ≠ 0 := ne_of_none (h.messages_none 0 (Or.inl rfl)) hb
      have hself : Function.update k'.channels node
          (some { c with size := 0, channel_id := 0#32 }) node = some _ := Function.update_self ..
      have hfreed := kfree_live hp hself
      rw [Function.update_idem] at hfreed
      rw [freeChannels, if_neg hp, hc', deref_some, ok_bind]
      dsimp only
      rw [kfree_live hm0 hb', ok_bind, hfreed, ok_bind]
      have hhead : Swept k (fun b => gone b ∨ b = .channel node ∨ b = .message c.message)
          { k' with
            channels := Function.update k'.channels node none
            messages := Function.update k'.messages c.message none } :=
        { hs with
          slots := by simpa using hs.slots
          channels := swept_update hs.channels (by simp)
          messages := swept_update hs.messages (by simp) }
      have htail : ∀ b, ofList k l b →
          ¬ (gone b ∨ b = .channel node ∨ b = .message c.message) := by
        rintro b hlb (hgone | rfl | rfl)
        · exact hfree b ((ofList_cons hc).mpr (Or.inr (Or.inr hlb))) hgone
        · exact (List.nodup_cons.mp hnodup).1 hlb
        · obtain ⟨p, hpl, cp, hcp, hq⟩ := hlb
          have heq : p = node := hl m m p node cp.size c.size c.message _ _
            (hsub (List.mem_cons_of_mem _ hpl)) hmem (by rw [hcp.data, hq]) (Kernel.At.data hc)
          exact (List.nodup_cons.mp hnodup).1 (heq ▸ hpl)
      obtain ⟨k'', hloop, hswept⟩ := ih (fun p hp => hsub (List.mem_cons_of_mem _ hp))
        (Nat.lt_of_succ_lt_succ hlen) hlist hhead htail
      refine ⟨k'', hloop, hswept.congr fun b => ?_⟩
      rw [ofList_cons hc]
      tauto

/-- What the entry of minor `m` leads to. -/
def ofMinor (k : Kernel) (d : MessageSlotsDevices) (nodes : Minor → List Ptr) (m : Minor)
    (b : Block) : Prop :=
  ofList k (nodes m) b ∨ d.minors m ≠ 0 ∧ b = .slot (d.minors m)

theorem freeMinor_swept (h : Store k d nodes) (hl : MessagesApart k nodes) (hs : Swept k gone k')
    (hfree : ∀ b, ofMinor k d nodes m b → ¬ gone b) :
    ∃ k'', freeMinor k' m = .ok k'' ∧ Swept k (fun b => gone b ∨ ofMinor k d nodes m b) k'' := by
  have hdev : deref k'.devices = .ok d := deref_eq_ok.mpr (hs.devices.trans h.table)
  rw [freeMinor, hdev, ok_bind]
  by_cases hm : d.minors m = 0
  · rw [if_pos hm]
    refine ⟨k', rfl, hs.congr fun b => or_iff_left ?_⟩
    rw [ofMinor, h.no_slot m hm]
    rintro (hnil | ⟨hm', _⟩)
    · cases b <;> simp [ofList] at hnil
    · exact hm' hm
  · obtain ⟨root, hroot, hlist⟩ := h.slot m hm
    have hslot : k'.slots (d.minors m) = some root := by
      rw [(hs.slots _).2 (hfree _ (Or.inr ⟨hm, rfl⟩)), hroot]
    have hderef : deref (k'.slots (d.minors m)) = .ok root := deref_eq_ok.mpr hslot
    have hlen : (nodes m).length < k'.fresh := by
      rw [hs.fresh]
      exact h.length_lt hlist
    obtain ⟨k'', hloop, hs'⟩ := freeChannels_swept h hl (List.Subset.refl _) hlen hlist hs
      fun b hb => hfree b (Or.inl hb)
    have hslot' : k''.slots (d.minors m) = some root := by
      rw [(hs'.slots _).2 fun hgone => ?_, hroot]
      rcases hgone with hgone | hof
      · exact hfree _ (Or.inr ⟨hm, rfl⟩) hgone
      · exact hof
    rw [if_neg hm, hderef, ok_bind, hloop, ok_bind, kfree_live hm hslot', ok_bind]
    refine ⟨_, rfl, ?_⟩
    refine { hs' with
      slots := swept_update hs'.slots fun p => ?_
      channels := fun p => ?_
      messages := fun q => ?_ }
    · simp [ofMinor, hm, ofList]
    · simpa [ofMinor] using hs'.channels p
    · simpa [ofMinor] using hs'.messages q

/-- Two minors share no block. -/
theorem ofMinor_unique (h : Store k d nodes) (hl : MessagesApart k nodes) {m m' : Minor} {b : Block}
    (hb : ofMinor k d nodes m b) (hb' : ofMinor k d nodes m' b) : m = m' := by
  cases b with
  | slot p =>
    simp only [ofMinor, ofList, false_or, Block.slot.injEq] at hb hb'
    exact h.slot_inj m m' (hb.2.symm.trans hb'.2) hb.1
  | channel p =>
    simp only [ofMinor, ofList, reduceCtorEq, and_false, or_false] at hb hb'
    exact h.disjoint m m' p hb hb'
  | message q =>
    simp only [ofMinor, ofList, reduceCtorEq, and_false, or_false] at hb hb'
    obtain ⟨p, hp, c, hc, hq⟩ := hb
    obtain ⟨p', hp', c', hc', hq'⟩ := hb'
    obtain rfl : p = p' := hl m m' p p' c.size c'.size q _ _ hp hp' (by rw [hc.data, hq])
      (by rw [hc'.data, hq'])
    exact h.disjoint m m' p hp hp'
  | _ => simp [ofMinor, ofList] at hb

theorem freeMinors_swept (h : Store k d nodes) (hl : MessagesApart k nodes) {ms : List Minor}
    (hms : ms.Nodup) (hs : Swept k gone k')
    (hfree : ∀ m ∈ ms, ∀ b, ofMinor k d nodes m b → ¬ gone b) :
    ∃ k'', ms.foldlM freeMinor k' = .ok k'' ∧
      Swept k (fun b => gone b ∨ ∃ m ∈ ms, ofMinor k d nodes m b) k'' := by
  induction ms generalizing k' gone with
  | nil => exact ⟨k', rfl, hs.congr fun b => by simp⟩
  | cons m ms ih =>
    obtain ⟨hm, hms⟩ := List.nodup_cons.mp hms
    obtain ⟨k₁, hfirst, hs₁⟩ := freeMinor_swept h hl hs (hfree m List.mem_cons_self)
    have hrest : ∀ m' ∈ ms, ∀ b, ofMinor k d nodes m' b → ¬ (gone b ∨ ofMinor k d nodes m b) := by
      rintro m' hm' b hb (hgone | hb')
      · exact hfree m' (List.mem_cons_of_mem _ hm') b hb hgone
      · exact hm (ofMinor_unique h hl hb' hb ▸ hm')
    obtain ⟨k'', hloop, hs''⟩ := ih hms hs₁ hrest
    refine ⟨k'', ?_, hs''.congr fun b => ?_⟩
    · rw [List.foldlM_cons, hfirst, ok_bind, hloop]
    · rw [List.exists_mem_cons_iff, or_assoc]

theorem ofMinor_iff_owned (h : Store k d nodes) {b : Block} (hb : ∀ p, b ≠ .privateData p)
    (ht : b ≠ .table) : (∃ m ∈ List.finRange MINORS_LIMIT, ofMinor k d nodes m b) ↔ k.Owned b := by
  have hlist : ∀ {m l}, k.SlotList m l ↔ l = nodes m := h.slotList_iff
  cases b with
  | table => exact absurd rfl ht
  | slot p => simp [ofMinor, ofList, Kernel.Owned, h.table, eq_comm]
  | channel p => simp [ofMinor, ofList, Kernel.Owned, hlist]
  | message q => simp [ofMinor, ofList, Kernel.Owned, hlist]
  | privateData p => exact absurd rfl (hb p)

theorem isSome_of_swept {A : Type} {v v' : Option A} {g : Prop}
    (h : (g → v' = none) ∧ (¬ g → v' = v)) : v'.isSome ↔ v.isSome ∧ ¬ g := by
  by_cases hg : g
  · rw [h.1 hg]
    simp [hg]
  · rw [h.2 hg]
    simp [hg]

/-- `finalize` frees exactly the blocks that the table leads to, and each of them once. -/
theorem finalize_live_iff (h : Store k d nodes) (hl : MessagesApart k nodes) :
    ∃ k', finalize k = .ok k' ∧
      ∀ b, k'.Live b ↔ k.Live b ∧ (k.Owned b → ∃ p, b = .privateData p) := by
  have hs : Swept k (fun _ => False) k :=
    ⟨rfl, rfl, rfl, fun _ => ⟨False.elim, fun _ => rfl⟩, fun _ => ⟨False.elim, fun _ => rfl⟩,
      fun _ => ⟨False.elim, fun _ => rfl⟩⟩
  obtain ⟨k', hloop, hs'⟩ := freeMinors_swept h hl (List.nodup_finRange MINORS_LIMIT) hs
    fun _ _ _ _ => not_false
  simp only [false_or] at hs'
  have hdev : deref k'.devices = .ok d := deref_eq_ok.mpr (hs'.devices.trans h.table)
  rw [finalize, hloop, ok_bind, hdev, ok_bind]
  refine ⟨_, rfl, fun b => ?_⟩
  cases b with
  | table => simp [Kernel.Live, Kernel.Owned]
  | slot p =>
    rw [← ofMinor_iff_owned h (by simp) (by simp)]
    simpa [Kernel.Live] using isSome_of_swept (hs'.slots p)
  | channel p =>
    rw [← ofMinor_iff_owned h (by simp) (by simp)]
    simpa [Kernel.Live] using isSome_of_swept (hs'.channels p)
  | message q =>
    rw [← ofMinor_iff_owned h (by simp) (by simp)]
    simpa [Kernel.Live] using isSome_of_swept (hs'.messages q)
  | privateData p =>
    rw [Kernel.Live, Kernel.Live, hs'.privates]
    simp

/-! ## Runs -/

variable (grants) in
theorem prepareMinor_slots (h : Booting k) :
    (prepareMinor grants k).fresh = k.fresh + 1 ∧ ∀ p, (prepareMinor grants k).slots p =
      if p = k.fresh ∧ grants p = true then some 0 else k.slots p := by
  rw [prepareMinor]
  cases hg : grants k.fresh with
  | false =>
    rw [kmalloc_refused hg]
    refine ⟨rfl, fun p => (if_neg ?_).symm⟩
    rintro ⟨rfl, hp⟩
    rw [hg] at hp
    cases hp
  | true =>
    rw [kmalloc_granted hg]
    dsimp only
    rw [if_neg (Nat.ne_of_gt h.fresh_pos)]
    refine ⟨rfl, fun p => ?_⟩
    by_cases hp : p = k.fresh
    · simp [hp, hg]
    · simp [hp]

/-- The slots that `prepare` allocates and forgets. -/
theorem iterate_slots (n : ℕ) (h : Booting k) :
    ∀ p, (Nat.iterate (prepareMinor grants) n k).slots p =
      if k.fresh ≤ p ∧ p < k.fresh + n ∧ grants p = true then some 0 else k.slots p := by
  induction n generalizing k with
  | zero => exact fun p => (if_neg fun hp => absurd hp.2.1 (Nat.not_lt.mpr hp.1)).symm
  | succ n ih =>
    obtain ⟨hfresh, hslots⟩ := prepareMinor_slots grants h
    intro p
    have hrest := ih (h.minor grants) p
    rw [hfresh, hslots] at hrest
    rw [Function.iterate_succ_apply, hrest]
    by_cases hp : p = k.fresh
    · subst hp
      simp
    · have hle : k.fresh + 1 ≤ p ↔ k.fresh ≤ p := by
        rw [Nat.succ_le_iff, Nat.lt_iff_le_and_ne]
        exact and_iff_left (Ne.symm hp)
      have hadd : k.fresh + 1 + n = k.fresh + (n + 1) := by omega
      simp only [hp, hle, hadd, false_and, if_false]

/-- The slot allocations of `prepare` all fail. -/
def NothingForgotten (grants : ℕ → Bool) : Prop := ∀ j < MINORS_LIMIT, grants (2 + j) = false

theorem prepare_slotsOwned_iff (hk : prepare grants = .ok k) :
    SlotsOwned k ⟨fun _ => 0, fun _ => 0#64⟩ ↔ NothingForgotten grants := by
  rw [prepare_eq (granted_of_prepare hk)] at hk
  obtain rfl := Except.ok.inj hk
  have hboot : Booting { Kernel.boot with fresh := Kernel.boot.fresh + 1 } :=
    ⟨Nat.zero_lt_two, rfl, fun _ _ => rfl, rfl, rfl, rfl, rfl⟩
  have hslots : ∀ p, (preparing grants).slots p =
      if 2 ≤ p ∧ p < 2 + MINORS_LIMIT ∧ grants p = true then some 0 else none :=
    iterate_slots MINORS_LIMIT hboot
  simp only [SlotsOwned, hslots]
  constructor
  · intro howned j hj
    by_contra hg
    have hlive : 2 ≤ 2 + j ∧ 2 + j < 2 + MINORS_LIMIT ∧ grants (2 + j) = true :=
      ⟨Nat.le_add_right .., Nat.add_lt_add_left hj _, by simpa using hg⟩
    obtain ⟨m, hm⟩ := howned (2 + j) (by rw [if_pos hlive]; rfl)
    exact absurd hm.symm (Nat.ne_of_gt (Nat.add_pos_left two_pos j))
  · intro hnone p hp
    split at hp
    case isTrue hin =>
      obtain ⟨j, rfl⟩ := Nat.exists_eq_add_of_le hin.1
      rw [hnone j (Nat.lt_of_add_lt_add_left hin.2.1)] at hin
      exact absurd hin.2.2 Bool.false_ne_true
    case isFalse => cases hp

theorem prepare_ledger (hk : prepare grants = .ok k) : Ledger k fun _ => [] := by
  obtain ⟨_, hb⟩ := prepare_store hk
  refine ⟨fun _ _ _ _ _ _ _ _ _ hp => (List.not_mem_nil hp).elim, fun p hp => ?_, fun p hp => ?_⟩
  · rw [Kernel.data, hb.channels] at hp
    cases hp
  · rw [hb.privates] at hp
    cases hp

theorem prepare_messagesOwned (hk : prepare grants = .ok k) : MessagesOwned k fun _ => [] := by
  obtain ⟨_, hb⟩ := prepare_store hk
  intro q hq
  rw [hb.messages] at hq
  cases hq

/-- The runs in which no write gets past its checks. -/
def writelessSlots (grants : ℕ → Bool) : Machine System Op :=
  (messageSlots grants).guarded fun s op _ => TurnedDown s.kernel op

theorem messageSlots_unique {ops : List Op} {s t : System} (h : (messageSlots grants).Run ops s)
    (h' : (messageSlots grants).Run ops t) : s = t := by
  refine h.unique ?_ ?_ h'
  · rintro ⟨k, j⟩ ⟨k', j'⟩ ⟨hk, hj⟩ ⟨hk', hj'⟩
    obtain rfl := Except.ok.inj (hk.symm.trans hk')
    obtain rfl := hj.trans hj'.symm
    rfl
  · rintro s op ⟨k, j⟩ ⟨k', j'⟩ ⟨ret, hcall, hj⟩ ⟨ret', hcall', hj'⟩
    obtain ⟨rfl, rfl⟩ := Prod.mk.inj (Except.ok.inj (hcall.symm.trans hcall'))
    obtain rfl := hj.trans hj'.symm
    rfl

/-- What a run says about its ledger. -/
theorem ledger_of_run {ops : List Op} {s : System} (hs : (messageSlots grants).Run ops s) :
    ∃ d nodes, Orderly s.kernel d nodes ∧ Ledger s.kernel nodes ∧
      (SlotsOwned s.kernel d ↔ NothingForgotten grants) ∧
      (MessagesOwned s.kernel nodes ↔ (writelessSlots grants).Run ops s) := by
  induction hs with
  | @start s h₀ =>
    refine ⟨_, _, .init h₀.1, prepare_ledger h₀.1, prepare_slotsOwned_iff h₀.1, ?_⟩
    exact iff_of_true (prepare_messagesOwned h₀.1) (.start h₀)
  | @snoc ops s t op hrun hstep ih =>
    obtain ⟨d, nodes, h, hl, hslots, hmessages⟩ := ih
    obtain ⟨ret, hcall, hj⟩ := hstep
    obtain ⟨d', nodes', ht⟩ := h.call_ok hcall
    refine ⟨d', nodes', h.turn ht, ht.ledger h.toStore hl,
      (ht.slotsOwned_iff h.toStore).trans hslots, ?_⟩
    rw [ht.messagesOwned_iff h.toStore hl, hmessages]
    constructor
    · rintro ⟨hrun', hdown⟩
      exact hrun'.snoc ⟨⟨ret, hcall, hj⟩, hdown⟩
    · intro hrun'
      obtain ⟨s', hs', hst⟩ := hrun'.snoc_inv
      obtain rfl := messageSlots_unique hs'.of_guarded hrun
      exact ⟨hs', hst.2⟩

theorem privates_none_of_released (h : PrivatesOwned k) (hfiles : ∀ i, k.files i = none) (p : Ptr) :
    ¬ k.Live (.privateData p) := by
  intro hp
  obtain ⟨i, f, hf, _⟩ := h p hp
  rw [hfiles] at hf
  cases hf

/-- After a run every live block is accounted for exactly if `prepare` got none of its slots and no
write got past its checks. Once all files have been released, `finalize` frees nothing twice, and
exactly then it leaves nothing behind. -/
theorem accounted_iff_writeless {ops : List Op} {s : System}
    (hs : (messageSlots grants).Run ops s) :
    (s.kernel.Accounted ↔ NothingForgotten grants ∧ (writelessSlots grants).Run ops s) ∧
    ((∀ i, s.kernel.files i = none) → ∃ k', finalize s.kernel = .ok k' ∧
      ((∀ b, ¬ k'.Live b) ↔ NothingForgotten grants ∧ (writelessSlots grants).Run ops s)) := by
  obtain ⟨d, nodes, h, hl, hslots, hmessages⟩ := ledger_of_run hs
  have hacc : s.kernel.Accounted ↔ NothingForgotten grants ∧ (writelessSlots grants).Run ops s := by
    rw [accounted_iff h.toStore hl, hslots, hmessages]
  refine ⟨hacc, fun hfiles => ?_⟩
  obtain ⟨k', hfin, hlive⟩ := finalize_live_iff h.toStore hl.apart
  refine ⟨k', hfin, ?_⟩
  rw [← hacc]
  constructor
  · intro hnone b hb
    by_contra hown
    exact hnone b ((hlive b).mpr ⟨hb, fun h => absurd h hown⟩)
  · intro hall b hb
    obtain ⟨hb, hpriv⟩ := (hlive b).mp hb
    obtain ⟨p, rfl⟩ := hpriv (hall b hb)
    exact privates_none_of_released hl.privates hfiles p hb

/-- With every allocation granted: after a write, when all files have been released and the module
has been unloaded, a slot of `prepare` and the message that was replaced are still live. -/
theorem blocks_left_behind : ∃ s k',
    (messageSlots fun _ => true).Run (sampleOps ++ [.release 0, .release 1]) s ∧
    finalize s.kernel = .ok k' ∧ k'.Live (.slot 2) ∧ k'.Live (.message 261) := by
  obtain ⟨s, hs, hv⟩ := run_of_execute (show ((boot fun _ => true).bind fun s =>
    Machine.perform (execute fun _ => true) s (sampleOps ++ [.release 0, .release 1])).map
      (fun s => (finalize s.kernel).toOption.map fun k =>
        ((k.slots 2).isSome, (k.messages 261).isSome)) = some (some (true, true)) by decide +kernel)
  obtain ⟨k', hfin, hlive⟩ := Option.map_eq_some_iff.mp hv
  obtain ⟨hslot, hmessage⟩ := Prod.mk.inj hlive
  exact ⟨s, k', hs, eq_ok_of_toOption hfin, hslot, hmessage⟩

/-- A run that makes no write. -/
theorem writeless_of_no_write {ops : List Op} {s : System} (hs : (messageSlots grants).Run ops s)
    (hops : ∀ op ∈ ops, ∀ k, TurnedDown k op) : (writelessSlots grants).Run ops s := by
  induction hs with
  | start h₀ => exact .start h₀
  | snoc _ hst ih =>
    have hlast := hops _ (List.mem_append_right _ (List.mem_singleton_self _))
    exact (ih fun op hop => hops op (List.mem_append_left _ hop)).snoc ⟨hst, hlast _⟩

theorem accounted_iff_writeless_sample : ∃ s,
    (messageSlots fun n => n == 1 || 258 ≤ n).Run
      [.open 0 5 0#64, .ioctl 0 MSG_SLOT_CHANNEL 7#64, .release 0] s ∧ s.kernel.Accounted := by
  obtain ⟨s, hs, _⟩ := run_of_execute (show ((boot fun n => n == 1 || 258 ≤ n).bind fun s =>
    Machine.perform (execute fun n => n == 1 || 258 ≤ n) s
      [.open 0 5 0#64, .ioctl 0 MSG_SLOT_CHANNEL 7#64, .release 0]).map (fun _ => ()) =
        some () by decide +kernel)
  refine ⟨s, hs, (accounted_iff_writeless hs).1.mpr ⟨fun j hj => ?_, ?_⟩⟩
  · have hlt : 2 + j < 258 := Nat.add_lt_add_left hj 2
    simp only [Bool.or_eq_false_iff, beq_eq_false_iff_ne, decide_eq_false_iff_not]
    omega
  · exact writeless_of_no_write hs (by simp [TurnedDown])

end OsCourse.MessageSlot
