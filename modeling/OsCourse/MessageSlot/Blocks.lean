import OsCourse.MessageSlot.Order

/-! # The ledger of live blocks

Every `kmalloc` of the module makes a block live, every `kfree` ends it. A live block is
accounted for if the table leads to it, or an open file. All private data and all nodes
are; slots and messages are what the module forgets.
-/

namespace OsCourse.MessageSlot
open Foundations Store

inductive Block where
  | table
  | slot (p : Ptr)
  | channel (p : Ptr)
  | message (p : Ptr)
  | privateData (p : Ptr)
  deriving DecidableEq, Repr

/-- Allocated and not freed. -/
def Kernel.Live (k : Kernel) : Block → Prop
  | .table => k.devices.isSome
  | .slot p => (k.slots p).isSome
  | .channel p => (k.channels p).isSome
  | .message p => (k.messages p).isSome
  | .privateData p => (k.privates p).isSome

/-- The devices table, a slot in it, a node of a slot, the message of such a node, or the private data
of an open file. -/
def Kernel.Owned (k : Kernel) : Block → Prop
  | .table => True
  | .slot p => ∃ d m, k.devices = some d ∧ d.minors m ≠ 0 ∧ d.minors m = p
  | .channel p => ∃ m l, k.SlotList m l ∧ p ∈ l
  | .message q => ∃ m l, k.SlotList m l ∧ ∃ p ∈ l, ∃ c, k.At p c ∧ c.message = q
  | .privateData p => ∃ i f, k.files i = some f ∧ f.private_data = p

/-- No live block has been forgotten. -/
def Kernel.Accounted (k : Kernel) : Prop := ∀ b, k.Live b → k.Owned b

/-- A call that is no write past its checks. -/
def TurnedDown (k : Kernel) : Op → Prop
  | .write file buffer length _ => ∀ f b, k.files file = some f →
      k.privates f.private_data = some b → ¬ Accepts (narrow b.channel_num) buffer length
  | _ => True

/-- The message at `q` is that of a node. -/
def OwnsMessage (k : Kernel) (nodes : Minor → List Ptr) (q : Ptr) : Prop :=
  ∃ m, ∃ p ∈ nodes m, ∃ n id, k.data p = some (n, q, id)

/-- Nodes have messages of their own. -/
def MessagesApart (k : Kernel) (nodes : Minor → List Ptr) : Prop :=
  ∀ m m' p p' n n' q id id', p ∈ nodes m → p' ∈ nodes m' → k.data p = some (n, q, id) →
    k.data p' = some (n', q, id') → p = p'

def ChannelsOwned (k : Kernel) (nodes : Minor → List Ptr) : Prop :=
  ∀ p, (k.data p).isSome → ∃ m, p ∈ nodes m

def PrivatesOwned (k : Kernel) : Prop :=
  ∀ p, (k.privates p).isSome → ∃ i f, k.files i = some f ∧ f.private_data = p

/-- What holds of the ledger in every state. -/
structure Ledger (k : Kernel) (nodes : Minor → List Ptr) : Prop where
  apart : MessagesApart k nodes
  channels : ChannelsOwned k nodes
  privates : PrivatesOwned k

def MessagesOwned (k : Kernel) (nodes : Minor → List Ptr) : Prop :=
  ∀ q, (k.messages q).isSome → OwnsMessage k nodes q

def SlotsOwned (k : Kernel) (d : MessageSlotsDevices) : Prop :=
  ∀ p, (k.slots p).isSome → ∃ m, d.minors m = p

variable {grants : ℕ → Bool} {k k' : Kernel} {d d' : MessageSlotsDevices}
  {nodes nodes' : Minor → List Ptr} {m : Minor} {op : Op} {ret : Ret} {a p q : Ptr}
  {c : MessageChannel}

theorem ownsMessage_iff : OwnsMessage k nodes q ↔
    ∃ m, ∃ p ∈ nodes m, ∃ c, k.At p c ∧ c.message = q := by
  constructor
  · rintro ⟨m, p, hp, n, id, hd⟩
    obtain ⟨c, hc, _, hq, _⟩ := at_of_data hd
    exact ⟨m, p, hp, c, hc, hq⟩
  · rintro ⟨m, p, hp, c, hc, rfl⟩
    exact ⟨m, p, hp, _, _, hc.data⟩

/-- Where the nodes keep their data, they keep their messages. -/
theorem ownsMessage_congr (h : ∀ m, ∀ p ∈ nodes m, k'.data p = k.data p) :
    OwnsMessage k' nodes q ↔ OwnsMessage k nodes q := by
  constructor
  · rintro ⟨m, p, hp, n, id, hd⟩
    exact ⟨m, p, hp, n, id, (h m p hp).symm.trans hd⟩
  · rintro ⟨m, p, hp, n, id, hd⟩
    exact ⟨m, p, hp, n, id, (h m p hp).trans hd⟩

theorem ownsMessage_appended (ha : k.At a c) :
    OwnsMessage k (appended nodes m a) q ↔ OwnsMessage k nodes q ∨ q = c.message := by
  constructor
  · rintro ⟨m', p, hp, n, id, hd⟩
    rcases mem_appended.mp hp with hp | ⟨_, rfl⟩
    · exact Or.inl ⟨m', p, hp, n, id, hd⟩
    · rw [ha.data, Option.some.injEq, Prod.mk.injEq, Prod.mk.injEq] at hd
      exact Or.inr hd.2.1.symm
  · rintro (⟨m', p, hp, n, id, hd⟩ | rfl)
    · exact ⟨m', p, mem_appended.mpr (Or.inl hp), n, id, hd⟩
    · exact ⟨m, a, mem_appended.mpr (Or.inr ⟨rfl, rfl⟩), _, _, ha.data⟩

/-- An owned message is live. -/
theorem OwnsMessage.live (h : Store k d nodes) (hq : OwnsMessage k nodes q) :
    (k.messages q).isSome := by
  obtain ⟨m, p, hp, c, hc, rfl⟩ := ownsMessage_iff.mp hq
  obtain ⟨_, _, b, hb⟩ := h.node m p hp c hc
  rw [hb]
  rfl

theorem not_ownsMessage_of_none (h : Store k d nodes) (hq : k.messages q = none) :
    ¬ OwnsMessage k nodes q := by
  intro hown
  have hlive := hown.live h
  rw [hq] at hlive
  cases hlive

theorem isSome_update_iff {A : Type*} {g : Ptr → Option A} {v : A} :
    (Function.update g a (some v) p).isSome ↔ p = a ∨ (g p).isSome := by
  by_cases hp : p = a
  · simp [hp]
  · simp [hp]

namespace Store

theorem data_created (h : Store k d nodes) (hp : p ∈ nodes m) (id : BitVec 32) :
    (created k id).data p = k.data p := by
  obtain ⟨c, hc⟩ := h.at_of_mem hp
  rw [(h.at_created hc id).data, hc.data]

/-- A node that has just been created and linked. -/
theorem ownsMessage_linked (h : Store k d nodes) {id : BitVec 32}
    (hs : SameData (created k id) k') :
    OwnsMessage k' (appended nodes m k.fresh) q ↔ OwnsMessage k nodes q ∨ q = k.fresh + 1 := by
  have hnew : (created k id).At k.fresh ⟨k.fresh + 1, 0, id, 0⟩ := Function.update_self ..
  rw [ownsMessage_congr fun _ p _ => hs p, ownsMessage_appended hnew,
    ownsMessage_congr fun _ p hp => h.data_created hp id]

end Store

/-! ## Messages -/

theorem messagesOwned_linked (h : Store k d nodes) {id : BitVec 32}
    (hs : SameData (created k id) k') (hm : k'.messages = (created k id).messages) :
    MessagesOwned k' (appended nodes m k.fresh) ↔ MessagesOwned k nodes := by
  have hnone : k.messages (k.fresh + 1) = none := h.messages_none _ (fresh_unused k 1)
  simp only [MessagesOwned, h.ownsMessage_linked hs, hm, created, isSome_update_iff]
  constructor
  · intro howned q hq
    refine (howned q (Or.inr hq)).resolve_right ?_
    rintro rfl
    rw [hnone] at hq
    cases hq
  · rintro howned q (rfl | hq)
    · exact Or.inr rfl
    · exact Or.inl (howned q hq)

/-- A message that no node leads to is there after a write that has found no channel. -/
theorem not_messagesOwned_spill (h : Store k d nodes) (message : DataMessage) :
    ¬ MessagesOwned (copied k message) nodes := by
  intro howned
  have hlive : ((copied k message).messages k.fresh).isSome := by simp [copied]
  refine not_ownsMessage_of_none h (h.messages_none _ (fresh_unused k 0)) (?_ : _)
  exact (ownsMessage_congr fun _ _ _ => rfl).mp (howned _ hlive)

/-- A message that has been replaced is live, and no node leads to it any more. -/
theorem not_messagesOwned_store (h : Store k d nodes) (hl : Ledger k nodes) (hp : p ∈ nodes m)
    (hc : k.At p c) (message : DataMessage) (n : ℕ) :
    ¬ MessagesOwned (stored (copied k message) p c n k.fresh) nodes := by
  intro howned
  have hq : OwnsMessage k nodes c.message := ⟨m, p, hp, _, _, hc.data⟩
  have hne : c.message ≠ k.fresh := by
    intro he
    exact not_ownsMessage_of_none h (h.messages_none _ (fresh_unused k 0)) (he ▸ hq)
  have hlive : ((stored (copied k message) p c n k.fresh).messages c.message).isSome := by
    simpa [stored, copied, hne] using hq.live h
  obtain ⟨m', p', hp', n', id', hd⟩ := howned _ hlive
  by_cases hpp : p' = p
  · subst hpp
    have hself : (stored (copied k message) p' c n k.fresh).data p' =
        some ((n : ℤ), k.fresh, c.channel_id) := by simp [Kernel.data, stored]
    rw [hself, Option.some.injEq, Prod.mk.injEq, Prod.mk.injEq] at hd
    exact hne hd.2.1.symm
  · have hother : (stored (copied k message) p c n k.fresh).data p' = k.data p' := by
      simp [Kernel.data, stored, copied, hpp]
    rw [hother] at hd
    exact hpp (hl.apart _ _ _ _ _ _ _ _ _ hp' hp hd hc.data)

/-- Exactly the writes past their checks make the module forget a message. -/
theorem Turn.messagesOwned_iff (ht : Turn k d nodes op k' d' nodes' ret) (h : Store k d nodes)
    (hl : Ledger k nodes) :
    MessagesOwned k' nodes' ↔ MessagesOwned k nodes ∧ TurnedDown k op := by
  cases ht with
  | @reject op res hop hres =>
    refine (and_iff_left ?_).symm
    cases op with
    | write file buffer length garbage =>
      intro f b hf hb
      rcases hop with hnone | ⟨f', b', hf', hb', hacc⟩
      · rw [hnone] at hf
        cases hf
      · obtain rfl := Option.some.inj (hf.symm.trans hf')
        obtain rfl := Option.some.inj (hb.symm.trans hb')
        exact hacc
    | _ => trivial
  | @linkRoot file f b param _ hb =>
    have howned : MessagesOwned
        (linkedRoot (created (selected k f b param) (narrow param)) d f.f_inode k.fresh)
        (appended nodes f.f_inode (selected k f b param).fresh) ↔
          MessagesOwned (selected k f b param) nodes :=
      messagesOwned_linked (h.select hb param) (fun _ => rfl) rfl
    exact howned.trans (and_iff_left trivial).symm
  | @linkLast file f b param l last c _ hb _ _ _ _ hc =>
    have howned : MessagesOwned
        (linkedLast (created (selected k f b param) (narrow param)) d f.f_inode last c k.fresh)
        (appended nodes f.f_inode (selected k f b param).fresh) ↔
          MessagesOwned (selected k f b param) nodes :=
      messagesOwned_linked (h.select hb param)
        (sameData_link ((h.select hb param).at_created hc (narrow param)) k.fresh) rfl
    exact howned.trans (and_iff_left trivial).symm
  | spill hf hb hacc =>
    exact iff_of_false (not_messagesOwned_spill h _) fun hdown => hdown.2 _ _ hf hb hacc
  | store hf hb hacc hp hc =>
    exact iff_of_false (not_messagesOwned_store h hl hp hc _ _) fun hdown =>
      hdown.2 _ _ hf hb hacc
  | _ => exact (and_iff_left trivial).symm

/-! ## Slots -/

theorem Turn.slotsOwned_iff (ht : Turn k d nodes op k' d' nodes' ret) (h : Store k d nodes) :
    SlotsOwned k' d' ↔ SlotsOwned k d := by
  cases ht with
  | @create file m garbage _ hm =>
    have hnone : ∀ j, k.slots (k.fresh + j) = none := fun j => h.slots_none _ (fresh_unused k j)
    have hslots : ∀ p, ((filed (slotted (opened k m garbage) d m) file ⟨m, k.fresh⟩).slots
        p).isSome ↔ p = k.fresh + 1 ∨ (k.slots p).isSome := fun p => isSome_update_iff
    simp only [SlotsOwned, hslots]
    constructor
    · intro howned p hp
      obtain ⟨m', hm'⟩ := howned p (Or.inr hp)
      by_cases hmm : m' = m
      · subst hmm
        rw [Function.update_self] at hm'
        rw [← hm', hnone] at hp
        cases hp
      · exact ⟨m', by rwa [Function.update_of_ne hmm] at hm'⟩
    · rintro howned p (rfl | hp)
      · exact ⟨m, Function.update_self ..⟩
      · obtain ⟨m', hm'⟩ := howned p hp
        have hmm : m' ≠ m := by
          rintro rfl
          rw [← hm', hm, h.slots_none 0 (Or.inl rfl)] at hp
          cases hp
        exact ⟨m', by rwa [Function.update_of_ne hmm]⟩
  | @linkRoot file f b param hf _ _ _ =>
    obtain ⟨hslot, _⟩ := h.file file f hf
    obtain ⟨root, hroot, _⟩ := h.slot f.f_inode hslot
    refine forall_congr' fun p => imp_congr_left ?_
    refine isSome_update_iff.trans (or_iff_right_of_imp ?_)
    rintro rfl
    exact Option.isSome_of_eq_some hroot
  | _ => exact Iff.rfl

/-! ## Nodes and private data -/

theorem privatesOwned_filed (h : PrivatesOwned k) {file : ℕ} (hfile : k.files file = none)
    {garbage : BitVec 64} (hk : k'.privates = (opened k m garbage).privates)
    (hfiles : k'.files = k.files) : PrivatesOwned (filed k' file ⟨m, k.fresh⟩) := by
  intro p hp
  have hlive : ((opened k m garbage).privates p).isSome := by
    rw [← hk]
    exact hp
  rcases isSome_update_iff.mp hlive with rfl | hp
  · exact ⟨file, ⟨m, k.fresh⟩, Function.update_self .., rfl⟩
  · obtain ⟨i, f, hf, rfl⟩ := h p hp
    have hi : i ≠ file := by
      rintro rfl
      rw [hfile] at hf
      cases hf
    exact ⟨i, f, (Function.update_of_ne hi ..).trans ((congrFun hfiles i).trans hf), rfl⟩

theorem privatesOwned_selected (h : PrivatesOwned k) {file : ℕ} {f : File}
    (hf : k.files file = some f) (b : PrivateData) (param : BitVec 64) :
    PrivatesOwned (selected k f b param) := by
  intro p hp
  rcases isSome_update_iff.mp hp with rfl | hp
  · exact ⟨file, f, hf, rfl⟩
  · exact h p hp

theorem privatesOwned_released (h : PrivatesOwned k) {file : ℕ} {f : File}
    (hf : k.files file = some f) : PrivatesOwned (released k file f) := by
  intro p hp
  have hne : p ≠ f.private_data := by
    rintro rfl
    simp [released] at hp
  simp only [released, Function.update_of_ne hne] at hp
  obtain ⟨i, g, hg, rfl⟩ := h p hp
  have hi : i ≠ file := by
    rintro rfl
    exact hne (congrArg _ (Option.some.inj (hg.symm.trans hf)))
  exact ⟨i, g, (Function.update_of_ne hi ..).trans hg, rfl⟩

theorem Turn.privatesOwned (ht : Turn k d nodes op k' d' nodes' ret) (h : PrivatesOwned k) :
    PrivatesOwned k' := by
  cases ht with
  | reopen hfile => exact privatesOwned_filed h hfile rfl rfl
  | create hfile => exact privatesOwned_filed h hfile rfl rfl
  | select hf => exact privatesOwned_selected h hf _ _
  | full hf => exact privatesOwned_selected h hf _ _
  | linkRoot hf => exact privatesOwned_selected h hf _ _
  | linkLast hf => exact privatesOwned_selected h hf _ _
  | release hf => exact privatesOwned_released h hf
  | _ => exact h

theorem data_created_cases {id : BitVec 32} {v : ℤ × Ptr × BitVec 32}
    (hv : (created k id).data p = some v) :
    p = k.fresh ∧ v = (0, k.fresh + 1, id) ∨ k.data p = some v := by
  by_cases hp : p = k.fresh
  · subst hp
    have hself : (created k id).data k.fresh = some (0, k.fresh + 1, id) := by
      simp [Kernel.data, created]
    exact Or.inl ⟨rfl, Option.some.inj (hv.symm.trans hself)⟩
  · refine Or.inr (hv ▸ ?_)
    simp [Kernel.data, created, hp]

theorem message_lt_fresh (h : Store k d nodes) (hp : p ∈ nodes m) {n : ℤ} {id : BitVec 32}
    (hd : k.data p = some (n, q, id)) : q < k.fresh := by
  by_contra hq
  exact not_ownsMessage_of_none h (h.messages_none q (Or.inr (Nat.le_of_not_lt hq)))
    ⟨m, p, hp, n, id, hd⟩

/-- A node that has just been created and linked has a message of its own. -/
theorem messagesApart_linked (h : Store k d nodes) (hl : MessagesApart k nodes) {id : BitVec 32}
    (hs : SameData (created k id) k') : MessagesApart k' (appended nodes m k.fresh) := by
  have hold : ∀ {m' p n q id'}, p ∈ appended nodes m k.fresh m' → k'.data p = some (n, q, id') →
      p = k.fresh ∧ q = k.fresh + 1 ∨ q < k.fresh ∧ p ∈ nodes m' ∧ k.data p = some (n, q, id') := by
    intro m' p n q id' hp hd
    rw [hs p] at hd
    rcases mem_appended.mp hp with hp | ⟨_, rfl⟩
    · rw [h.data_created hp] at hd
      exact Or.inr ⟨message_lt_fresh h hp hd, hp, hd⟩
    · rcases data_created_cases hd with ⟨_, hv⟩ | hd
      · exact Or.inl ⟨rfl, (Prod.mk.inj (Prod.mk.inj hv).2).1⟩
      · rw [Kernel.data, h.channels_none k.fresh (Or.inr le_rfl)] at hd
        cases hd
  intro m₁ m₂ p₁ p₂ n₁ n₂ q id₁ id₂ hp₁ hp₂ hd₁ hd₂
  rcases hold hp₁ hd₁ with ⟨rfl, rfl⟩ | ⟨hlt, hp₁, hd₁⟩ <;>
    rcases hold hp₂ hd₂ with ⟨rfl, hq⟩ | ⟨hlt', hp₂, hd₂⟩
  · rfl
  · exact absurd hlt' (Nat.not_lt.mpr (Nat.le_succ _))
  · exact absurd (hq ▸ hlt) (Nat.not_lt.mpr (Nat.le_succ _))
  · exact hl _ _ _ _ _ _ _ _ _ hp₁ hp₂ hd₁ hd₂

theorem channelsOwned_linked (hl : ChannelsOwned k nodes) {id : BitVec 32}
    (hs : SameData (created k id) k') : ChannelsOwned k' (appended nodes m k.fresh) := by
  intro p hp
  obtain ⟨v, hv⟩ := Option.isSome_iff_exists.mp hp
  rw [hs p] at hv
  rcases data_created_cases hv with ⟨rfl, _⟩ | hd
  · exact ⟨m, mem_appended.mpr (Or.inr ⟨rfl, rfl⟩)⟩
  · obtain ⟨m', hm'⟩ := hl p (Option.isSome_of_eq_some hd)
    exact ⟨m', mem_appended.mpr (Or.inl hm')⟩

theorem data_stored (message : DataMessage) (n : ℕ) :
    (stored (copied k message) a c n k.fresh).data p =
      if p = a then some ((n : ℤ), k.fresh, c.channel_id) else k.data p := by
  by_cases hp : p = a
  · simp [Kernel.data, stored, hp]
  · simp [Kernel.data, stored, copied, hp]

theorem messagesApart_stored (h : Store k d nodes) (hl : MessagesApart k nodes)
    (message : DataMessage) (n : ℕ) :
    MessagesApart (stored (copied k message) a c n k.fresh) nodes := by
  intro m₁ m₂ p₁ p₂ n₁ n₂ q id₁ id₂ hp₁ hp₂ hd₁ hd₂
  rw [data_stored] at hd₁ hd₂
  split at hd₁ <;> split at hd₂
  case isTrue.isTrue h₁ h₂ => rw [h₁, h₂]
  case isTrue.isFalse =>
    obtain ⟨_, rfl, _⟩ := hd₁
    exact absurd (message_lt_fresh h hp₂ hd₂) (lt_irrefl _)
  case isFalse.isTrue =>
    obtain ⟨_, rfl, _⟩ := hd₂
    exact absurd (message_lt_fresh h hp₁ hd₁) (lt_irrefl _)
  case isFalse.isFalse => exact hl _ _ _ _ _ _ _ _ _ hp₁ hp₂ hd₁ hd₂

theorem channelsOwned_stored (hl : ChannelsOwned k nodes) (ha : a ∈ nodes m) (message : DataMessage)
    (n : ℕ) : ChannelsOwned (stored (copied k message) a c n k.fresh) nodes := by
  intro p hp
  rw [data_stored] at hp
  split at hp
  case isTrue heq => exact ⟨m, heq ▸ ha⟩
  case isFalse => exact hl p hp

/-- Every turn keeps the ledger. -/
theorem Turn.ledger (ht : Turn k d nodes op k' d' nodes' ret) (h : Store k d nodes)
    (hl : Ledger k nodes) : Ledger k' nodes' := by
  have hprivates := ht.privatesOwned hl.privates
  cases ht with
  | @linkRoot file f b param _ hb =>
    have hs : SameData (created (selected k f b param) (narrow param))
        (linkedRoot (created (selected k f b param) (narrow param)) d f.f_inode k.fresh) :=
      fun _ => rfl
    have hapart : MessagesApart _ (appended nodes f.f_inode (selected k f b param).fresh) :=
      messagesApart_linked (h.select hb param) hl.apart hs
    have hchannels : ChannelsOwned _ (appended nodes f.f_inode (selected k f b param).fresh) :=
      channelsOwned_linked hl.channels hs
    exact ⟨hapart, hchannels, hprivates⟩
  | @linkLast file f b param l last c _ hb _ _ _ _ hc =>
    have hs := sameData_link ((h.select hb param).at_created hc (narrow param)) k.fresh
    have hapart : MessagesApart _ (appended nodes f.f_inode (selected k f b param).fresh) :=
      messagesApart_linked (h.select hb param) hl.apart hs
    have hchannels : ChannelsOwned _ (appended nodes f.f_inode (selected k f b param).fresh) :=
      channelsOwned_linked hl.channels hs
    exact ⟨hapart, hchannels, hprivates⟩
  | store _ _ _ hp =>
    exact ⟨messagesApart_stored h hl.apart _ _, channelsOwned_stored hl.channels hp _ _, hprivates⟩
  | _ => exact ⟨hl.apart, hl.channels, hprivates⟩

/-- On a store with its ledger: what is accounted for. -/
theorem accounted_iff (h : Store k d nodes) (hl : Ledger k nodes) :
    k.Accounted ↔ SlotsOwned k d ∧ MessagesOwned k nodes := by
  constructor
  · intro hacc
    refine ⟨fun p hp => ?_, fun q hq => ?_⟩
    · obtain ⟨d₁, m, hd₁, _, hm⟩ := hacc (.slot p) hp
      obtain rfl := Option.some.inj (h.table.symm.trans hd₁)
      exact ⟨m, hm⟩
    · obtain ⟨m, l, hsl, p, hp, c, hc, hq⟩ := hacc (.message q) hq
      obtain rfl := h.slotList_iff.mp hsl
      exact ownsMessage_iff.mpr ⟨m, p, hp, c, hc, hq⟩
  · rintro ⟨hslots, hmessages⟩ b hb
    cases b with
    | table => trivial
    | slot p =>
      obtain ⟨m, rfl⟩ := hslots p hb
      refine ⟨d, m, h.table, fun h0 => ?_, rfl⟩
      rw [Kernel.Live, h0, h.slots_none 0 (Or.inl rfl)] at hb
      cases hb
    | channel p =>
      have hdata : (k.data p).isSome := by
        rw [Kernel.data, Option.isSome_map]
        exact hb
      obtain ⟨m, hm⟩ := hl.channels p hdata
      exact ⟨m, nodes m, h.slotList_iff.mpr rfl, hm⟩
    | message q =>
      obtain ⟨m, p, hp, c, hc, hq⟩ := ownsMessage_iff.mp (hmessages q hb)
      exact ⟨m, nodes m, h.slotList_iff.mpr rfl, p, hp, c, hc, hq⟩
    | privateData p => exact hl.privates p hb

end OsCourse.MessageSlot
