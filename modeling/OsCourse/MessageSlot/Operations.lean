import OsCourse.MessageSlot.Channels

/-! # The parts of the file operations on a store

Looking a channel up, creating and selecting one, copying a message in and out: what each
does to a store, and to the channels that the store shows.
-/

namespace OsCourse.MessageSlot
namespace Store

variable {grants : ℕ → Bool} {k k' : Kernel} {d : MessageSlotsDevices} {nodes : Minor → List Ptr}
  {f : File} {i : ℕ} {b : PrivateData}

theorem fresh_ne_zero (h : Store k d nodes) : k.fresh ≠ 0 := Nat.ne_of_gt h.fresh_pos

theorem fresh_used (h : Store k d nodes) {n j : ℕ} (hj : j < n) :
    ¬ ({ k with fresh := k.fresh + n } : Kernel).Unused (k.fresh + j) := by
  have := h.fresh_pos
  rintro (h0 | hle)
  · exact absurd h0 (Nat.ne_of_gt (Nat.add_pos_left h.fresh_pos j))
  · exact absurd hle (Nat.not_le_of_lt (Nat.add_lt_add_left hj _))

theorem fresh_unused (k : Kernel) (j : ℕ) : k.Unused (k.fresh + j) := Or.inr (Nat.le_add_right ..)

theorem deref_table (h : Store k d nodes) : deref k.devices = .ok d := by
  rw [h.table, deref_some]

/-! ## `find_channel` on a store -/

/-- What `find_channel` returns for a slot: a node of the list, or `NULL` if there is none. -/
theorem find_spec (h : Store k d nodes) {m : Minor} {root : Ptr} (hl : k.ListAt root (nodes m))
    (id : BitVec 32) :
    (∃ p ∈ nodes m, ∃ c, k.At p c ∧ c.channel_id = id ∧ p ≠ 0 ∧
      findChannel k id k.fresh root = .ok p) ∨
    (¬ Has k nodes m id ∧ (∀ p ∈ nodes m, ∀ c, k.At p c → c.channel_id ≠ id) ∧
      findChannel k id k.fresh root = .ok 0) := by
  have hlen := h.length_lt hl
  by_cases hex : ∃ p ∈ nodes m, ∃ c, k.At p c ∧ c.channel_id = id
  · obtain ⟨p, hp, c, hc, rfl⟩ := hex
    exact Or.inl ⟨p, hp, c, hc, rfl, (h.lt_fresh hc).1, findChannel_some hl hlen hp hc rfl
      fun q hq c' hc' he => h.ids m q hq p hp c' c hc' hc he⟩
  · have hne : ∀ p ∈ nodes m, ∀ c, k.At p c → c.channel_id ≠ id :=
      fun p hp c hc he => hex ⟨p, hp, c, hc, he⟩
    refine Or.inr ⟨?_, hne, findChannel_none hl hlen hne⟩
    intro hhas
    obtain ⟨p, hp, c, hc, hid⟩ := exists_at_of_has hhas
    exact hne p hp c hc hid

/-! ## `ioctl` -/

/-- The memory after `initiate_channel`. -/
def created (k : Kernel) (id : BitVec 32) : Kernel :=
  { k with
    fresh := k.fresh + 2
    messages := Function.update k.messages (k.fresh + 1) (some fun _ => 0#8)
    channels := Function.update k.channels k.fresh (some ⟨k.fresh + 1, 0, id, 0⟩) }

theorem selectChannel_eq (hb : k.privates f.private_data = some b) (param : BitVec 64) :
    selectChannel k f param = .ok { k with
      privates := Function.update k.privates f.private_data
        (some { b with channel_num := param }) } := by
  have hderef : deref (k.privates f.private_data) = .ok b := deref_eq_ok.mpr hb
  rw [selectChannel, hderef, ok_bind]

theorem bumpChannels_eq (h : k.devices = some d) (m : Minor) :
    bumpChannels k m = .ok { k with
      devices := some { d with
        numOfChannels := Function.update d.numOfChannels m (d.numOfChannels m + 4#64) } } := by
  have hdev : deref k.devices = .ok d := deref_eq_ok.mpr h
  rw [bumpChannels, hdev, ok_bind]

theorem created_store (h : Store k d nodes) (id : BitVec 32) : Store (created k id) d nodes := by
  have hm := (h.bump 2).putMessage (h.fresh_used (j := 1) (by decide))
    (h.messages_none _ (fresh_unused k 1)) (fun _ => 0#8)
  exact hm.putChannel (a := k.fresh) (h.fresh_used (j := 0) (by decide))
    (h.channels_none _ (fresh_unused k 0)) ⟨k.fresh + 1, 0, id, 0⟩

theorem created_shows (h : Store k d nodes) (id : BitVec 32) (m : Minor) (id' : BitVec 32)
    (bytes : List Byte) : Shows (created k id) nodes m id' bytes ↔ Shows k nodes m id' bytes := by
  refine h.shows_congr (fun m p hp => ?_) fun q b hq => ?_
  · obtain ⟨c, hc⟩ := h.at_of_mem hp
    have hne : p ≠ k.fresh := ne_of_none (h.channels_none _ (fresh_unused k 0)) hc
    simp [created, Kernel.data, hne]
  · have hne : q ≠ k.fresh + 1 := ne_of_none (h.messages_none _ (fresh_unused k 1)) hq
    simpa [created, hne] using hq

theorem created_joins (h : Store k d nodes) {m : Minor} {id : BitVec 32}
    (hno : ∀ p ∈ nodes m, ∀ c, k.At p c → c.channel_id ≠ id) :
    Joins (created k id) nodes m k.fresh ⟨k.fresh + 1, 0, id, 0⟩ where
  here := by simp [created, Kernel.At]
  next := rfl
  unlinked := h.not_mem_of_none (h.channels_none _ (fresh_unused k 0))
  size := ⟨le_rfl, Int.natCast_nonneg _⟩
  message := ⟨fun _ => 0#8, by simp [created]⟩
  id := fun p hp c hc => by
    obtain ⟨c₀, hc₀⟩ := h.at_of_mem hp
    have hne : p ≠ k.fresh := ne_of_none (h.channels_none _ (fresh_unused k 0)) hc₀
    exact hno p hp c (at_putChannel hne hc)

/-- An operation that changes no channel and no private data of an open file. -/
structure Quiet (k k' : Kernel) (nodes : Minor → List Ptr) : Prop where
  shows : ∀ m id bytes, Shows k' nodes m id bytes ↔ Shows k nodes m id bytes
  privates : ∀ p b, k.privates p = some b → k'.privates p = some b
  files : k'.files = k.files

/-- The channels are those of `k`, and perhaps a new one without a message. -/
structure Extends (k : Kernel) (nodes : Minor → List Ptr) (k' : Kernel)
    (nodes' : Minor → List Ptr) : Prop where
  kept : ∀ m id bytes, Shows k nodes m id bytes → Shows k' nodes' m id bytes
  only : ∀ m id bytes, Shows k' nodes' m id bytes →
    Shows k nodes m id bytes ∨ bytes = [] ∧ ¬ Has k nodes m id

theorem Extends.of_iff {nodes' : Minor → List Ptr}
    (h : ∀ m id bytes, Shows k' nodes' m id bytes ↔ Shows k nodes m id bytes) :
    Extends k nodes k' nodes' :=
  ⟨fun m id bytes => (h m id bytes).mpr, fun m id bytes hs => Or.inl ((h m id bytes).mp hs)⟩

/-- Linking the created channel into the list of its slot. -/
theorem linked_shows (h : Store k d nodes) {m : Minor} {id : BitVec 32}
    (hno : ∀ p ∈ nodes m, ∀ c, k.At p c → c.channel_id ≠ id) (hs : SameData (created k id) k')
    (hm : k'.messages = (created k id).messages) (m' : Minor) (id' : BitVec 32)
    (bytes : List Byte) :
    Shows k' (appended nodes m k.fresh) m' id' bytes ↔
      Shows k nodes m' id' bytes ∨ m' = m ∧ id' = id ∧ bytes = [] := by
  rw [shows_appended (h.created_joins hno) hs hm rfl, h.created_shows]

/-- What adding the channel `id` to slot `m` leads to. -/
structure Added (k : Kernel) (d : MessageSlotsDevices) (nodes : Minor → List Ptr) (k' : Kernel)
    (d' : MessageSlotsDevices) (nodes' : Minor → List Ptr) : Prop where
  store : Store k' d' nodes'
  minors : d'.minors = d.minors
  shows : Extends k nodes k' nodes'
  privates : k'.privates = k.privates
  files : k'.files = k.files

/-- What `ioctl` leads to once its parameters have been accepted. -/
structure Selected (k : Kernel) (nodes : Minor → List Ptr) (f : File) (b : PrivateData)
    (param : BitVec 64) (k' : Kernel) (d' : MessageSlotsDevices) (nodes' : Minor → List Ptr)
    (res : ℤ) : Prop where
  store : Store k' d' nodes'
  shows : Extends k nodes k' nodes'
  privates : k'.privates = Function.update k.privates f.private_data
    (some { b with channel_num := param })
  files : k'.files = k.files
  has : res = 0 → Has k' nodes' f.f_inode (param.setWidth 32)

/-- The private data of an open file with the new parameter. -/
theorem selected_store (h : Store k d nodes)
    (hb : k.privates f.private_data = some b) (param : BitVec 64) :
    Store { k with
      privates := Function.update k.privates f.private_data
        (some { b with channel_num := param }) } d nodes := by
  refine h.setPrivate (fun hu => ?_) _ fun j g hg he => ?_
  · rw [h.privates_none _ hu] at hb
    cases hb
  · obtain ⟨_, b', hb', hm'⟩ := h.file j g hg
    rw [he, hb, Option.some.injEq] at hb'
    rw [← hm', ← hb']

/-! ## `device_write` -/

/-- The bytes that the user passes to a write. -/
def payload (buffer : ℕ → Option Byte) (length : ℕ) : List Byte :=
  (List.range length).map fun j => (buffer j).getD 0#8

theorem payload_length (buffer : ℕ → Option Byte) (n : ℕ) : (payload buffer n).length = n := by
  simp [payload]

theorem take_copyIn (buffer : ℕ → Option Byte) {n : ℕ} (hn : n ≤ BUFFER_LENGTH)
    (garbage : DataMessage) :
    (List.ofFn (copyIn buffer n garbage)).take n = payload buffer n := by
  apply List.ext_getElem
  · rw [List.length_take, List.length_ofFn, payload_length, Nat.min_eq_left hn]
  · intro j h₁ h₂
    rw [payload_length] at h₂
    rw [List.getElem_take, List.getElem_ofFn, copyIn, if_pos h₂]
    simp [payload]

/-- A write of `length` bytes, from `buffer`, is accepted on a file that has chosen `id`. -/
def Accepts (id : BitVec 32) (buffer : Option (ℕ → Option Byte)) (length : BitVec 64) : Prop :=
  buffer ≠ none ∧ id ≠ 0#32 ∧ 0 < length.toNat ∧ length.toNat ≤ BUFFER_LENGTH

theorem length_eq_zero_iff (length : BitVec 64) : length = 0#64 ↔ length.toNat = 0 := by
  rw [← BitVec.toNat_inj]
  rfl

/-- The errors of a call that is turned down by its first checks. -/
def Rejection (res : ℤ) : Prop := res = -EBADF ∨ res = -EINVAL ∨ res = -EMSGSIZE

theorem Rejection.neg {res : ℤ} (h : Rejection res) : res < 0 := by
  rcases h with rfl | rfl | rfl <;> decide

theorem Rejection.badf : Rejection (-EBADF) := Or.inl rfl

theorem Rejection.inval : Rejection (-EINVAL) := Or.inr (Or.inl rfl)

theorem Rejection.msgsize : Rejection (-EMSGSIZE) := Or.inr (Or.inr rfl)

theorem deviceWrite_rejects (grants : ℕ → Bool) {id : BitVec 32} (hb : k.privates f.private_data = some b)
    (hid : b.channel_num.setWidth 32 = id) {buffer : Option (ℕ → Option Byte)} {length : BitVec 64}
    (hacc : ¬ Accepts id buffer length) (garbage : DataMessage) :
    ∃ res, Rejection res ∧ deviceWrite grants k f buffer length garbage = .ok (k, res) := by
  have hderef : deref (k.privates f.private_data) = .ok b := deref_eq_ok.mpr hb
  rw [deviceWrite, hderef, ok_bind]
  cases buffer with
  | none => exact ⟨-EINVAL, .inval, rfl⟩
  | some buffer =>
    dsimp only
    by_cases h0 : b.channel_num.setWidth 32 = 0#32
    · rw [if_pos h0]
      exact ⟨-EINVAL, .inval, rfl⟩
    · have hbad : length = 0#64 ∨ BUFFER_LENGTH < length.toNat := by
        rw [length_eq_zero_iff]
        by_contra hgood
        exact hacc ⟨by simp, hid ▸ h0, by omega, by omega⟩
      rw [if_neg h0, if_pos hbad]
      exact ⟨-EMSGSIZE, .msgsize, rfl⟩

/-- The memory after the user's bytes have been copied into a new block. -/
def copied (k : Kernel) (message : DataMessage) : Kernel :=
  { k with
    fresh := k.fresh + 1
    messages := Function.update k.messages k.fresh (some message) }

theorem copied_store (h : Store k d nodes) (message : DataMessage) :
    Store (copied k message) d nodes :=
  (h.bump 1).putMessage (a := k.fresh) (h.fresh_used (j := 0) (by decide))
    (h.messages_none _ (fresh_unused k 0)) message

theorem copied_shows (h : Store k d nodes) (message : DataMessage) (m : Minor) (id : BitVec 32)
    (bytes : List Byte) : Shows (copied k message) nodes m id bytes ↔ Shows k nodes m id bytes := by
  refine h.shows_congr (fun _ _ _ => rfl) fun q b hq => ?_
  have hne : q ≠ k.fresh := ne_of_none (h.messages_none _ (fresh_unused k 0)) hq
  simpa only [copied, Function.update_of_ne hne] using hq

/-! ## `device_read` -/

/-- `put_user` of the bytes from index `j` on, up to the first one that faults. -/
def deliver (writable : ℕ → Bool) (j : ℕ) : List Byte → ℤ × List Byte
  | [] => (j, [])
  | c :: bytes =>
    if writable j then
      let r := deliver writable (j + 1) bytes
      (r.1, c :: r.2)
    else (-EFAULT, [])

theorem deliver_writable {writable : ℕ → Bool} {j : ℕ} {bytes : List Byte}
    (hw : ∀ l < j + bytes.length, writable l = true) :
    deliver writable j bytes = (((j + bytes.length : ℕ) : ℤ), bytes) := by
  induction bytes generalizing j with
  | nil => rfl
  | cons c bytes ih =>
    rw [List.length_cons] at hw
    rw [deliver, if_pos (hw j (by omega)), ih fun l hl => hw l (by omega), List.length_cons]
    rw [show j + (bytes.length + 1) = j + 1 + bytes.length by omega]

theorem copyOut_eq (message : DataMessage) (writable : ℕ → Bool) {j n : ℕ}
    (hn : j + n ≤ BUFFER_LENGTH) :
    copyOut message writable j n =
      .ok (deliver writable j (((List.ofFn message).drop j).take n)) := by
  induction n generalizing j with
  | zero => rw [copyOut, List.take_zero, deliver]
  | succ n ih =>
    have hj : j < BUFFER_LENGTH := by omega
    have hlen : j < (List.ofFn message).length := by rwa [List.length_ofFn]
    rw [copyOut, dif_pos hj, List.drop_eq_getElem_cons hlen, List.take_succ_cons, List.getElem_ofFn,
      deliver]
    by_cases hw : writable j = true
    · rw [if_pos hw, if_pos hw, ih (by omega)]
      rfl
    · rw [if_neg hw, if_neg hw]

theorem ofInt_lt_iff (length : BitVec 64) {n : ℤ} (h0 : 0 ≤ n) (hn : n ≤ BUFFER_LENGTH) :
    length < BitVec.ofInt 64 n ↔ length.toNat < n.toNat := by
  obtain ⟨n, rfl⟩ := Int.eq_ofNat_of_zero_le h0
  have hn' : n ≤ BUFFER_LENGTH := Int.ofNat_le.mp hn
  rw [BitVec.lt_def, BitVec.ofInt_natCast, BitVec.toNat_ofNat,
    Nat.mod_eq_of_lt (Nat.lt_of_le_of_lt hn' (by decide))]
  rfl

theorem deviceRead_rejects (hb : k.privates f.private_data = some b) {buffer : Option (ℕ → Bool)}
    {length : BitVec 64}
    (hbad : buffer = none ∨ length.toNat = 0 ∨ BUFFER_LENGTH < length.toNat) :
    ∃ res, Rejection res ∧ deviceRead k f buffer length = .ok (res, []) := by
  have hderef : deref (k.privates f.private_data) = .ok b := deref_eq_ok.mpr hb
  rw [deviceRead, hderef, ok_bind]
  cases buffer with
  | none => exact ⟨-EINVAL, .inval, rfl⟩
  | some writable =>
    dsimp only
    rw [if_pos (by rw [length_eq_zero_iff]; simpa using hbad)]
    exact ⟨-EMSGSIZE, .msgsize, rfl⟩

/-- What a read of `length` bytes returns from a channel whose message is `bytes`. -/
def readOut (bytes : List Byte) (writable : ℕ → Bool) (length : ℕ) : ℤ × List Byte :=
  if bytes = [] then (-EWOULDBLOCK, [])
  else if length < bytes.length then (-ENOSPC, []) else deliver writable 0 bytes

/-- A read from a channel that the slot has. -/
theorem deviceRead_found (h : Store k d nodes) (hf : k.files i = some f)
    (hb : k.privates f.private_data = some b) {bytes : List Byte}
    (hs : Shows k nodes f.f_inode (b.channel_num.setWidth 32) bytes) {writable : ℕ → Bool}
    {length : BitVec 64} (hpos : 0 < length.toNat) (hle : length.toNat ≤ BUFFER_LENGTH) :
    deviceRead k f (some writable) length = .ok (readOut bytes writable length.toNat) := by
  obtain ⟨hslot, b', hb', hminor⟩ := h.file i f hf
  obtain rfl := Option.some.inj (hb.symm.trans hb')
  obtain ⟨root, hroot, hlist⟩ := h.slot f.f_inode hslot
  have hderef : deref (k.privates f.private_data) = .ok b := deref_eq_ok.mpr hb
  have hderoot : deref (k.slots (d.minors b.minor_num)) = .ok root := by
    rw [hminor]
    exact deref_eq_ok.mpr hroot
  rcases h.find_spec hlist (b.channel_num.setWidth 32) with ⟨p, hp, c, hc, hcid, hp0, hfind⟩ |
    ⟨hnot, _, _⟩
  · obtain ⟨h0, hsize, message, hmes⟩ := h.node _ p hp c hc
    have hderc : deref (k.channels p) = .ok c := deref_eq_ok.mpr hc
    have hderm : deref (k.messages c.message) = .ok message := deref_eq_ok.mpr hmes
    have hm0 : c.message ≠ 0 := by
      intro hm0
      rw [hm0, h.messages_none 0 (Or.inl rfl)] at hmes
      cases hmes
    obtain rfl : bytes = (List.ofFn message).take c.size.toNat :=
      h.shows_unique hs ⟨p, hp, c.size, c.message, message, hcid ▸ hc.data, hmes, rfl⟩
    have hlen : ((List.ofFn message).take c.size.toNat).length = c.size.toNat := by
      rw [List.length_take, List.length_ofFn]
      omega
    rw [deviceRead, hderef, ok_bind]
    dsimp only
    rw [if_neg (by rw [length_eq_zero_iff]; omega), h.deref_table, ok_bind, hderoot, ok_bind, hfind,
      ok_bind, hderc, ok_bind, if_neg hm0, readOut]
    by_cases hz : c.size = 0
    · rw [if_pos hz, hz]
      rfl
    · have hne : (List.ofFn message).take c.size.toNat ≠ [] := by
        rw [← List.length_pos_iff, hlen]
        omega
      rw [if_neg hz, if_neg hne, hlen]
      by_cases hlt : length.toNat < c.size.toNat
      · rw [if_pos ((ofInt_lt_iff length h0 hsize).mpr hlt), if_pos hlt]
      · rw [if_neg fun hl => hlt ((ofInt_lt_iff length h0 hsize).mp hl), if_neg hlt, hderm, ok_bind,
          copyOut_eq message writable (by omega), List.drop_zero]
  · exact absurd ⟨bytes, hs⟩ hnot

/-- A read into a buffer that can be written. -/
theorem readOut_writable {bytes : List Byte} {writable : ℕ → Bool} {length : ℕ}
    (hw : ∀ l < length, writable l = true) :
    readOut bytes writable length =
      if bytes = [] then (-EWOULDBLOCK, [])
      else if length < bytes.length then (-ENOSPC, []) else (bytes.length, bytes) := by
  rw [readOut]
  by_cases hlt : length < bytes.length
  · rw [if_pos hlt, if_pos hlt]
  · rw [if_neg hlt, if_neg hlt, deliver_writable fun l hl => hw l (by omega), Nat.zero_add]

end Store
end OsCourse.MessageSlot
