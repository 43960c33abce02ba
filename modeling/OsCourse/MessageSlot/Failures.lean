import OsCourse.MessageSlot.Limit
import OsCourse.MessageSlot.Twins

/-! # What a call that goes wrong leaves behind

An `ioctl` stores its parameter before it looks for room, so on a full slot it fails with the
file already on a channel that does not exist. A write drops what `get_user` returns, so bytes
that cannot be read are stored as zeros and the old message is lost.
-/

namespace OsCourse.MessageSlot
open Foundations Store

variable {grants : ℕ → Bool} {k k' : Kernel} {d : MessageSlotsDevices} {nodes : Minor → List Ptr}
  {m : Minor} {file : ℕ} {f : File} {b : PrivateData} {cmd : BitVec 32} {param num : BitVec 64}

/-! ## A failed `ioctl` -/

/-- What some calls return, one after the other. A fault is the last answer. -/
def answers (grants : ℕ → Bool) : Kernel → List Op → List (Except Fault Ret)
  | _, [] => []
  | k, op :: ops =>
    match call grants k op with
    | .ok (k, ret) => .ok ret :: answers grants k ops
    | .error e => [.error e]

/-- A call has changed nothing: the store and all selections are as before, and every later call
returns what it would have returned. -/
structure Undone (grants : ℕ → Bool) (k k' : Kernel) : Prop where
  same : k' = k
  later : ∀ ops, answers grants k' ops = answers grants k ops

/-- Slot `m` has no room and no channel `id`. -/
def Kernel.FullWithout (k : Kernel) (m : Minor) (id : BitVec 32) : Prop :=
  ∃ l, k.SlotList m l ∧ l.length = LIST_LIMIT ∧ ∀ p ∈ l, ∀ c, k.At p c → c.channel_id ≠ id

theorem Orderly.fullWithout_iff (h : Orderly k d nodes) {id : BitVec 32} :
    k.FullWithout m id ↔ (nodes m).length = LIST_LIMIT ∧ ¬ Has k nodes m id := by
  constructor
  · rintro ⟨l, hl, hlen, hnew⟩
    obtain rfl := h.slotList_iff.mp hl
    refine ⟨hlen, fun hhas => ?_⟩
    obtain ⟨p, hp, c, hc, hid⟩ := exists_at_of_has hhas
    exact hnew p hp c hc hid
  · rintro ⟨hlen, hnot⟩
    exact ⟨nodes m, h.slotList_iff.mpr rfl, hlen, h.ids_of_not_has hnot⟩

/-- Storing the number that is there already. -/
theorem selected_of_selection (hf : k.files file = some f) {b : PrivateData}
    (hb : k.privates f.private_data = some b)
    (hsel : k.selection file = some (f.f_inode, param)) : selected k f b param = k := by
  obtain rfl : b.channel_num = param := by
    rw [selection_eq_some hf hb, Option.some.injEq, Prod.mk.injEq] at hsel
    exact hsel.2
  have hsame : Function.update k.privates f.private_data (some b) = k.privates := by
    rw [← hb, Function.update_eq_self]
  exact congrArg (fun privates => { k with privates }) hsame

variable (grants) in
/-- A full slot refuses a channel after the number of the file has been set. -/
theorem Orderly.call_full (h : Orderly k d nodes) (hf : k.files file = some f)
    (hparam : param ≠ 0#64) (hfull : k.FullWithout f.f_inode (narrow param)) :
    ∃ b, k.privates f.private_data = some b ∧
      call grants k (.ioctl file MSG_SLOT_CHANNEL param) =
        .ok (selected k f b param, ⟨-1, []⟩) := by
  obtain ⟨hlen, hnot⟩ := h.fullWithout_iff.mp hfull
  obtain ⟨_, b, hb, _⟩ := h.file file f hf
  have hne : nodes f.f_inode ≠ [] := by
    intro hnil
    rw [hnil] at hlen
    cases hlen
  refine ⟨b, hb, ?_⟩
  rw [call, hf]
  dsimp only
  rw [h.ioctl_full grants hf hb hparam hne hnot (h.full_iff.mpr hlen), ok_bind]

/-- A failed `ioctl` changes nothing, unless it asks a full slot for a channel that the slot has not
got and whose number the file does not hold yet. -/
theorem failed_ioctl_undone_iff {s : System} (hs : (messageSlots grants).Reachable s)
    (hf : s.kernel.files file = some f) (cmd : BitVec 32) (param : BitVec 64) :
    (∀ k' ret, call grants s.kernel (.ioctl file cmd param) = .ok (k', ret) → ret.value < 0 →
      Undone grants s.kernel k') ↔
    ¬ (cmd = MSG_SLOT_CHANNEL ∧ param ≠ 0#64 ∧ s.kernel.FullWithout f.f_inode (narrow param) ∧
      s.kernel.selection file ≠ some (f.f_inode, param)) := by
  obtain ⟨d, nodes, h⟩ := Orderly.of_reachable hs
  constructor
  · rintro hundone ⟨rfl, hparam, hfull, hsel⟩
    obtain ⟨b, hb, hcall⟩ := h.call_full grants hf hparam hfull
    have hsame := (hundone _ _ hcall (by decide)).same
    have hmoved : (selected s.kernel f b param).selection file = some (f.f_inode, param) :=
      selection_eq_some (k := selected s.kernel f b param) hf (selected_self s.kernel f b param)
    rw [hsame] at hmoved
    exact hsel hmoved
  · intro hgood k' ret hcall hneg
    have hsame : k' = s.kernel := by
      obtain ⟨d', nodes', ht⟩ := h.call_ok hcall
      cases ht with
      | reject => rfl
      | select => exact absurd hneg (by decide)
      | full hf' hb hparam hnot hlim =>
        obtain rfl := Option.some.inj (hf.symm.trans hf')
        refine selected_of_selection hf hb (not_not.mp fun hsel => hgood ⟨rfl, hparam, ?_, hsel⟩)
        exact h.fullWithout_iff.mpr ⟨h.full_iff.mp hlim, hnot⟩
      | linkRoot => exact absurd hneg (by decide)
      | linkLast => exact absurd hneg (by decide)
    exact ⟨hsame, fun ops => by rw [hsame]⟩

/-- The number that file 0 holds after it has made the next channel. -/
theorem Filled.next_chosen {n : ℕ} {s t : System} (h : Filled n s d nodes) (hn : n < LIST_LIMIT)
    (hst : (messageSlots fun _ => true).step s
      (.ioctl 0 MSG_SLOT_CHANNEL (BitVec.ofNat 64 (n + 1))) t) :
    t.kernel.selection 0 = some (0, BitVec.ofNat 64 (n + 1)) ∧
      ∃ bytes, t.kernel.Holds 0 (narrow (BitVec.ofNat 64 (n + 1))) bytes := by
  obtain ⟨ret, hcall, -⟩ := hst
  obtain ⟨d', nodes', ht⟩ := h.call_ok hcall
  obtain ⟨f, hf, hm⟩ := h.opened
  obtain ⟨hparam, hnot⟩ := h.next_new hn
  have hret : ret.value = 0 := by
    by_contra hret
    have hlen := (h.refused_iff (fun _ => true) hf hparam (by rwa [hm])).mp ⟨_, _, hcall, hret⟩
    rw [hm, h.length] at hlen
    exact absurd hlen hn.ne
  obtain ⟨f', hf', hgood, hhas⟩ := ht.chosen h.toStore hret
  obtain rfl := Option.some.inj (hf.symm.trans hf')
  obtain ⟨_, b, hb, _⟩ := h.file 0 f hf
  rw [hm] at hhas
  constructor
  · rw [ht.selection h.toStore, reselected, if_neg hgood, Function.update_self,
      selection_eq_some hf hb, hm]
    rfl
  · exact (h.turn ht).has_iff.mp hhas

/-- Slot 0 has 262143 channels. File 0 can read channel 262143; an `ioctl` for a further channel
returns -1, and the same read dereferences `NULL`. -/
theorem failed_ioctl_not_undone : ∃ s k₁ k' ret, (messageSlots fun _ => true).Reachable s ∧
    s.kernel.selection 0 = some (0, 262143#64) ∧
    call (fun _ => true) s.kernel (readAll 0) = .ok (k₁, ret) ∧
    call (fun _ => true) s.kernel (.ioctl 0 MSG_SLOT_CHANNEL 262144#64) = .ok (k', ⟨-1, []⟩) ∧
    k'.selection 0 = some (0, 262144#64) ∧
    call (fun _ => true) k' (readAll 0) = .error .segfault := by
  obtain ⟨s₀, d₀, nodes₀, hs₀, h₀⟩ := filled (n := 262142) (by decide)
  obtain ⟨s, d, nodes, hst, h⟩ := h₀.next (by decide)
  obtain ⟨hsel, bytes, hholds⟩ := h₀.next_chosen (by decide) hst
  obtain ⟨f, hf, hm⟩ := h.opened
  have hnot : ¬ Has s.kernel nodes 0 (narrow 262144#64) := by
    intro hhas
    exact absurd (h.small _ hhas) (by decide)
  have hfull : s.kernel.FullWithout f.f_inode (narrow 262144#64) := by
    rw [hm]
    exact h.fullWithout_iff.mpr ⟨h.length, hnot⟩
  obtain ⟨b, hb, hcall⟩ := h.call_full (fun _ => true) hf (by decide) hfull
  refine ⟨s, _, _, _, hs₀.step hst, hsel,
    call_read h.toStore hsel (h.holds_iff.mp hholds) (some fun _ => true) 128#64, hcall, ?_, ?_⟩
  · rw [← hm]
    exact selection_eq_some (k := selected s.kernel f b 262144#64) hf
      (selected_self s.kernel f b 262144#64)
  · have hlost : deviceRead (selected s.kernel f b 262144#64) f (some fun _ => true) 128#64 =
        .error .segfault :=
      (h.select hb 262144#64).deviceRead_lost hf (selected_self s.kernel f b 262144#64)
        (by rwa [hm]) (by decide) (by decide)
    rw [readAll, call, show (selected s.kernel f b 262144#64).files 0 = some f from hf]
    dsimp only
    rw [hlost]
    rfl

theorem failed_ioctl_undone_iff_sample : ∃ s k', (messageSlots fun _ => true).Reachable s ∧
    call (fun _ => true) s.kernel (.ioctl 1 MSG_SLOT_CHANNEL 0#64) = .ok (k', ⟨-EINVAL, []⟩) ∧
    Undone (fun _ => true) s.kernel k' := by
  obtain ⟨s, hs, hv⟩ := reachable_of_execute (show ((boot fun _ => true).bind fun s =>
    Machine.perform (execute fun _ => true) s sampleOps).map (fun s =>
      (s.kernel.files 1).isSome) = some true by decide +kernel)
  obtain ⟨f, hf⟩ := Option.isSome_iff_exists.mp hv
  have hcall : call (fun _ => true) s.kernel (.ioctl 1 MSG_SLOT_CHANNEL 0#64) =
      .ok (s.kernel, ⟨-EINVAL, []⟩) := by
    rw [call, hf]
    rfl
  refine ⟨s, s.kernel, hs, hcall, ?_⟩
  exact (failed_ioctl_undone_iff hs hf MSG_SLOT_CHANNEL 0#64).mpr (fun h => h.2.1 rfl) _ _ hcall
    (by decide)

/-! ## A write that cannot read its buffer -/

/-- What a write of `length` bytes of `buffer` owes to the channel `num` of slot `m`, whose number is in
the private data of its file. Where a position of the buffer is `none`, `get_user` faults. -/
structure Atomic (grants : ℕ → Bool) (k : Kernel) (file : ℕ) (m : Minor) (num : BitVec 64)
    (buffer : ℕ → Option Byte) (length : BitVec 64) (garbage : DataMessage) : Prop where
  faulting : (∃ i < length.toNat, buffer i = none) → ∃ k' ret,
    call grants k (.write file (some buffer) length garbage) = .ok (k', ret) ∧ ret.value < 0 ∧
    (∀ bytes, k'.Holds m (narrow num) bytes ↔ k.Holds m (narrow num) bytes) ∧
    ∀ buffer' length', (call grants k' (.read file buffer' length')).map Prod.snd =
      (call grants k (.read file buffer' length')).map Prod.snd
  whole : (∀ i < length.toNat, buffer i ≠ none) → ∃ k' ret bytes,
    call grants k (.write file (some buffer) length garbage) = .ok (k', ret) ∧
    k'.Holds m (narrow num) bytes ∧ bytes.length = length.toNat ∧
    ∀ i < length.toNat, bytes[i]? = buffer i

theorem payload_getElem? {buffer : ℕ → Option Byte} {n i : ℕ} (hi : i < n)
    (hb : buffer i ≠ none) : (payload buffer n)[i]? = buffer i := by
  obtain ⟨c, hc⟩ := Option.ne_none_iff_exists'.mp hb
  simp [payload, hi, hc]

/-- A write through a file on a channel stores its bytes there, with zeros for what it cannot read. -/
theorem Orderly.holds_written (h : Orderly k d nodes) (hsel : k.selection file = some (m, num))
    (hhas : Has k nodes m (narrow num)) {buffer : ℕ → Option Byte} {length : BitVec 64}
    {garbage : DataMessage} {ret : Ret} (hacc : Accepts (narrow num) (some buffer) length)
    (hcall : call grants k (.write file (some buffer) length garbage) = .ok (k', ret)) :
    k'.Holds m (narrow num) (payload buffer length.toNat) := by
  obtain ⟨d', nodes', ht⟩ := h.call_ok hcall
  obtain ⟨bytes, hs⟩ := hhas
  have hs' := ht.content h.toStore hs
  obtain ⟨f, b, hf, hb, rfl, rfl⟩ := selection_iff.mp hsel
  rw [rewritten_hit hf hb hacc] at hs'
  exact (h.turn ht).holds_iff.mpr hs'

/-! Channel 0 exists where an `ioctl` has chosen a number whose low half is zero. -/

/-- Nothing is ever written to a channel 0. -/
def ZeroEmpty (k : Kernel) (nodes : Minor → List Ptr) : Prop :=
  ∀ m bytes, Shows k nodes m 0#32 bytes → bytes = []

theorem Turn.zeroEmpty {op : Op} {d' : MessageSlotsDevices} {nodes' : Minor → List Ptr} {ret : Ret}
    (ht : Turn k d nodes op k' d' nodes' ret) (h : Store k d nodes) (hz : ZeroEmpty k nodes) :
    ZeroEmpty k' nodes' := by
  intro m bytes hs
  by_cases hw : ∀ file buffer length garbage, op = .write file buffer length garbage → ret.value < 0
  · rcases (ht.extends h hw).only m _ bytes hs with hs | ⟨rfl, _⟩
    · exact hz m bytes hs
    · rfl
  · simp only [not_forall, not_lt] at hw
    obtain ⟨file, _, length, garbage, rfl, hret⟩ := hw
    cases ht with
    | reject _ hres => exact absurd hret (not_le_of_gt hres.neg)
    | spill => exact absurd hret (by decide)
    | store _ _ hacc hp hc hid =>
      rw [stored_shows h hp hc _ hacc.2.2.2, if_neg] at hs
      · exact hz m bytes hs
      · rintro ⟨_, hzero⟩
        exact hacc.2.1 (hid ▸ hzero.symm)

theorem eq_nil_of_holds_zero {s : System} (hs : (messageSlots grants).Reachable s)
    {bytes : List Byte} (hholds : s.kernel.Holds m 0#32 bytes) : bytes = [] := by
  obtain ⟨d, nodes, h, hz⟩ : ∃ d nodes, Orderly s.kernel d nodes ∧ ZeroEmpty s.kernel nodes := by
    refine Machine.Reachable.invariant (I := fun s : System => ∃ d nodes, Orderly s.kernel d nodes ∧
      ZeroEmpty s.kernel nodes) ?_ ?_ hs
    · rintro s ⟨hk, _⟩
      refine ⟨_, _, .init hk, ?_⟩
      rintro m bytes ⟨p, hp, _⟩
      cases hp
    · rintro s op t ⟨d, nodes, h, hz⟩ ⟨ret, hcall, _⟩
      obtain ⟨d', nodes', ht⟩ := h.call_ok hcall
      exact ⟨d', nodes', h.turn ht, ht.zeroEmpty h.toStore hz⟩
  exact hz m bytes (h.holds_iff.mp hholds)

/-! What follows for the three ways in which a write can go. -/

theorem Atomic.call_ne_error {k : Kernel} {m : Minor} {num : BitVec 64} {buffer : ℕ → Option Byte}
    {length : BitVec 64} {garbage : DataMessage}
    (h : Atomic grants k file m num buffer length garbage) (err : Fault) :
    call grants k (.write file (some buffer) length garbage) ≠ .error err := by
  intro hcall
  by_cases hfault : ∃ i < length.toNat, buffer i = none
  · obtain ⟨_, _, hcall', _⟩ := h.faulting hfault
    rw [hcall] at hcall'
    cases hcall'
  · obtain ⟨_, _, _, hcall', _⟩ := h.whole (by simpa using hfault)
    rw [hcall] at hcall'
    cases hcall'

/-- A write that is turned down is atomic if there is a fault to turn it down for. -/
theorem atomic_rejected_iff {k : Kernel} {m : Minor} {num : BitVec 64} {buffer : ℕ → Option Byte}
    {length : BitVec 64} {garbage : DataMessage} {ret : Ret}
    (hcall : call grants k (.write file (some buffer) length garbage) = .ok (k, ret))
    (hneg : ret.value < 0) (hpos : 0 < length.toNat)
    (hempty : ∀ bytes, k.Holds m (narrow num) bytes → bytes = []) :
    Atomic grants k file m num buffer length garbage ↔ ∃ i < length.toNat, buffer i = none := by
  constructor
  · intro hatomic
    by_contra hfault
    obtain ⟨k', ret', bytes, hcall', hholds, hlen, -⟩ := hatomic.whole (by simpa using hfault)
    obtain ⟨rfl, _⟩ := Prod.mk.inj (Except.ok.inj (hcall.symm.trans hcall'))
    rw [hempty bytes hholds] at hlen
    exact absurd hlen hpos.ne
  · intro hfault
    refine ⟨fun _ => ⟨k, ret, hcall, hneg, fun _ => Iff.rfl, fun _ _ => rfl⟩, fun hall => ?_⟩
    obtain ⟨i, hi, hnone⟩ := hfault
    exact absurd hnone (hall i hi)

/-- A write that goes through is atomic if there is no fault. -/
theorem atomic_stored_iff {k : Kernel} {m : Minor} {num : BitVec 64} {buffer : ℕ → Option Byte}
    {length : BitVec 64} {garbage : DataMessage} {ret : Ret}
    (hcall : call grants k (.write file (some buffer) length garbage) = .ok (k', ret))
    (hret : 0 ≤ ret.value) (hholds : k'.Holds m (narrow num) (payload buffer length.toNat)) :
    Atomic grants k file m num buffer length garbage ↔ ∀ i < length.toNat, buffer i ≠ none := by
  constructor
  · intro hatomic i hi hnone
    obtain ⟨_, ret', hcall', hneg, _⟩ := hatomic.faulting ⟨i, hi, hnone⟩
    obtain ⟨_, rfl⟩ := Prod.mk.inj (Except.ok.inj (hcall.symm.trans hcall'))
    exact absurd hneg (not_lt_of_ge hret)
  · intro hall
    refine ⟨fun ⟨i, hi, hnone⟩ => absurd hnone (hall i hi), fun _ => ?_⟩
    exact ⟨k', ret, _, hcall, hholds, payload_length .., fun i hi => payload_getElem? hi (hall i hi)⟩

/-- What a copy that is not used leaves to the readers. -/
theorem Orderly.read_copied (h : Orderly k d nodes) (hf : k.files file = some f)
    (hb : k.privates f.private_data = some b) (hnot : ¬ Has k nodes f.f_inode (narrow b.channel_num))
    (message : DataMessage) (buffer : Option (ℕ → Bool)) (length : BitVec 64) :
    (call grants (copied k message) (.read file buffer length)).map Prod.snd =
      (call grants k (.read file buffer length)).map Prod.snd := by
  have hstore := h.copied_store message
  have hnot' : ¬ Has (copied k message) nodes f.f_inode (narrow b.channel_num) :=
    fun ⟨bytes, hs⟩ => hnot ⟨bytes, (h.copied_shows message ..).mp hs⟩
  rw [call, call, hf, show (copied k message).files file = some f from hf]
  dsimp only
  by_cases hask : Asks buffer length
  · obtain ⟨writable, rfl⟩ := Option.ne_none_iff_exists'.mp hask.1
    rw [h.deviceRead_lost hf hb hnot hask.2.1 hask.2.2,
      hstore.deviceRead_lost hf hb hnot' hask.2.1 hask.2.2]
    rfl
  · have hsame : deviceRead (copied k message) f buffer length = deviceRead k f buffer length := by
      have hprivates : (copied k message).privates f.private_data = some b := hb
      rw [deviceRead, deviceRead, deref_eq_ok.mpr hb, deref_eq_ok.mpr hprivates]
      cases buffer with
      | none => rfl
      | some writable =>
        have hbad : length = 0#64 ∨ BUFFER_LENGTH < length.toNat := by
          rw [length_eq_zero_iff]
          by_contra hgood
          exact hask ⟨by simp, by omega, by omega⟩
        rw [ok_bind, ok_bind]
        dsimp only
        rw [if_pos hbad, if_pos hbad]
    rw [hsame]
    cases deviceRead k f buffer length <;> rfl

/-- A write to a channel that is missing is atomic if there is a fault to turn it down for. -/
theorem Orderly.atomic_spilled_iff (h : Orderly k d nodes) (hf : k.files file = some f)
    (hb : k.privates f.private_data = some b) (hnot : ¬ Has k nodes f.f_inode (narrow b.channel_num))
    {buffer : ℕ → Option Byte} {length : BitVec 64} {garbage message : DataMessage}
    (hcall : call grants k (.write file (some buffer) length garbage) =
      .ok (copied k message, ⟨-EINVAL, []⟩)) :
    Atomic grants k file f.f_inode b.channel_num buffer length garbage ↔
      ∃ i < length.toNat, buffer i = none := by
  have hholds : ∀ bytes, (copied k message).Holds f.f_inode (narrow b.channel_num) bytes ↔
      k.Holds f.f_inode (narrow b.channel_num) bytes := by
    intro bytes
    rw [(h.copied_store message).holds_iff, h.holds_iff, h.copied_shows]
  constructor
  · intro hatomic
    by_contra hfault
    obtain ⟨k', ret', bytes, hcall', hnew, -⟩ := hatomic.whole (by simpa using hfault)
    obtain ⟨rfl, _⟩ := Prod.mk.inj (Except.ok.inj (hcall.symm.trans hcall'))
    exact hnot ⟨bytes, h.holds_iff.mp ((hholds bytes).mp hnew)⟩
  · intro hfault
    refine ⟨fun _ => ⟨_, _, hcall, by decide, hholds, h.read_copied hf hb hnot message⟩,
      fun hall => ?_⟩
    obtain ⟨i, hi, hnone⟩ := hfault
    exact absurd hnone (hall i hi)

/-- A write of 1 to 128 bytes through a file with `num` in its private data is atomic exactly if that
channel is there, every byte can be read, memory is granted and the low half of `num` is not zero; or
if it is turned down, for that half or for want of the channel, and some byte cannot be read. -/
theorem write_atomic_iff {s : System} (hs : (messageSlots grants).Reachable s)
    (hsel : s.kernel.selection file = some (m, num)) (buffer : ℕ → Option Byte)
    {length : BitVec 64} (hpos : 0 < length.toNat) (hle : length.toNat ≤ BUFFER_LENGTH)
    (garbage : DataMessage) :
    Atomic grants s.kernel file m num buffer length garbage ↔
      ((∃ bytes, s.kernel.Holds m (narrow num) bytes) ∧ narrow num ≠ 0#32 ∧
        grants s.kernel.fresh = true ∧ ∀ i < length.toNat, buffer i ≠ none) ∨
      ((narrow num = 0#32 ∨
          (¬ ∃ bytes, s.kernel.Holds m (narrow num) bytes) ∧ grants s.kernel.fresh = true) ∧
        ∃ i < length.toNat, buffer i = none) := by
  obtain ⟨d, nodes, h⟩ := Orderly.of_reachable hs
  have hthere : (∃ bytes, s.kernel.Holds m (narrow num) bytes) ↔ Has s.kernel nodes m (narrow num) :=
    exists_congr fun _ => h.holds_iff
  rw [hthere]
  obtain ⟨f, b, hf, hb, rfl, rfl⟩ := selection_iff.mp hsel
  rcases h.call_write grants hf hb (some buffer) length garbage with
    ⟨hacc, res, hres, hcall⟩ | ⟨hacc, hg, hcall⟩ | ⟨_, ⟨⟩, hacc, hg, hnot, hcall⟩ |
    ⟨_, ⟨⟩, hacc, hg, p, hp, c, hc, hid, hcall⟩
  · -- turned down: the low half of the number is zero
    have hzero : narrow b.channel_num = 0#32 := by
      by_contra hne
      exact hacc ⟨by simp, hne, hpos, hle⟩
    have hempty : ∀ bytes, s.kernel.Holds f.f_inode (narrow b.channel_num) bytes → bytes = [] := by
      rw [hzero]
      exact fun _ => eq_nil_of_holds_zero hs
    rw [atomic_rejected_iff hcall hres.neg hpos hempty]
    simp [hzero]
  · -- no memory: the write faults
    refine iff_of_false (fun hatomic => hatomic.call_ne_error _ hcall) ?_
    rintro (⟨_, _, hg', _⟩ | ⟨hzero | ⟨_, hg'⟩, _⟩)
    · rw [hg] at hg'
      cases hg'
    · exact hacc.2.1 hzero
    · rw [hg] at hg'
      cases hg'
  · -- the channel is missing
    rw [h.atomic_spilled_iff hf hb hnot hcall]
    simp [hnot, hg]
  · -- accepted: the message is replaced, whatever could be read
    have hhas : Has s.kernel nodes f.f_inode (narrow b.channel_num) := hid ▸ h.has_of_at hp hc
    rw [atomic_stored_iff hcall (Int.natCast_nonneg _) (h.holds_written hsel hhas hacc hcall)]
    simp [hhas, hacc.2.1, hg]

/-- A write of two bytes of which only the first, an `A`, can be read. -/
def writeHalf (file : ℕ) : Op := .write file (some fun l => [65#8][l]?) 2#64 fun _ => 0#8

/-- The write returns 2, and the message `AB` has become an `A` and a zero. -/
theorem write_not_atomic : ∃ s k₀ k₁ k₂, (messageSlots fun _ => true).Reachable s ∧
    s.kernel.selection 0 = some (5, 7#64) ∧
    call (fun _ => true) s.kernel (readAll 0) = .ok (k₀, ⟨2, [65#8, 66#8]⟩) ∧
    call (fun _ => true) s.kernel (writeHalf 0) = .ok (k₁, ⟨2, []⟩) ∧
    call (fun _ => true) k₁ (readAll 0) = .ok (k₂, ⟨2, [65#8, 0#8]⟩) := by
  obtain ⟨s, hs, hv⟩ := reachable_of_execute (show ((boot fun _ => true).bind fun s =>
    Machine.perform (execute fun _ => true) s sampleOps).map (fun s =>
      (s.kernel.selection 0, observeCalls s.kernel (readAll 0) (readAll 0),
        observeCalls s.kernel (writeHalf 0) (readAll 0))) =
      some (some (5, 7#64), some (⟨2, [65#8, 66#8]⟩, ⟨2, [65#8, 66#8]⟩),
        some (⟨2, []⟩, ⟨2, [65#8, 0#8]⟩)) by decide +kernel)
  obtain ⟨hfile, hv⟩ := Prod.mk.inj hv
  obtain ⟨hread, hwrite⟩ := Prod.mk.inj hv
  obtain ⟨k₀, _, h₀, _⟩ := of_observeCalls hread
  obtain ⟨k₁, k₂, h₁, h₂⟩ := of_observeCalls hwrite
  exact ⟨s, k₀, k₁, k₂, hs, hfile, h₀, h₁, h₂⟩

theorem write_atomic_iff_sample : ∃ s, (messageSlots fun _ => true).Reachable s ∧
    Atomic (fun _ => true) s.kernel 0 5 7#64 (fun _ => some 65#8) 1#64 fun _ => 0#8 := by
  obtain ⟨s, hs, hv⟩ := reachable_of_execute (show ((boot fun _ => true).bind fun s =>
    Machine.perform (execute fun _ => true) s sampleOps).map (fun s =>
      (s.kernel.selection 0, s.journal.files 0)) = some (some (5, 7#64), some (5, some 7#64)) by
        decide +kernel)
  obtain ⟨hsel, hfile⟩ := Prod.mk.inj hv
  obtain ⟨d, nodes, h, hfollows⟩ := followed_of_reachable hs
  obtain ⟨bytes, hshows⟩ := (hfollows.chosen 0 5 7#64 hfile).2
  exact ⟨s, hs, (write_atomic_iff hs hsel _ (by decide) (by decide) _).mpr
    (Or.inl ⟨⟨bytes, h.holds_iff.mpr hshows⟩, by decide, rfl, by simp⟩)⟩

end OsCourse.MessageSlot
