import OsCourse.MessageSlot.Operations

/-! # What a call can do

On a store every system call either faults or does one of the things listed in `Turn`.
Allocations may fail here. Each invariant of the module is proved by cases over this
list.
-/

namespace OsCourse.MessageSlot

variable {grants : ℕ → Bool} {k k' : Kernel} {d : MessageSlotsDevices} {nodes : Minor → List Ptr}
  {f : File} {b : PrivateData} {m : Minor} {file : ℕ}

/-! ## The memory after a call -/

/-- `device_open` has allocated the private data. -/
def opened (k : Kernel) (m : Minor) (garbage : BitVec 64) : Kernel :=
  { k with
    fresh := k.fresh + 1
    privates := Function.update k.privates k.fresh (some ⟨m, garbage⟩) }

/-- `device_open` has allocated a slot. -/
def slotted (k : Kernel) (d : MessageSlotsDevices) (m : Minor) : Kernel :=
  { k with
    fresh := k.fresh + 1
    slots := Function.update k.slots k.fresh (some 0)
    devices := some { d with minors := Function.update d.minors m k.fresh }
    numOfDrivers := k.numOfDrivers + 1 }

def filed (k : Kernel) (file : ℕ) (f : File) : Kernel :=
  { k with files := Function.update k.files file (some f) }

def selected (k : Kernel) (f : File) (b : PrivateData) (param : BitVec 64) : Kernel :=
  { k with
    privates := Function.update k.privates f.private_data (some { b with channel_num := param }) }

def MessageSlotsDevices.bumped (d : MessageSlotsDevices) (m : Minor) (n : BitVec 64) :
    MessageSlotsDevices :=
  { d with numOfChannels := Function.update d.numOfChannels m (d.numOfChannels m + n) }

/-- The node `a` has become the root of an empty list. -/
def linkedRoot (k : Kernel) (d : MessageSlotsDevices) (m : Minor) (a : Ptr) : Kernel :=
  { k with
    slots := Function.update k.slots (d.minors m) (some a)
    devices := some (d.bumped m 8#64) }

/-- The node `a` has been linked behind `last`. -/
def linkedLast (k : Kernel) (d : MessageSlotsDevices) (m : Minor) (last : Ptr) (c : MessageChannel)
    (a : Ptr) : Kernel :=
  { k with
    channels := Function.update k.channels last (some { c with next_node := a })
    devices := some (d.bumped m 4#64) }

/-- The channel `c` at `p` has got the message at `q`, of `n` bytes. -/
def stored (k : Kernel) (p : Ptr) (c : MessageChannel) (n : ℕ) (q : Ptr) : Kernel :=
  { k with
    channels := Function.update k.channels p (some { c with size := n, message := q }) }

def released (k : Kernel) (file : ℕ) (f : File) : Kernel :=
  { k with
    privates := Function.update k.privates f.private_data none
    files := Function.update k.files file none }

/-- The channel number as `device_read` and `device_write` narrow it, and `initiate_channel`. -/
abbrev narrow (channel_num : BitVec 64) : BitVec 32 := channel_num.setWidth 32

open Store

/-- A call that is turned down by its first checks. -/
def Rejected (k : Kernel) : Op → Prop
  | .open file _ _ => (k.files file).isSome
  | .ioctl file cmd param => k.files file = none ∨ param = 0#64 ∨ cmd ≠ MSG_SLOT_CHANNEL
  | .write file buffer length _ => k.files file = none ∨
      ∃ f b, k.files file = some f ∧ k.privates f.private_data = some b ∧
        ¬ Accepts (narrow b.channel_num) buffer length
  | .read .. => False
  | .release file => k.files file = none

/-- What a call that returns does to a store. The last `Ret` is what it returns. -/
inductive Turn (k : Kernel) (d : MessageSlotsDevices) (nodes : Minor → List Ptr) :
    Op → Kernel → MessageSlotsDevices → (Minor → List Ptr) → Ret → Prop where
  | reject {op : Op} {res : ℤ} (hop : Rejected k op) (hres : Rejection res) :
      Turn k d nodes op k d nodes ⟨res, []⟩
  | read {file : ℕ} {buffer : Option (ℕ → Bool)} {length : BitVec 64} {ret : Ret} :
      Turn k d nodes (.read file buffer length) k d nodes ret
  | refuse {file : ℕ} {m : Minor} {garbage : BitVec 64} (hfile : k.files file = none) :
      Turn k d nodes (.open file m garbage) { k with fresh := k.fresh + 1 } d nodes ⟨1, []⟩
  | reopen {file : ℕ} {m : Minor} {garbage : BitVec 64} (hfile : k.files file = none)
      (hm : d.minors m ≠ 0) :
      Turn k d nodes (.open file m garbage) (filed (opened k m garbage) file ⟨m, k.fresh⟩) d nodes
        ⟨0, []⟩
  | create {file : ℕ} {m : Minor} {garbage : BitVec 64} (hfile : k.files file = none)
      (hm : d.minors m = 0) :
      Turn k d nodes (.open file m garbage)
        (filed (slotted (opened k m garbage) d m) file ⟨m, k.fresh⟩)
        { d with minors := Function.update d.minors m (k.fresh + 1) } nodes ⟨0, []⟩
  | select {file : ℕ} {f : File} {b : PrivateData} {param : BitVec 64}
      (hf : k.files file = some f) (hb : k.privates f.private_data = some b)
      (hparam : param ≠ 0#64) (hhas : Has k nodes f.f_inode (narrow param)) :
      Turn k d nodes (.ioctl file MSG_SLOT_CHANNEL param) (selected k f b param) d nodes ⟨0, []⟩
  | full {file : ℕ} {f : File} {b : PrivateData} {param : BitVec 64}
      (hf : k.files file = some f) (hb : k.privates f.private_data = some b)
      (hparam : param ≠ 0#64) (hnot : ¬ Has k nodes f.f_inode (narrow param))
      (hlim : CHANNELS_LIMIT ≤ (d.numOfChannels f.f_inode).toNat) :
      Turn k d nodes (.ioctl file MSG_SLOT_CHANNEL param) (selected k f b param) d nodes ⟨-1, []⟩
  | linkRoot {file : ℕ} {f : File} {b : PrivateData} {param : BitVec 64}
      (hf : k.files file = some f) (hb : k.privates f.private_data = some b)
      (hparam : param ≠ 0#64) (hnil : nodes f.f_inode = []) :
      Turn k d nodes (.ioctl file MSG_SLOT_CHANNEL param)
        (linkedRoot (created (selected k f b param) (narrow param)) d f.f_inode k.fresh)
        (d.bumped f.f_inode 8#64) (appended nodes f.f_inode k.fresh) ⟨0, []⟩
  | linkLast {file : ℕ} {f : File} {b : PrivateData} {param : BitVec 64} {l : List Ptr} {last : Ptr}
      {c : MessageChannel} (hf : k.files file = some f) (hb : k.privates f.private_data = some b)
      (hparam : param ≠ 0#64) (hnot : ¬ Has k nodes f.f_inode (narrow param))
      (hlim : (d.numOfChannels f.f_inode).toNat < CHANNELS_LIMIT)
      (hnodes : nodes f.f_inode = l ++ [last]) (hc : k.At last c) :
      Turn k d nodes (.ioctl file MSG_SLOT_CHANNEL param)
        (linkedLast (created (selected k f b param) (narrow param)) d f.f_inode last c k.fresh)
        (d.bumped f.f_inode 4#64) (appended nodes f.f_inode k.fresh) ⟨0, []⟩
  | spill {file : ℕ} {f : File} {b : PrivateData} {buffer : ℕ → Option Byte} {length : BitVec 64}
      {garbage : DataMessage} (hf : k.files file = some f)
      (hb : k.privates f.private_data = some b)
      (hacc : Accepts (narrow b.channel_num) (some buffer) length)
      (hnot : ¬ Has k nodes f.f_inode (narrow b.channel_num)) :
      Turn k d nodes (.write file (some buffer) length garbage)
        (copied k (copyIn buffer length.toNat garbage)) d nodes ⟨-EINVAL, []⟩
  | store {file : ℕ} {f : File} {b : PrivateData} {buffer : ℕ → Option Byte} {length : BitVec 64}
      {garbage : DataMessage} {p : Ptr} {c : MessageChannel} (hf : k.files file = some f)
      (hb : k.privates f.private_data = some b)
      (hacc : Accepts (narrow b.channel_num) (some buffer) length) (hp : p ∈ nodes f.f_inode)
      (hc : k.At p c) (hid : c.channel_id = narrow b.channel_num) :
      Turn k d nodes (.write file (some buffer) length garbage)
        (stored (copied k (copyIn buffer length.toNat garbage)) p c length.toNat k.fresh) d nodes
        ⟨length.toNat, []⟩
  | release {file : ℕ} {f : File} (hf : k.files file = some f) :
      Turn k d nodes (.release file) (released k file f) d nodes ⟨0, []⟩

/-- An allocation that the next step asks for fails. -/
def Starved (grants : ℕ → Bool) (k : Kernel) : Prop :=
  grants k.fresh = false ∨ grants (k.fresh + 1) = false

/-- A read that gets past its checks on a file whose channel does not exist. -/
def Lost (k : Kernel) (nodes : Minor → List Ptr) : Op → Prop
  | .read file buffer length => buffer ≠ none ∧ 0 < length.toNat ∧ length.toNat ≤ BUFFER_LENGTH ∧
      ∃ f b, k.files file = some f ∧ k.privates f.private_data = some b ∧
        ¬ Has k nodes f.f_inode (narrow b.channel_num)
  | _ => False

theorem Has.ne_nil {id : BitVec 32} (h : Has k nodes m id) : nodes m ≠ [] := by
  obtain ⟨_, p, hp, _⟩ := h
  exact List.ne_nil_of_mem hp

namespace Store

/-! ## Allocation -/

theorem kmalloc_granted (h : grants k.fresh = true) :
    kmalloc grants k = ({ k with fresh := k.fresh + 1 }, k.fresh) := by
  rw [kmalloc, if_pos h]

theorem kmalloc_refused (h : grants k.fresh = false) :
    kmalloc grants k = ({ k with fresh := k.fresh + 1 }, 0) := by
  rw [kmalloc, h, if_neg Bool.false_ne_true]

theorem not_starved (h : ¬ Starved grants k) :
    grants k.fresh = true ∧ grants (k.fresh + 1) = true := by
  rw [Starved, not_or] at h
  simpa using h

theorem initiateChannel_granted (h : Store k d nodes) (hg : ¬ Starved grants k) (id : BitVec 32) :
    initiateChannel grants k id = .ok (created k id, k.fresh) := by
  obtain ⟨h₁, h₂⟩ := not_starved hg
  have hk : kmalloc grants { k with fresh := k.fresh + 1 } = _ := kmalloc_granted h₂
  rw [initiateChannel, kmalloc_granted h₁]
  dsimp only
  rw [if_neg h.fresh_ne_zero, hk]
  dsimp only
  rw [if_neg (Nat.succ_ne_zero _)]
  rfl

theorem initiateChannel_starved (hg : Starved grants k) (id : BitVec 32) :
    initiateChannel grants k id = .error .segfault := by
  rw [initiateChannel]
  cases h₁ : grants k.fresh with
  | false =>
    rw [kmalloc_refused h₁]
    rfl
  | true =>
    have h₂ : grants (k.fresh + 1) = false := hg.resolve_left (by simp [h₁])
    have hk : kmalloc grants { k with fresh := k.fresh + 1 } = _ := kmalloc_refused h₂
    rw [kmalloc_granted h₁]
    dsimp only
    split
    · rfl
    · rw [hk]
      rfl

/-! ## `device_open` -/

theorem deviceOpen_refused (hg : grants k.fresh = false) (m : Minor) (garbage : BitVec 64) :
    deviceOpen grants k m garbage = .ok ({ k with fresh := k.fresh + 1 }, 0, 1) := by
  rw [deviceOpen, kmalloc_refused hg]
  rfl

theorem deviceOpen_reopen (h : Store k d nodes) (hg : grants k.fresh = true)
    (hm : d.minors m ≠ 0) (garbage : BitVec 64) :
    deviceOpen grants k m garbage = .ok (opened k m garbage, k.fresh, 0) := by
  rw [deviceOpen, kmalloc_granted hg]
  dsimp only
  rw [if_neg h.fresh_ne_zero, h.deref_table, ok_bind, if_neg hm]
  rfl

theorem deviceOpen_create (h : Store k d nodes) (hg : ¬ Starved grants k) (hm : d.minors m = 0)
    (hdrivers : k.numOfDrivers ≠ (MINORS_LIMIT : ℤ)) (garbage : BitVec 64) :
    deviceOpen grants k m garbage = .ok (slotted (opened k m garbage) d m, k.fresh, 0) := by
  obtain ⟨h₁, h₂⟩ := not_starved hg
  have hk : kmalloc grants (opened k m garbage) = _ := kmalloc_granted h₂
  rw [opened] at hk
  rw [deviceOpen, kmalloc_granted h₁]
  dsimp only
  rw [if_neg h.fresh_ne_zero, h.deref_table, ok_bind, if_pos hm, if_neg hdrivers, hk]
  dsimp only
  rw [if_neg (Nat.succ_ne_zero _)]
  rfl

theorem deviceOpen_starved (h : Store k d nodes) (h₁ : grants k.fresh = true)
    (h₂ : grants (k.fresh + 1) = false) (hm : d.minors m = 0)
    (hdrivers : k.numOfDrivers ≠ (MINORS_LIMIT : ℤ)) (garbage : BitVec 64) :
    deviceOpen grants k m garbage = .error .segfault := by
  have hk : kmalloc grants (opened k m garbage) = _ := kmalloc_refused h₂
  rw [opened] at hk
  rw [deviceOpen, kmalloc_granted h₁]
  dsimp only
  rw [if_neg h.fresh_ne_zero, h.deref_table, ok_bind, if_pos hm, if_neg hdrivers, hk]
  rfl

/-! ## `ioctl` -/

theorem ioctl_invalid {cmd : BitVec 32} {param : BitVec 64}
    (hbad : param = 0#64 ∨ cmd ≠ MSG_SLOT_CHANNEL) :
    ioctl grants k f cmd param = .ok (k, -EINVAL) := by
  rw [ioctl, if_pos hbad]

theorem bumped_bumped (d : MessageSlotsDevices) (m : Minor) :
    (d.bumped m 4#64).bumped m 4#64 = d.bumped m 8#64 := by
  simp only [MessageSlotsDevices.bumped, Function.update_self, Function.update_idem,
    BitVec.add_assoc]
  rfl

theorem bumpChannels_bumped (h : k.devices = some d) (m : Minor) :
    bumpChannels k m = .ok { k with devices := some (d.bumped m 4#64) } := bumpChannels_eq h m

section
variable {param : BitVec 64}

theorem select (h : Store k d nodes) (hb : k.privates f.private_data = some b)
    (param : BitVec 64) : Store (selected k f b param) d nodes := h.selected_store hb param

theorem selectChannel_selected (hb : k.privates f.private_data = some b) :
    selectChannel k f param = .ok (selected k f b param) := selectChannel_eq hb param

variable (grants) in
/-- `ioctl` up to the list of its slot. -/
theorem ioctl_list (h : Store k d nodes) (hf : k.files file = some f)
    (hb : k.privates f.private_data = some b) (hparam : param ≠ 0#64) :
    ∃ root, k.slots (d.minors f.f_inode) = some root ∧ k.ListAt root (nodes f.f_inode) ∧
      (root = 0 → ioctl grants k f MSG_SLOT_CHANNEL param =
        addFirstChannel grants (selected k f b param) f.f_inode (d.minors f.f_inode)
          (narrow param)) ∧
      (root ≠ 0 → ∀ p, findChannel (selected k f b param) (narrow param) k.fresh root = .ok p →
        ioctl grants k f MSG_SLOT_CHANNEL param =
          (if p = 0 then
              addFurtherChannel grants (selected k f b param) f.f_inode root (narrow param)
            else .ok (selected k f b param, 0)) >>= fun r =>
          if r.2 ≠ 0 then .ok r
          else selectChannel r.1 f param >>= fun k => .ok (k, 0)) := by
  obtain ⟨hslot, _⟩ := h.file file f hf
  obtain ⟨root, hroot, hlist⟩ := h.slot f.f_inode hslot
  have hderef : deref ((selected k f b param).slots (d.minors f.f_inode)) = .ok root :=
    deref_eq_ok.mpr hroot
  refine ⟨root, hroot, hlist, fun hr => ?_, fun hr p hfind => ?_⟩
  · rw [ioctl, if_neg (by simp [hparam]), selectChannel_selected hb, ok_bind,
      (h.select hb param).deref_table, ok_bind]
    dsimp only
    rw [if_neg hslot, hderef, ok_bind, if_pos hr]
  · rw [ioctl, if_neg (by simp [hparam]), selectChannel_selected hb, ok_bind,
      (h.select hb param).deref_table, ok_bind]
    dsimp only
    rw [if_neg hslot, hderef, ok_bind, if_neg hr,
      show (selected k f b param).fresh = k.fresh from rfl, hfind, ok_bind]
    split <;> rfl

theorem selected_self (k : Kernel) (f : File) (b : PrivateData) (param : BitVec 64) :
    (selected k f b param).privates f.private_data = some { b with channel_num := param } :=
  Function.update_self ..

/-- Choosing the same channel again changes nothing. -/
theorem reselect (hk : k'.privates f.private_data = some { b with channel_num := param }) :
    selectChannel k' f param = .ok k' := by
  rw [selectChannel_selected hk, selected]
  exact congrArg _ (by rw [← hk, Function.update_eq_self])

theorem root_ne_zero {root : Ptr} (hlist : k.ListAt root (nodes m)) (hne : nodes m ≠ []) :
    root ≠ 0 := by
  rintro rfl
  exact hne (hlist.unique (show k.ListAt 0 [] from rfl))

theorem ioctl_select (h : Store k d nodes) (hf : k.files file = some f)
    (hb : k.privates f.private_data = some b) (hparam : param ≠ 0#64)
    (hhas : Has k nodes f.f_inode (narrow param)) :
    ioctl grants k f MSG_SLOT_CHANNEL param = .ok (selected k f b param, 0) := by
  obtain ⟨root, _, hlist, _, heq⟩ := ioctl_list grants h hf hb hparam
  rcases (h.select hb param).find_spec hlist (narrow param) with
    ⟨p, _, _, _, _, hp, hfind⟩ | ⟨hnot, _, _⟩
  · rw [heq (root_ne_zero hlist (Has.ne_nil hhas)) p hfind, if_neg hp, ok_bind]
    dsimp only
    rw [if_neg (by simp), reselect (selected_self ..), ok_bind]
  · exact absurd hhas hnot

theorem ioctl_first (h : Store k d nodes) (hf : k.files file = some f)
    (hb : k.privates f.private_data = some b) (hparam : param ≠ 0#64)
    (hnil : nodes f.f_inode = []) :
    ioctl grants k f MSG_SLOT_CHANNEL param =
      addFirstChannel grants (selected k f b param) f.f_inode (d.minors f.f_inode)
        (narrow param) := by
  obtain ⟨root, _, hlist, heq, _⟩ := ioctl_list grants h hf hb hparam
  rw [hnil] at hlist
  exact heq hlist

theorem addFirstChannel_granted (h : Store k d nodes) (hg : ¬ Starved grants k) (m : Minor)
    (id : BitVec 32) :
    addFirstChannel grants k m (d.minors m) id =
      .ok (linkedRoot (created k id) d m k.fresh, 0) := by
  rw [addFirstChannel, h.initiateChannel_granted hg, ok_bind]
  dsimp only
  rw [if_neg h.fresh_ne_zero, bumpChannels_bumped (h.created_store id).table, ok_bind]
  dsimp only
  rw [bumpChannels_bumped rfl, ok_bind, bumped_bumped]
  rfl

theorem addFirstChannel_starved (hg : Starved grants k) (m : Minor) (curr_slot : Ptr)
    (id : BitVec 32) : addFirstChannel grants k m curr_slot id = .error .segfault := by
  rw [addFirstChannel, initiateChannel_starved hg]
  rfl

theorem addFurtherChannel_full (h : Store k d nodes)
    (hlim : CHANNELS_LIMIT ≤ (d.numOfChannels m).toNat) (root : Ptr) (id : BitVec 32) :
    addFurtherChannel grants k m root id = .ok (k, -1) := by
  rw [addFurtherChannel, h.deref_table, ok_bind, if_pos hlim]

theorem addFurtherChannel_starved (h : Store k d nodes)
    (hlim : (d.numOfChannels m).toNat < CHANNELS_LIMIT) (hg : Starved grants k) (root : Ptr)
    (id : BitVec 32) : addFurtherChannel grants k m root id = .error .segfault := by
  rw [addFurtherChannel, h.deref_table, ok_bind, if_neg (Nat.not_le.mpr hlim),
    initiateChannel_starved hg]
  rfl

/-- The new channel is linked behind the last one. -/
theorem addFurtherChannel_granted (h : Store k d nodes) (hm : d.minors m ≠ 0)
    (hlim : (d.numOfChannels m).toNat < CHANNELS_LIMIT) (hg : ¬ Starved grants k) {root : Ptr}
    (hroot : k.slots (d.minors m) = some root) {l : List Ptr} {last : Ptr} {c : MessageChannel}
    (hnodes : nodes m = l ++ [last]) (hc : k.At last c) (id : BitVec 32) :
    addFurtherChannel grants k m root id =
      .ok (linkedLast (created k id) d m last c k.fresh, 0) := by
  have hcs := h.created_store id
  have hlast : last ≠ k.fresh := ne_of_none (h.channels_none _ (fresh_unused k 0)) hc
  have hcl : (created k id).At last c := (Function.update_of_ne hlast ..).trans hc
  obtain ⟨root', hroot', hlist⟩ := hcs.slot m hm
  obtain rfl : root = root' := Option.some.inj (hroot.symm.trans hroot')
  have hlen := hcs.length_lt hlist
  rw [hnodes] at hlist hlen
  rw [List.length_append] at hlen
  have hadd : addNode (created k id) k.fresh (created k id).fresh root = .ok _ :=
    addNode_last hlist (Nat.lt_of_le_of_lt (Nat.le_add_right ..) hlen) hcl
  rw [addFurtherChannel, h.deref_table, ok_bind, if_neg (Nat.not_le.mpr hlim),
    h.initiateChannel_granted hg, ok_bind]
  dsimp only
  rw [if_neg h.fresh_ne_zero, hadd, ok_bind, bumpChannels_bumped (by exact hcs.table), ok_bind]
  rfl

variable (grants) in
/-- A channel that is missing from a list. -/
theorem ioctl_further (h : Store k d nodes) (hf : k.files file = some f)
    (hb : k.privates f.private_data = some b) (hparam : param ≠ 0#64)
    (hne : nodes f.f_inode ≠ []) (hnot : ¬ Has k nodes f.f_inode (narrow param)) :
    ∃ root, k.slots (d.minors f.f_inode) = some root ∧ k.ListAt root (nodes f.f_inode) ∧
      ioctl grants k f MSG_SLOT_CHANNEL param =
        addFurtherChannel grants (selected k f b param) f.f_inode root (narrow param) >>= fun r =>
          if r.2 ≠ 0 then .ok r
          else selectChannel r.1 f param >>= fun k => .ok (k, 0) := by
  obtain ⟨root, hroot, hlist, _, heq⟩ := ioctl_list grants h hf hb hparam
  refine ⟨root, hroot, hlist, ?_⟩
  rcases (h.select hb param).find_spec hlist (narrow param) with
    ⟨p, hp, c, hc, hid, _, _⟩ | ⟨_, _, hfind⟩
  · obtain ⟨_, _, hs⟩ := (h.select hb param).shows_of_at hp hc
    exact absurd ⟨_, hid ▸ hs⟩ hnot
  · rw [heq (root_ne_zero hlist hne) 0 hfind, if_pos rfl]

variable (grants) in
theorem ioctl_full (h : Store k d nodes) (hf : k.files file = some f)
    (hb : k.privates f.private_data = some b) (hparam : param ≠ 0#64)
    (hne : nodes f.f_inode ≠ []) (hnot : ¬ Has k nodes f.f_inode (narrow param))
    (hlim : CHANNELS_LIMIT ≤ (d.numOfChannels f.f_inode).toNat) :
    ioctl grants k f MSG_SLOT_CHANNEL param = .ok (selected k f b param, -1) := by
  obtain ⟨root, _, _, heq⟩ := ioctl_further grants h hf hb hparam hne hnot
  rw [heq, (h.select hb param).addFurtherChannel_full hlim, ok_bind]
  rfl

theorem ioctl_last (h : Store k d nodes) (hf : k.files file = some f)
    (hb : k.privates f.private_data = some b) (hparam : param ≠ 0#64)
    (hnot : ¬ Has k nodes f.f_inode (narrow param))
    (hlim : (d.numOfChannels f.f_inode).toNat < CHANNELS_LIMIT) {l : List Ptr} {last : Ptr}
    {c : MessageChannel} (hnodes : nodes f.f_inode = l ++ [last]) (hc : k.At last c)
    (hg : ¬ Starved grants k) :
    ioctl grants k f MSG_SLOT_CHANNEL param =
      .ok (linkedLast (created (selected k f b param) (narrow param)) d f.f_inode last c k.fresh,
        0) := by
  obtain ⟨root, hroot, _, heq⟩ :=
    ioctl_further grants h hf hb hparam (by simp [hnodes]) hnot
  have hself : (linkedLast (created (selected k f b param) (narrow param)) d f.f_inode last c
      k.fresh).privates f.private_data = some { b with channel_num := param } :=
    selected_self k f b param
  have hadd : addFurtherChannel grants (selected k f b param) f.f_inode root (narrow param) =
      .ok (linkedLast (created (selected k f b param) (narrow param)) d f.f_inode last c k.fresh,
        0) :=
    (h.select hb param).addFurtherChannel_granted (h.file file f hf).1 hlim hg hroot hnodes hc _
  rw [heq, hadd, ok_bind]
  dsimp only
  rw [if_neg (by simp), reselect hself, ok_bind]

theorem ioctl_starved (h : Store k d nodes) (hf : k.files file = some f)
    (hb : k.privates f.private_data = some b) (hparam : param ≠ 0#64)
    (hne : nodes f.f_inode ≠ []) (hnot : ¬ Has k nodes f.f_inode (narrow param))
    (hlim : (d.numOfChannels f.f_inode).toNat < CHANNELS_LIMIT) (hg : Starved grants k) :
    ioctl grants k f MSG_SLOT_CHANNEL param = .error .segfault := by
  obtain ⟨root, _, _, heq⟩ := ioctl_further grants h hf hb hparam hne hnot
  rw [heq, (h.select hb param).addFurtherChannel_starved hlim hg]
  rfl

end

/-! ## `device_write` and `device_read` -/

section
variable {buffer : ℕ → Option Byte} {length : BitVec 64}

/-- `device_write` up to the list of the slot. -/
theorem deviceWrite_list (h : Store k d nodes) (hf : k.files file = some f)
    (hb : k.privates f.private_data = some b)
    (hacc : Accepts (narrow b.channel_num) (some buffer) length) (hg : grants k.fresh = true)
    (garbage : DataMessage) :
    ∃ root, k.ListAt root (nodes f.f_inode) ∧
      ∀ p, findChannel (copied k (copyIn buffer length.toNat garbage)) (narrow b.channel_num)
          (k.fresh + 1) root = .ok p →
        deviceWrite grants k f (some buffer) length garbage =
          if p = 0 then .ok (copied k (copyIn buffer length.toNat garbage), -EINVAL)
          else deref (k.channels p) >>= fun c =>
            .ok (stored (copied k (copyIn buffer length.toNat garbage)) p c length.toNat k.fresh,
              (length.toNat : ℤ)) := by
  obtain ⟨_, hid, hpos, hle⟩ := hacc
  obtain ⟨hslot, b', hb', hminor⟩ := h.file file f hf
  obtain rfl := Option.some.inj (hb.symm.trans hb')
  obtain ⟨root, hroot, hlist⟩ := h.slot f.f_inode hslot
  have hderef : deref (k.privates f.private_data) = .ok b := deref_eq_ok.mpr hb
  have hderoot : deref (k.slots (d.minors b.minor_num)) = .ok root := by
    rw [hminor]
    exact deref_eq_ok.mpr hroot
  refine ⟨root, hlist, fun p hfind => ?_⟩
  rw [copied] at hfind
  rw [deviceWrite, hderef, ok_bind]
  dsimp only
  rw [if_neg hid, if_neg (by rw [length_eq_zero_iff]; omega), kmalloc_granted hg]
  dsimp only
  rw [if_neg h.fresh_ne_zero, h.deref_table, ok_bind, hderoot, ok_bind, hfind, ok_bind]
  rfl

theorem deviceWrite_starved (hb : k.privates f.private_data = some b)
    (hacc : Accepts (narrow b.channel_num) (some buffer) length) (hg : grants k.fresh = false)
    (garbage : DataMessage) :
    deviceWrite grants k f (some buffer) length garbage = .error .segfault := by
  obtain ⟨_, hid, hpos, hle⟩ := hacc
  have hderef : deref (k.privates f.private_data) = .ok b := deref_eq_ok.mpr hb
  rw [deviceWrite, hderef, ok_bind]
  dsimp only
  rw [if_neg hid, if_neg (by rw [length_eq_zero_iff]; omega), kmalloc_refused hg]
  rfl

theorem deviceWrite_spill (h : Store k d nodes) (hf : k.files file = some f)
    (hb : k.privates f.private_data = some b)
    (hacc : Accepts (narrow b.channel_num) (some buffer) length)
    (hnot : ¬ Has k nodes f.f_inode (narrow b.channel_num)) (hg : grants k.fresh = true)
    (garbage : DataMessage) :
    deviceWrite grants k f (some buffer) length garbage =
      .ok (copied k (copyIn buffer length.toNat garbage), -EINVAL) := by
  have hm := h.copied_store (copyIn buffer length.toNat garbage)
  obtain ⟨root, hlist, heq⟩ := deviceWrite_list h hf hb hacc hg garbage
  rcases hm.find_spec (m := f.f_inode) hlist (narrow b.channel_num) with
    ⟨p, hp, c, hc, hid, _, _⟩ | ⟨_, _, hfind⟩
  · obtain ⟨_, _, hs⟩ := h.shows_of_at hp hc
    exact absurd ⟨_, hid ▸ hs⟩ hnot
  · rw [heq 0 hfind, if_pos rfl]

/-- A message for the channel `c` in the node `p`. -/
theorem deviceWrite_store (h : Store k d nodes) (hf : k.files file = some f)
    (hb : k.privates f.private_data = some b)
    (hacc : Accepts (narrow b.channel_num) (some buffer) length)
    {p : Ptr} {c : MessageChannel} (hp : p ∈ nodes f.f_inode) (hc : k.At p c)
    (hid : c.channel_id = narrow b.channel_num) (hg : grants k.fresh = true)
    (garbage : DataMessage) :
    deviceWrite grants k f (some buffer) length garbage =
      .ok (stored (copied k (copyIn buffer length.toNat garbage)) p c length.toNat k.fresh,
        length.toNat) := by
  have hm := h.copied_store (copyIn buffer length.toNat garbage)
  obtain ⟨root, hlist, heq⟩ := deviceWrite_list h hf hb hacc hg garbage
  have hfind := findChannel_some (k := copied k (copyIn buffer length.toNat garbage)) hlist
    (hm.length_lt (m := f.f_inode) hlist) hp hc hid fun q hq c' hc' he =>
      h.ids _ q hq p hp c' c hc' hc (he.trans hid.symm)
  have hderef : deref (k.channels p) = .ok c := deref_eq_ok.mpr hc
  rw [heq p hfind, if_neg (h.lt_fresh hc).1, hderef, ok_bind]

end

/-- A read from a channel that does not exist follows `NULL`. -/
theorem deviceRead_lost (h : Store k d nodes) (hf : k.files file = some f)
    (hb : k.privates f.private_data = some b)
    (hnot : ¬ Has k nodes f.f_inode (narrow b.channel_num)) {writable : ℕ → Bool}
    {length : BitVec 64} (hpos : 0 < length.toNat) (hle : length.toNat ≤ BUFFER_LENGTH) :
    deviceRead k f (some writable) length = .error .segfault := by
  obtain ⟨hslot, b', hb', hminor⟩ := h.file file f hf
  obtain rfl := Option.some.inj (hb.symm.trans hb')
  obtain ⟨root, hroot, hlist⟩ := h.slot f.f_inode hslot
  have hderef : deref (k.privates f.private_data) = .ok b := deref_eq_ok.mpr hb
  have hderoot : deref (k.slots (d.minors b.minor_num)) = .ok root := by
    rw [hminor]
    exact deref_eq_ok.mpr hroot
  rcases h.find_spec hlist (narrow b.channel_num) with ⟨p, hp, c, hc, hid, _, _⟩ | ⟨_, _, hfind⟩
  · obtain ⟨_, _, hs⟩ := h.shows_of_at hp hc
    exact absurd ⟨_, hid ▸ hs⟩ hnot
  · rw [deviceRead, hderef, ok_bind]
    dsimp only
    rw [if_neg (by rw [length_eq_zero_iff]; omega), h.deref_table, ok_bind, hderoot, ok_bind, hfind,
      ok_bind, h.channels_none 0 (Or.inl rfl)]
    rfl

/-! ## The calls -/

theorem open_turn (h : Store k d nodes)
    (hdrivers : ∀ m, d.minors m = 0 → k.numOfDrivers ≠ (MINORS_LIMIT : ℤ)) (file : ℕ) (m : Minor)
    (garbage : BitVec 64) :
    (∃ k' d' nodes' ret, call grants k (.open file m garbage) = .ok (k', ret) ∧
      Turn k d nodes (.open file m garbage) k' d' nodes' ret) ∨
    call grants k (.open file m garbage) = .error .segfault ∧ Starved grants k := by
  cases hfile : k.files file with
  | some f =>
    rw [call, hfile, if_pos (show (some f).isSome = true from rfl)]
    exact Or.inl ⟨_, _, _, _, rfl, .reject (by simp [Rejected, hfile]) .badf⟩
  | none =>
    rw [call, hfile, if_neg (by simp)]
    cases h₁ : grants k.fresh with
    | false =>
      rw [deviceOpen_refused h₁, ok_bind]
      exact Or.inl ⟨_, _, _, _, rfl, .refuse hfile⟩
    | true =>
      by_cases hm : d.minors m = 0
      · cases h₂ : grants (k.fresh + 1) with
        | false =>
          rw [h.deviceOpen_starved h₁ h₂ hm (hdrivers m hm)]
          exact Or.inr ⟨rfl, Or.inr h₂⟩
        | true =>
          have hg : ¬ Starved grants k := by simp [Starved, h₁, h₂]
          rw [h.deviceOpen_create hg hm (hdrivers m hm), ok_bind]
          exact Or.inl ⟨_, _, _, _, rfl, .create hfile hm⟩
      · rw [h.deviceOpen_reopen h₁ hm, ok_bind]
        exact Or.inl ⟨_, _, _, _, rfl, .reopen hfile hm⟩

theorem ioctl_turn (h : Store k d nodes) (file : ℕ) (cmd : BitVec 32) (param : BitVec 64) :
    (∃ k' d' nodes' ret, call grants k (.ioctl file cmd param) = .ok (k', ret) ∧
      Turn k d nodes (.ioctl file cmd param) k' d' nodes' ret) ∨
    call grants k (.ioctl file cmd param) = .error .segfault ∧ Starved grants k := by
  cases hf : k.files file with
  | none =>
    rw [call, hf]
    exact Or.inl ⟨_, _, _, _, rfl, .reject (Or.inl hf) .badf⟩
  | some f =>
    rw [call, hf]
    dsimp only
    by_cases hbad : param = 0#64 ∨ cmd ≠ MSG_SLOT_CHANNEL
    · rw [ioctl_invalid hbad, ok_bind]
      exact Or.inl ⟨_, _, _, _, rfl, .reject (Or.inr hbad) .inval⟩
    · obtain ⟨hparam, rfl⟩ : param ≠ 0#64 ∧ MSG_SLOT_CHANNEL = cmd := by
        rw [not_or, not_not] at hbad
        exact ⟨hbad.1, hbad.2.symm⟩
      obtain ⟨_, b, hb, _⟩ := h.file file f hf
      by_cases hhas : Has k nodes f.f_inode (narrow param)
      · rw [h.ioctl_select hf hb hparam hhas, ok_bind]
        exact Or.inl ⟨_, _, _, _, rfl, .select hf hb hparam hhas⟩
      · obtain hnil | ⟨l, last, hl⟩ := (nodes f.f_inode).eq_nil_or_concat
        · rw [h.ioctl_first hf hb hparam hnil]
          by_cases hg : Starved grants k
          · have hs : Starved grants (selected k f b param) := hg
            rw [addFirstChannel_starved hs]
            exact Or.inr ⟨rfl, hg⟩
          · rw [(h.select hb param).addFirstChannel_granted hg, ok_bind]
            exact Or.inl ⟨_, _, _, _, rfl, .linkRoot hf hb hparam hnil⟩
        · rw [List.concat_eq_append] at hl
          have hne : nodes f.f_inode ≠ [] := by simp [hl]
          by_cases hlim : CHANNELS_LIMIT ≤ (d.numOfChannels f.f_inode).toNat
          · rw [h.ioctl_full grants hf hb hparam hne hhas hlim, ok_bind]
            exact Or.inl ⟨_, _, _, _, rfl, .full hf hb hparam hhas hlim⟩
          · rw [Nat.not_le] at hlim
            by_cases hg : Starved grants k
            · rw [h.ioctl_starved hf hb hparam hne hhas hlim hg]
              exact Or.inr ⟨rfl, hg⟩
            · obtain ⟨c, hc⟩ := h.at_of_mem (m := f.f_inode) (p := last) (by simp [hl])
              rw [h.ioctl_last hf hb hparam hhas hlim hl hc hg, ok_bind]
              exact Or.inl ⟨_, _, _, _, rfl, .linkLast hf hb hparam hhas hlim hl hc⟩

variable (grants) in
/-- A write is turned down, gets no memory, or looks for its channel. -/
theorem call_write (h : Store k d nodes) (hf : k.files file = some f)
    (hb : k.privates f.private_data = some b) (buffer : Option (ℕ → Option Byte))
    (length : BitVec 64) (garbage : DataMessage) :
    (¬ Accepts (narrow b.channel_num) buffer length ∧ ∃ res, Rejection res ∧
      call grants k (.write file buffer length garbage) = .ok (k, ⟨res, []⟩)) ∨
    (Accepts (narrow b.channel_num) buffer length ∧ grants k.fresh = false ∧
      call grants k (.write file buffer length garbage) = .error .segfault) ∨
    (∃ bytes, buffer = some bytes ∧ Accepts (narrow b.channel_num) (some bytes) length ∧
      grants k.fresh = true ∧ ¬ Has k nodes f.f_inode (narrow b.channel_num) ∧
      call grants k (.write file buffer length garbage) =
        .ok (copied k (copyIn bytes length.toNat garbage), ⟨-EINVAL, []⟩)) ∨
    ∃ bytes, buffer = some bytes ∧ Accepts (narrow b.channel_num) (some bytes) length ∧
      grants k.fresh = true ∧ ∃ p ∈ nodes f.f_inode, ∃ c, k.At p c ∧
        c.channel_id = narrow b.channel_num ∧
        call grants k (.write file buffer length garbage) =
          .ok (stored (copied k (copyIn bytes length.toNat garbage)) p c length.toNat k.fresh,
            ⟨length.toNat, []⟩) := by
  rw [call, hf]
  dsimp only
  by_cases hacc : Accepts (narrow b.channel_num) buffer length
  · right
    obtain ⟨bytes, rfl⟩ := Option.ne_none_iff_exists'.mp hacc.1
    cases hg : grants k.fresh with
    | false =>
      rw [deviceWrite_starved hb hacc hg]
      exact Or.inl ⟨hacc, rfl, rfl⟩
    | true =>
      right
      by_cases hhas : Has k nodes f.f_inode (narrow b.channel_num)
      · right
        obtain ⟨p, hp, c, hc, hid⟩ := exists_at_of_has hhas
        rw [h.deviceWrite_store hf hb hacc hp hc hid hg, ok_bind]
        exact ⟨bytes, rfl, hacc, rfl, p, hp, c, hc, hid, rfl⟩
      · left
        rw [h.deviceWrite_spill hf hb hacc hhas hg, ok_bind]
        exact ⟨bytes, rfl, hacc, rfl, hhas, rfl⟩
  · left
    obtain ⟨res, hres, heq⟩ := deviceWrite_rejects grants hb rfl hacc garbage
    rw [heq, ok_bind]
    exact ⟨hacc, res, hres, rfl⟩

theorem write_turn (h : Store k d nodes) (file : ℕ) (buffer : Option (ℕ → Option Byte))
    (length : BitVec 64) (garbage : DataMessage) :
    (∃ k' d' nodes' ret, call grants k (.write file buffer length garbage) = .ok (k', ret) ∧
      Turn k d nodes (.write file buffer length garbage) k' d' nodes' ret) ∨
    call grants k (.write file buffer length garbage) = .error .segfault ∧ Starved grants k := by
  cases hf : k.files file with
  | none =>
    rw [call, hf]
    exact Or.inl ⟨_, _, _, _, rfl, .reject (Or.inl hf) .badf⟩
  | some f =>
    obtain ⟨_, b, hb, _⟩ := h.file file f hf
    rcases h.call_write grants hf hb buffer length garbage with
      ⟨hacc, res, hres, hcall⟩ | ⟨_, hg, hcall⟩ | ⟨buffer, rfl, hacc, _, hnot, hcall⟩ |
      ⟨buffer, rfl, hacc, _, p, hp, c, hc, hid, hcall⟩
    · exact Or.inl ⟨_, _, _, _, hcall, .reject (Or.inr ⟨f, b, hf, hb, hacc⟩) hres⟩
    · exact Or.inr ⟨hcall, Or.inl hg⟩
    · exact Or.inl ⟨_, _, _, _, hcall, .spill hf hb hacc hnot⟩
    · exact Or.inl ⟨_, _, _, _, hcall, .store hf hb hacc hp hc hid⟩

variable (grants) in
theorem read_turn (h : Store k d nodes) (file : ℕ) (buffer : Option (ℕ → Bool))
    (length : BitVec 64) :
    (∃ ret, call grants k (.read file buffer length) = .ok (k, ret)) ∨
    call grants k (.read file buffer length) = .error .segfault ∧
      Lost k nodes (.read file buffer length) := by
  cases hf : k.files file with
  | none =>
    rw [call, hf]
    exact Or.inl ⟨_, rfl⟩
  | some f =>
    obtain ⟨_, b, hb, _⟩ := h.file file f hf
    rw [call, hf]
    dsimp only
    by_cases hbad : buffer = none ∨ length.toNat = 0 ∨ BUFFER_LENGTH < length.toNat
    · obtain ⟨res, _, heq⟩ := deviceRead_rejects hb hbad
      rw [heq, ok_bind]
      exact Or.inl ⟨_, rfl⟩
    · simp only [not_or, not_lt] at hbad
      obtain ⟨hbuffer, h0, hle⟩ := hbad
      have hpos := Nat.pos_of_ne_zero h0
      obtain ⟨writable, rfl⟩ := Option.ne_none_iff_exists'.mp hbuffer
      by_cases hhas : Has k nodes f.f_inode (narrow b.channel_num)
      · obtain ⟨bytes, hs⟩ := hhas
        rw [h.deviceRead_found hf hb hs hpos hle, ok_bind]
        exact Or.inl ⟨_, rfl⟩
      · rw [h.deviceRead_lost hf hb hhas hpos hle]
        exact Or.inr ⟨rfl, hbuffer, hpos, hle, f, b, hf, hb, hhas⟩

variable (grants) in
/-- A call takes a turn; or it faults, for want of memory or of a channel. -/
theorem call_turn (h : Store k d nodes)
    (hdrivers : ∀ m, d.minors m = 0 → k.numOfDrivers ≠ (MINORS_LIMIT : ℤ)) (op : Op) :
    (∃ k' d' nodes' ret, call grants k op = .ok (k', ret) ∧ Turn k d nodes op k' d' nodes' ret) ∨
    call grants k op = .error .segfault ∧ (Starved grants k ∨ Lost k nodes op) := by
  cases op with
  | «open» file m garbage => exact (h.open_turn hdrivers file m garbage).imp id (.imp id .inl)
  | ioctl file cmd param => exact (h.ioctl_turn file cmd param).imp id (.imp id .inl)
  | write file buffer length garbage =>
    exact (h.write_turn file buffer length garbage).imp id (.imp id .inl)
  | read file buffer length =>
    rcases h.read_turn grants file buffer length with ⟨ret, hcall⟩ | ⟨hcall, hlost⟩
    · exact Or.inl ⟨_, _, _, _, hcall, .read⟩
    · exact Or.inr ⟨hcall, Or.inr hlost⟩
  | release file =>
    cases hf : k.files file with
    | none =>
      rw [call, hf]
      exact Or.inl ⟨_, _, _, _, rfl, .reject hf .badf⟩
    | some f =>
      rw [call, hf]
      exact Or.inl ⟨_, _, _, _, rfl, .release hf⟩

/-! ## A turn keeps the store well formed -/

theorem opened_store (h : Store k d nodes) (m : Minor) (garbage : BitVec 64) :
    Store (opened k m garbage) d nodes := by
  refine (h.bump 1).setPrivate (h.fresh_used Nat.one_pos) _ fun i g hg he => ?_
  obtain ⟨_, b, hb, _⟩ := h.file i g hg
  exact absurd he (ne_of_none (h.privates_none _ (fresh_unused k 0)) hb)

theorem opened_quiet (h : Store k d nodes) (m : Minor) (garbage : BitVec 64) :
    Quiet k (opened k m garbage) nodes where
  shows _ _ _ := Iff.rfl
  privates _ _ hp :=
    (Function.update_of_ne (ne_of_none (h.privates_none _ (fresh_unused k 0)) hp) ..).trans hp
  files := rfl

theorem slotted_quiet (h : Store k d nodes) (m : Minor) (garbage : BitVec 64) :
    Quiet k (slotted (opened k m garbage) d m) nodes :=
  { h.opened_quiet m garbage with }

theorem copied_quiet (h : Store k d nodes) (message : DataMessage) :
    Quiet k (copied k message) nodes := ⟨h.copied_shows message, fun _ _ => id, rfl⟩

theorem private_ne_fresh (h : Store k d nodes) {i : ℕ} {g : File} (hg : k.files i = some g) :
    g.private_data ≠ k.fresh := by
  obtain ⟨_, b, hb, _⟩ := h.file i g hg
  exact ne_of_none (h.privates_none _ (fresh_unused k 0)) hb

theorem slotted_store (h : Store k d nodes) (hm : d.minors m = 0) :
    Store (slotted k d m) { d with minors := Function.update d.minors m k.fresh } nodes :=
  (h.bump 1).putSlot (h.fresh_used (j := 0) Nat.one_pos) (h.slots_none _ (fresh_unused k 0)) hm _

theorem ids_of_not_has (h : Store k d nodes) {id : BitVec 32} (hnot : ¬ Has k nodes m id) :
    ∀ p ∈ nodes m, ∀ c, k.At p c → c.channel_id ≠ id := by
  rintro p hp c hc rfl
  obtain ⟨_, _, hs⟩ := h.shows_of_at hp hc
  exact hnot ⟨_, hs⟩

theorem has_of_at (h : Store k d nodes) {p : Ptr} {c : MessageChannel} (hp : p ∈ nodes m)
    (hc : k.At p c) : Has k nodes m c.channel_id := by
  obtain ⟨_, _, hs⟩ := h.shows_of_at hp hc
  exact ⟨_, hs⟩

/-- The node that `ioctl` has created may join the list. -/
theorem selected_joins (h : Store k d nodes) (hb : k.privates f.private_data = some b)
    {param : BitVec 64} (hnot : ¬ Has k nodes m (narrow param)) :
    Joins (created (selected k f b param) (narrow param)) nodes m k.fresh
      ⟨k.fresh + 1, 0, narrow param, 0⟩ :=
  (h.select hb param).created_joins (h.ids_of_not_has hnot)

theorem not_has_of_nil (hnil : nodes m = []) (id : BitVec 32) : ¬ Has k nodes m id :=
  fun hhas => hhas.ne_nil hnil

theorem at_created (h : Store k d nodes) {p : Ptr} {c : MessageChannel} (hc : k.At p c)
    (id : BitVec 32) : (created k id).At p c :=
  (Function.update_of_ne (ne_of_none (h.channels_none _ (fresh_unused k 0)) hc) ..).trans hc

theorem linkedRoot_shows (h : Store k d nodes) (hb : k.privates f.private_data = some b)
    {param : BitVec 64} (hnot : ¬ Has k nodes m (narrow param)) (m' : Minor) (id : BitVec 32)
    (bytes : List Byte) :
    Shows (linkedRoot (created (selected k f b param) (narrow param)) d m k.fresh)
        (appended nodes m k.fresh) m' id bytes ↔
      Shows k nodes m' id bytes ∨ m' = m ∧ id = narrow param ∧ bytes = [] :=
  (h.select hb param).linked_shows (h.ids_of_not_has hnot) (fun _ => rfl) rfl ..

theorem linkedLast_shows (h : Store k d nodes) (hb : k.privates f.private_data = some b)
    {param : BitVec 64} (hnot : ¬ Has k nodes m (narrow param)) {last : Ptr} {c : MessageChannel}
    (hc : k.At last c) (m' : Minor) (id : BitVec 32) (bytes : List Byte) :
    Shows (linkedLast (created (selected k f b param) (narrow param)) d m last c k.fresh)
        (appended nodes m k.fresh) m' id bytes ↔
      Shows k nodes m' id bytes ∨ m' = m ∧ id = narrow param ∧ bytes = [] :=
  (h.select hb param).linked_shows (h.ids_of_not_has hnot)
    (sameData_link ((h.select hb param).at_created hc _) _) rfl ..

/-- Linking a channel that was missing. -/
theorem Extends.of_linked {nodes' : Minor → List Ptr} {id : BitVec 32} (hnot : ¬ Has k nodes m id)
    (hshows : ∀ m' id' bytes, Shows k' nodes' m' id' bytes ↔
      Shows k nodes m' id' bytes ∨ m' = m ∧ id' = id ∧ bytes = []) : Extends k nodes k' nodes' := by
  refine ⟨fun m' id' bytes hs => (hshows ..).mpr (Or.inl hs), fun m' id' bytes hs => ?_⟩
  rcases (hshows ..).mp hs with hs | ⟨rfl, rfl, rfl⟩
  · exact Or.inl hs
  · exact Or.inr ⟨rfl, hnot⟩

section
variable {param : BitVec 64} {l : List Ptr} {last : Ptr} {c : MessageChannel}

theorem linkedRoot_added (h : Store k d nodes) (hf : k.files file = some f)
    (hb : k.privates f.private_data = some b) (hnil : nodes f.f_inode = []) :
    Added (selected k f b param) d nodes
      (linkedRoot (created (selected k f b param) (narrow param)) d f.f_inode k.fresh)
      (d.bumped f.f_inode 8#64) (appended nodes f.f_inode k.fresh) where
  store := (((h.select hb _).created_store _).linkRoot (h.file _ _ hf).1 hnil
    (h.selected_joins hb (not_has_of_nil hnil _))).setTable rfl
  minors := rfl
  shows := .of_linked (not_has_of_nil hnil _) (h.linkedRoot_shows hb (not_has_of_nil hnil _))
  privates := rfl
  files := rfl

theorem linkedLast_added (h : Store k d nodes) (hf : k.files file = some f)
    (hb : k.privates f.private_data = some b) (hnot : ¬ Has k nodes f.f_inode (narrow param))
    (hnodes : nodes f.f_inode = l ++ [last]) (hc : k.At last c) :
    Added (selected k f b param) d nodes
      (linkedLast (created (selected k f b param) (narrow param)) d f.f_inode last c k.fresh)
      (d.bumped f.f_inode 4#64) (appended nodes f.f_inode k.fresh) where
  store := (((h.select hb _).created_store _).linkLast (h.file _ _ hf).1 hnodes
    ((h.select hb _).at_created hc _) (h.selected_joins hb hnot)).setTable rfl
  minors := rfl
  shows := .of_linked hnot (h.linkedLast_shows hb hnot hc)
  privates := rfl
  files := rfl

end

/-- The selection itself changes no channel. -/
theorem Added.extends {d' : MessageSlotsDevices} {nodes' : Minor → List Ptr} {param : BitVec 64}
    (ha : Added (selected k f b param) d nodes k' d' nodes') : Extends k nodes k' nodes' :=
  ⟨ha.shows.kept, ha.shows.only⟩

theorem Added.selected {d' : MessageSlotsDevices} {nodes' : Minor → List Ptr} {param : BitVec 64}
    (ha : Added (selected k f b param) d nodes k' d' nodes')
    (hhas : Has k' nodes' f.f_inode (narrow param)) (res : ℤ) :
    Selected k nodes f b param k' d' nodes' res :=
  ⟨ha.store, ha.extends, ha.privates, ha.files, fun _ => hhas⟩

end Store

/-- A turn keeps the store well formed. -/
theorem Turn.keeps {op : Op} {d' : MessageSlotsDevices} {nodes' : Minor → List Ptr} {ret : Ret}
    (ht : Turn k d nodes op k' d' nodes' ret) (h : Store k d nodes) : Store k' d' nodes' := by
  cases ht with
  | reject => exact h
  | read => exact h
  | refuse => exact h.bump 1
  | reopen _ hm =>
    exact (h.opened_store _ _).putFile hm (Function.update_self ..) rfl fun _ _ => h.private_ne_fresh
  | create _ hm =>
    exact ((h.opened_store _ _).slotted_store hm).putFile (by simp [opened])
      (Function.update_self ..) rfl fun _ _ => h.private_ne_fresh
  | select _ hb => exact h.select hb _
  | full _ hb => exact h.select hb _
  | linkRoot hf hb _ hnil => exact (h.linkedRoot_added hf hb hnil).store
  | linkLast hf hb _ hnot _ hnodes hc => exact (h.linkedLast_added hf hb hnot hnodes hc).store
  | spill => exact h.copied_store _
  | store _ _ hacc hp hc =>
    exact (h.copied_store _).setContent hp hc hacc.2.2.2 (Function.update_self ..)
  | release hf => exact h.dropFile hf

/-! ## What the store shows after a turn -/

/-- A message that is stored is shown for its channel. -/
theorem stored_shows (h : Store k d nodes) {p : Ptr} {c : MessageChannel} (hp : p ∈ nodes m)
    (hc : k.At p c) (buffer : ℕ → Option Byte) {n : ℕ} (hn : n ≤ BUFFER_LENGTH)
    (garbage : DataMessage) (m' : Minor) (id : BitVec 32) (bytes : List Byte) :
    Shows (stored (copied k (copyIn buffer n garbage)) p c n k.fresh) nodes m' id bytes ↔
      if m' = m ∧ id = c.channel_id then bytes = payload buffer n
      else Shows k nodes m' id bytes := by
  have hmes : (copied k (copyIn buffer n garbage)).messages k.fresh =
      some (copyIn buffer n garbage) := Function.update_self ..
  rw [← h.copied_shows (copyIn buffer n garbage), ← take_copyIn buffer hn garbage]
  refine (h.copied_store _).shows_setContent hp hc hmes ?_ (fun q hq => ?_) rfl
  · simp [Kernel.data, stored]
  · simp [Kernel.data, stored, hq]

section
variable {op : Op} {d' : MessageSlotsDevices} {nodes' : Minor → List Ptr} {ret : Ret}

/-- Only a successful write changes a message. -/
theorem Turn.extends (ht : Turn k d nodes op k' d' nodes' ret) (h : Store k d nodes)
    (hop : ∀ file buffer length garbage, op = .write file buffer length garbage → ret.value < 0) :
    Extends k nodes k' nodes' := by
  cases ht with
  | linkRoot hf hb _ hnil => exact (h.linkedRoot_added hf hb hnil).extends
  | linkLast hf hb _ hnot _ hnodes hc => exact (h.linkedLast_added hf hb hnot hnodes hc).extends
  | spill => exact .of_iff (h.copied_quiet _).shows
  | store => exact absurd (hop _ _ _ _ rfl) (not_lt_of_ge (Int.natCast_nonneg _))
  | _ => exact .of_iff fun _ _ _ => Iff.rfl

/-- An `ioctl` is turned down, or it stores its parameter. -/
theorem Turn.ioctl_selected {cmd : BitVec 32} {param : BitVec 64}
    (ht : Turn k d nodes (.ioctl file cmd param) k' d' nodes' ret) (h : Store k d nodes) :
    Rejection ret.value ∨ ∃ f b, k.files file = some f ∧ k.privates f.private_data = some b ∧
      ¬ (param = 0#64 ∨ cmd ≠ MSG_SLOT_CHANNEL) ∧
      Selected k nodes f b param k' d' nodes' ret.value := by
  have hmade : ∀ {k' : Kernel} {nodes' : Minor → List Ptr} {m id},
      (∀ m' id' bytes, Shows k' nodes' m' id' bytes ↔
        Shows k nodes m' id' bytes ∨ m' = m ∧ id' = id ∧ bytes = []) → Has k' nodes' m id :=
    fun hshows => ⟨[], (hshows ..).mpr (Or.inr ⟨rfl, rfl, rfl⟩)⟩
  cases ht with
  | reject _ hres => exact Or.inl hres
  | select hf hb hparam hhas =>
    exact Or.inr ⟨_, _, hf, hb, by simp [hparam], h.select hb _, .of_iff fun _ _ _ => Iff.rfl, rfl,
      rfl, fun _ => hhas⟩
  | full hf hb hparam =>
    exact Or.inr ⟨_, _, hf, hb, by simp [hparam], h.select hb _, .of_iff fun _ _ _ => Iff.rfl, rfl,
      rfl, fun hret => absurd hret (by decide)⟩
  | linkRoot hf hb hparam hnil =>
    exact Or.inr ⟨_, _, hf, hb, by simp [hparam], (h.linkedRoot_added hf hb hnil).selected
      (hmade (h.linkedRoot_shows hb (not_has_of_nil hnil _))) _⟩
  | linkLast hf hb hparam hnot _ hnodes hc =>
    exact Or.inr ⟨_, _, hf, hb, by simp [hparam], (h.linkedLast_added hf hb hnot hnodes hc).selected
      (hmade (h.linkedLast_shows hb hnot hc)) _⟩

/-- Only `ioctl` makes a channel. -/
theorem Turn.has (ht : Turn k d nodes op k' d' nodes' ret) (h : Store k d nodes) {id : BitVec 32}
    (hhas : Has k' nodes' m id) : Has k nodes m id ∨ ∃ file f param,
      op = .ioctl file MSG_SLOT_CHANNEL param ∧ k.files file = some f ∧ m = f.f_inode ∧
        id = narrow param := by
  obtain ⟨bytes, hs⟩ := hhas
  cases ht with
  | linkRoot hf hb _ hnil =>
    rcases (linkedRoot_shows h hb (not_has_of_nil hnil _) ..).mp hs with hs | ⟨rfl, rfl, _⟩
    · exact Or.inl ⟨bytes, hs⟩
    · exact Or.inr ⟨_, _, _, rfl, hf, rfl, rfl⟩
  | linkLast hf hb _ hnot _ _ hc =>
    rcases (linkedLast_shows h hb hnot hc ..).mp hs with hs | ⟨rfl, rfl, _⟩
    · exact Or.inl ⟨bytes, hs⟩
    · exact Or.inr ⟨_, _, _, rfl, hf, rfl, rfl⟩
  | spill => exact Or.inl ⟨bytes, ((h.copied_quiet _).shows ..).mp hs⟩
  | store hf hb hacc hp hc hid =>
    rw [stored_shows h hp hc _ hacc.2.2.2] at hs
    split at hs
    case isTrue heq =>
      rw [heq.1, heq.2]
      exact Or.inl (h.has_of_at hp hc)
    case isFalse => exact Or.inl ⟨bytes, hs⟩
  | _ => exact Or.inl ⟨bytes, hs⟩

end
end OsCourse.MessageSlot
