import Mathlib

/-! # The message slot module

`message_slot.c` over an explicit kernel memory: one map from addresses to blocks for
each type that the module allocates, and a counter that hands out addresses. An access
through a pointer that leads nowhere, or a loop that never ends, is a fault.
-/

namespace OsCourse.MessageSlot

abbrev Byte := BitVec 8

/-- Addresses; 0 is `NULL`. -/
abbrev Ptr := ℕ

abbrev BUFFER_LENGTH : ℕ := 128
abbrev MINORS_LIMIT : ℕ := 256
def CHANNELS_LIMIT : ℕ := 1048576

/-- `_IOW(240, 0, unsigned long)`. -/
def MSG_SLOT_CHANNEL : BitVec 32 := 0x4008F000#32

def EBADF : ℤ := 9
def EWOULDBLOCK : ℤ := 11
def EFAULT : ℤ := 14
def EINVAL : ℤ := 22
def ENOSPC : ℤ := 28
def EMSGSIZE : ℤ := 90

abbrev Minor := Fin MINORS_LIMIT

/-! ## Data -/

structure PrivateData where
  minor_num : Minor
  channel_num : BitVec 64

abbrev DataMessage := Fin BUFFER_LENGTH → Byte

structure MessageChannel where
  message : Ptr
  size : ℤ
  channel_id : BitVec 32
  next_node : Ptr

/-- The table behind `devices`. `numOfChannels` is an array of `int *`, so its entries are
addresses that are never followed. -/
structure MessageSlotsDevices where
  minors : Minor → Ptr
  numOfChannels : Minor → BitVec 64

/-- An open `struct file`. -/
structure File where
  f_inode : Minor
  private_data : Ptr

/-- The kernel as the module sees it: its blocks by type, and the open files. -/
structure Kernel where
  privates : Ptr → Option PrivateData
  slots : Ptr → Option Ptr
  channels : Ptr → Option MessageChannel
  messages : Ptr → Option DataMessage
  fresh : ℕ
  devices : Option MessageSlotsDevices
  numOfDrivers : ℤ
  files : ℕ → Option File

inductive Fault where
  | segfault
  | outOfBounds
  | hang
  deriving DecidableEq, Repr

/-- Follow a pointer. -/
def deref {α : Type} (block : Option α) : Except Fault α :=
  match block with
  | some b => .ok b
  | none => .error .segfault

/-- `kmalloc`: `grants` says which allocations succeed. -/
def kmalloc (grants : ℕ → Bool) (k : Kernel) : Kernel × Ptr :=
  ({ k with fresh := k.fresh + 1 }, if grants k.fresh then k.fresh else 0)

variable (grants : ℕ → Bool)

/-! ## Lists of channels -/

/-- `initiate_channel`. Both blocks are cleared before anything is tested. -/
def initiateChannel (k : Kernel) (channel_id : BitVec 32) : Except Fault (Kernel × Ptr) :=
  let (k, channel) := kmalloc grants k
  if channel = 0 then .error .segfault
  else
    let (k, message) := kmalloc grants k
    if message = 0 then .error .segfault
    else .ok ({ k with
      messages := Function.update k.messages message (some fun _ => 0#8)
      channels := Function.update k.channels channel (some ⟨message, 0, channel_id, 0⟩) }, channel)

/-- `find_channel`; the loop may read `fuel` nodes. -/
def findChannel (k : Kernel) (channel_id : BitVec 32) : ℕ → Ptr → Except Fault Ptr
  | 0, _ => .error .hang
  | fuel + 1, node =>
    if node = 0 then .ok 0
    else do
      let c ← deref (k.channels node)
      if c.channel_id = channel_id then .ok node else findChannel k channel_id fuel c.next_node

/-- `add_node`. -/
def addNode (k : Kernel) (new_node : Ptr) : ℕ → Ptr → Except Fault Kernel
  | 0, _ => .error .hang
  | fuel + 1, node => do
    let c ← deref (k.channels node)
    if c.next_node ≠ 0 then addNode k new_node fuel c.next_node
    else .ok { k with
      channels := Function.update k.channels node (some { c with next_node := new_node }) }

/-! ## File operations -/

/-- `device_open`; `garbage` is what `kmalloc` left in `channel_num`. The result also has the
`private_data` of the file. -/
def deviceOpen (k : Kernel) (minor_num : Minor) (garbage : BitVec 64) :
    Except Fault (Kernel × Ptr × ℤ) :=
  let (k, dbzy) := kmalloc grants k
  if dbzy = 0 then .ok (k, 0, 1)
  else
    let k := { k with privates := Function.update k.privates dbzy (some ⟨minor_num, garbage⟩) }
    do
      let d ← deref k.devices
      if d.minors minor_num = 0 then
        if k.numOfDrivers = (MINORS_LIMIT : ℤ) then .ok (k, dbzy, -ENOSPC)
        else
          let (k, current_slot) := kmalloc grants k
          if current_slot = 0 then .error .segfault
          else .ok ({ k with
            slots := Function.update k.slots current_slot (some 0)
            devices := some { d with minors := Function.update d.minors minor_num current_slot }
            numOfDrivers := k.numOfDrivers + 1 }, dbzy, 0)
      else .ok (k, dbzy, 0)

/-- The loop of `device_read` from index `i`, for `n` more bytes: the result and the bytes that
the user gets. `writable` says where `put_user` succeeds. -/
def copyOut (message : DataMessage) (writable : ℕ → Bool) (i : ℕ) :
    ℕ → Except Fault (ℤ × List Byte)
  | 0 => .ok (i, [])
  | n + 1 =>
    if h : i < BUFFER_LENGTH then
      if writable i then
        (copyOut message writable (i + 1) n).map fun r => (r.1, message ⟨i, h⟩ :: r.2)
      else .ok (-EFAULT, [])
    else .error .outOfBounds

/-- `device_read` into a buffer (`none` is `NULL`). -/
def deviceRead (k : Kernel) (file : File) (buffer : Option (ℕ → Bool)) (length : BitVec 64) :
    Except Fault (ℤ × List Byte) := do
  let file_data ← deref (k.privates file.private_data)
  let channel_num : BitVec 32 := file_data.channel_num.setWidth 32
  match buffer with
  | none => .ok (-EINVAL, [])
  | some writable =>
    if length = 0#64 ∨ BUFFER_LENGTH < length.toNat then .ok (-EMSGSIZE, [])
    else
      let d ← deref k.devices
      let root ← deref (k.slots (d.minors file_data.minor_num))
      let curr_channel ← findChannel k channel_num k.fresh root
      -- `size` is read before `curr_channel` is compared with `NULL`
      let c ← deref (k.channels curr_channel)
      if c.message = 0 then .ok (-EWOULDBLOCK, [])
      else if c.size = 0 then .ok (-EWOULDBLOCK, [])
      else if length < BitVec.ofInt 64 c.size then .ok (-ENOSPC, [])
      else
        let message ← deref (k.messages c.message)
        copyOut message writable 0 c.size.toNat

/-- The loop of `device_write`: a `get_user` that fails stores 0. -/
def copyIn (buffer : ℕ → Option Byte) (length : ℕ) (garbage : DataMessage) : DataMessage :=
  fun i => if i < length then (buffer i).getD 0#8 else garbage i

/-- `device_write` of a buffer (`none` is `NULL`); `garbage` is what `kmalloc` left in the new
message. -/
def deviceWrite (k : Kernel) (file : File) (buffer : Option (ℕ → Option Byte)) (length : BitVec 64)
    (garbage : DataMessage) : Except Fault (Kernel × ℤ) := do
  let file_data ← deref (k.privates file.private_data)
  let channel_num : BitVec 32 := file_data.channel_num.setWidth 32
  match buffer with
  | none => .ok (k, -EINVAL)
  | some buffer =>
    if channel_num = 0#32 then .ok (k, -EINVAL)
    else if length = 0#64 ∨ BUFFER_LENGTH < length.toNat then .ok (k, -EMSGSIZE)
    else
      let (k, written_message) := kmalloc grants k
      if written_message = 0 then .error .segfault
      else
        let k := { k with
          messages := Function.update k.messages written_message
            (some (copyIn buffer length.toNat garbage)) }
        let d ← deref k.devices
        let root ← deref (k.slots (d.minors file_data.minor_num))
        let curr_channel ← findChannel k channel_num k.fresh root
        if curr_channel = 0 then .ok (k, -EINVAL)
        else
          let c ← deref (k.channels curr_channel)
          .ok ({ k with
            channels := Function.update k.channels curr_channel
              (some { c with size := length.toNat, message := written_message }) }, length.toNat)

/-- `device_release`. -/
def deviceRelease (k : Kernel) (file : File) : Kernel × ℤ :=
  ({ k with privates := Function.update k.privates file.private_data none }, 0)

/-- `devices->numOfChannels[minor_num]++` steps an `int *` to the next `int`. -/
def bumpChannels (k : Kernel) (minor_num : Minor) : Except Fault Kernel := do
  let d ← deref k.devices
  .ok { k with
    devices := some { d with
      numOfChannels :=
        Function.update d.numOfChannels minor_num (d.numOfChannels minor_num + 4#64) } }

/-- `((private_data_s *)file->private_data)->channel_num = channel_num`. -/
def selectChannel (k : Kernel) (file : File) (channel_num : BitVec 64) : Except Fault Kernel := do
  let p ← deref (k.privates file.private_data)
  .ok { k with
    privates := Function.update k.privates file.private_data (some { p with channel_num }) }

/-- The part of `ioctl` for a slot without channels. -/
def addFirstChannel (k : Kernel) (minor_num : Minor) (curr_slot : Ptr) (channel_id : BitVec 32) :
    Except Fault (Kernel × ℤ) := do
  let (k, curr_channel) ← initiateChannel grants k channel_id
  if curr_channel = 0 then .ok (k, -1)
  else
    let k ← bumpChannels k minor_num
    let k := { k with slots := Function.update k.slots curr_slot (some curr_channel) }
    let k ← bumpChannels k minor_num
    .ok (k, 0)

/-- The part of `ioctl` for a channel that is missing from a list. The limit is compared with the
address that `numOfChannels` has been stepped to. -/
def addFurtherChannel (k : Kernel) (minor_num : Minor) (root : Ptr) (channel_id : BitVec 32) :
    Except Fault (Kernel × ℤ) := do
  let d ← deref k.devices
  if CHANNELS_LIMIT ≤ (d.numOfChannels minor_num).toNat then .ok (k, -1)
  else
    let (k, curr_channel) ← initiateChannel grants k channel_id
    if curr_channel = 0 then .ok (k, -1)
    else
      let k ← addNode k curr_channel k.fresh root
      let k ← bumpChannels k minor_num
      .ok (k, 0)

/-- `ioctl`. -/
def ioctl (k : Kernel) (file : File) (ioctl_command_id : BitVec 32) (ioctl_param : BitVec 64) :
    Except Fault (Kernel × ℤ) :=
  if ioctl_param = 0#64 ∨ ioctl_command_id ≠ MSG_SLOT_CHANNEL then .ok (k, -EINVAL)
  else do
    let k ← selectChannel k file ioctl_param
    let minor_num := file.f_inode
    let d ← deref k.devices
    let curr_slot := d.minors minor_num
    if curr_slot = 0 then .ok (k, -EINVAL)
    else
      let root ← deref (k.slots curr_slot)
      if root = 0 then addFirstChannel grants k minor_num curr_slot (ioctl_param.setWidth 32)
      else
        let curr_channel ← findChannel k (ioctl_param.setWidth 32) k.fresh root
        let (k, res) ← if curr_channel = 0 then
            addFurtherChannel grants k minor_num root (ioctl_param.setWidth 32)
          else .ok (k, 0)
        if res ≠ 0 then .ok (k, res)
        else
          let k ← selectChannel k file ioctl_param
          .ok (k, 0)

/-! ## The module -/

/-- One turn of the loop of `prepare`: the slot that is allocated is forgotten at once. -/
def prepareMinor (k : Kernel) : Kernel :=
  let (k, slot) := kmalloc grants k
  if slot = 0 then k else { k with slots := Function.update k.slots slot (some 0) }

def Kernel.boot : Kernel where
  privates _ := none
  slots _ := none
  channels _ := none
  messages _ := none
  fresh := 1
  devices := none
  numOfDrivers := 0
  files _ := none

/-- `prepare`, once the device has been registered. -/
def prepare : Except Fault Kernel :=
  let (k, devices) := kmalloc grants .boot
  if devices = 0 then .error .segfault
  else .ok { Nat.iterate (prepareMinor grants) MINORS_LIMIT k with
    devices := some ⟨fun _ => 0, fun _ => 0#64⟩ }

/-- System calls on the device files. A file is named when it is opened. -/
inductive Op where
  | open (file : ℕ) (minor_num : Minor) (garbage : BitVec 64)
  | ioctl (file : ℕ) (ioctl_command_id : BitVec 32) (ioctl_param : BitVec 64)
  | write (file : ℕ) (buffer : Option (ℕ → Option Byte)) (length : BitVec 64) (garbage : DataMessage)
  | read (file : ℕ) (buffer : Option (ℕ → Bool)) (length : BitVec 64)
  | release (file : ℕ)

/-- What a call returns, and the bytes that a read delivers. -/
structure Ret where
  value : ℤ
  bytes : List Byte
  deriving DecidableEq, Repr

/-- The kernel only passes calls on open files to the module, and a file that `device_open`
refused is not open. -/
def call (k : Kernel) : Op → Except Fault (Kernel × Ret)
  | .open file minor_num garbage =>
    if (k.files file).isSome then .ok (k, ⟨-EBADF, []⟩)
    else do
      let (k, private_data, res) ← deviceOpen grants k minor_num garbage
      .ok (if res = 0 then
        { k with files := Function.update k.files file (some ⟨minor_num, private_data⟩) }
        else k, ⟨res, []⟩)
  | .ioctl file ioctl_command_id ioctl_param =>
    match k.files file with
    | none => .ok (k, ⟨-EBADF, []⟩)
    | some f => do
      let (k, res) ← ioctl grants k f ioctl_command_id ioctl_param
      .ok (k, ⟨res, []⟩)
  | .write file buffer length garbage =>
    match k.files file with
    | none => .ok (k, ⟨-EBADF, []⟩)
    | some f => do
      let (k, res) ← deviceWrite grants k f buffer length garbage
      .ok (k, ⟨res, []⟩)
  | .read file buffer length =>
    match k.files file with
    | none => .ok (k, ⟨-EBADF, []⟩)
    | some f => do
      let (res, bytes) ← deviceRead k f buffer length
      .ok (k, ⟨res, bytes⟩)
  | .release file =>
    match k.files file with
    | none => .ok (k, ⟨-EBADF, []⟩)
    | some f =>
      let (k, res) := deviceRelease k f
      .ok ({ k with files := Function.update k.files file none }, ⟨res, []⟩)

end OsCourse.MessageSlot
