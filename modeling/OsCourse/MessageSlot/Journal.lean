import OsCourse.Foundations.Machine
import OsCourse.Foundations.Registers
import OsCourse.MessageSlot.Operations

/-! # The module, its users and its start

A journal records which channel each file has chosen and what was written where. The module
runs with its journal, from the state in which `prepare` leaves it.
-/

namespace OsCourse.MessageSlot
open Foundations Store

/-- What the users of the device know: the minor of each open file with the parameter of its last
`ioctl` if that returned 0, and the messages that were accepted, oldest first. -/
structure Journal where
  files : ℕ → Option (Minor × Option (BitVec 64))
  writes : List ((Minor × BitVec 32) × List Byte)

namespace Journal

def empty : Journal := ⟨fun _ => none, []⟩

/-- The channel that a file has chosen: its minor and the low half of its parameter. -/
def chosen (j : Journal) (file : ℕ) : Option (Minor × BitVec 32) :=
  match j.files file with
  | some (m, some param) => some (m, param.setWidth 32)
  | _ => none

/-- A call that returned `ret` enters the journal. -/
def record (j : Journal) : Op → Ret → Journal
  | .open file m _, ret =>
    if ret.value = 0 then { j with files := Function.update j.files file (some (m, none)) } else j
  | .ioctl file _ param, ret =>
    match j.files file with
    | some (m, _) => { j with
        files := Function.update j.files file
          (some (m, if ret.value = 0 then some param else none)) }
    | none => j
  | .write file buffer length _, ret =>
    match j.chosen file, buffer with
    | some key, some buffer =>
      if 0 < ret.value then
        { j with writes := j.writes ++ [(key, payload buffer length.toNat)] }
      else j
    | _, _ => j
  | .read .., _ => j
  | .release file, ret =>
    if ret.value = 0 then { j with files := Function.update j.files file none } else j

end Journal

/-- The module and its journal. -/
structure System where
  kernel : Kernel
  journal : Journal

def messageSlots (grants : ℕ → Bool) : Machine System Op where
  init s := prepare grants = .ok s.kernel ∧ s.journal = .empty
  step s op t := ∃ ret, call grants s.kernel op = .ok (t.kernel, ret) ∧
    t.journal = s.journal.record op ret

/-- Reads and writes are issued on files whose last `ioctl` returned 0, and copy without a fault. -/
def Served (j : Journal) : Op → Prop
  | .write file buffer length _ => j.chosen file ≠ none ∧
      ∀ b, buffer = some b → ∀ l < length.toNat, (b l).isSome
  | .read file buffer length => j.chosen file ≠ none ∧
      ∀ w, buffer = some w → ∀ l < length.toNat, w l = true
  | _ => True

/-- The runs that only make such calls. -/
def servedSlots (grants : ℕ → Bool) : Machine System Op :=
  (messageSlots grants).guarded fun s op _ => Served s.journal op

/-! ## The store after `prepare` -/

/-- Nothing is open and only forgotten slots have been allocated. -/
structure Booting (k : Kernel) : Prop where
  fresh_pos : 0 < k.fresh
  privates : k.privates = fun _ => none
  slots : ∀ p, k.Unused p → k.slots p = none
  channels : k.channels = fun _ => none
  messages : k.messages = fun _ => none
  numOfDrivers : k.numOfDrivers = 0
  files : k.files = fun _ => none

variable {grants : ℕ → Bool} {k k' : Kernel} {d : MessageSlotsDevices}
  {nodes : Minor → List Ptr} {j : Journal}

variable (grants) in
theorem Booting.minor (h : Booting k) : Booting (prepareMinor grants k) := by
  have hbump : Booting { k with fresh := k.fresh + 1 } :=
    { h with fresh_pos := Nat.succ_pos _, slots := fun p hp => h.slots p (unused_bump hp) }
  rw [prepareMinor]
  cases hg : grants k.fresh with
  | false =>
    rw [kmalloc, hg]
    exact hbump
  | true =>
    rw [kmalloc, hg]
    dsimp only
    rw [if_pos rfl, if_neg (Nat.ne_of_gt h.fresh_pos)]
    refine { hbump with slots := fun p hp => ?_ }
    have hne : p ≠ k.fresh := by
      rintro rfl
      rcases hp with h0 | hle
      · exact Nat.ne_of_gt h.fresh_pos h0
      · exact Nat.not_succ_le_self _ hle
    simp only [Function.update_of_ne hne]
    exact hbump.slots p hp

theorem Booting.iterate (n : ℕ) (h : Booting k) :
    Booting (Nat.iterate (prepareMinor grants) n k) := by
  induction n generalizing k with
  | zero => exact h
  | succ n ih => exact ih (h.minor grants)

/-- The memory of `prepare` before it publishes the table. -/
def preparing (grants : ℕ → Bool) : Kernel :=
  Nat.iterate (prepareMinor grants) MINORS_LIMIT { Kernel.boot with fresh := Kernel.boot.fresh + 1 }

theorem preparing_booting (grants : ℕ → Bool) : Booting (preparing grants) :=
  Booting.iterate MINORS_LIMIT ⟨Nat.zero_lt_two, rfl, fun _ _ => rfl, rfl, rfl, rfl, rfl⟩

theorem prepare_eq (hg : grants 1 = true) :
    prepare grants = .ok { preparing grants with
      devices := some ⟨fun _ => 0, fun _ => 0#64⟩ } := by
  rw [prepare, kmalloc, show Kernel.boot.fresh = 1 from rfl, hg]
  rfl

theorem granted_of_prepare (h : prepare grants = .ok k) : grants 1 = true := by
  by_contra hg
  rw [prepare, kmalloc, show Kernel.boot.fresh = 1 from rfl, Bool.eq_false_of_not_eq_true hg] at h
  cases h

theorem prepare_store (hk : prepare grants = .ok k) :
    Store k ⟨fun _ => 0, fun _ => 0#64⟩ (fun _ => []) ∧ Booting k := by
  rw [prepare_eq (granted_of_prepare hk)] at hk
  have hb := preparing_booting grants
  obtain rfl := Except.ok.inj hk
  refine ⟨?_, { hb with slots := hb.slots }⟩
  exact
    { table := rfl
      fresh_pos := hb.fresh_pos
      privates_none := fun p _ => congrFun hb.privates p
      slots_none := hb.slots
      channels_none := fun p _ => congrFun hb.channels p
      messages_none := fun p _ => congrFun hb.messages p
      slot_inj := fun _ _ _ h0 => absurd rfl h0
      slot := fun _ h0 => absurd rfl h0
      no_slot := fun _ _ => rfl
      disjoint := fun _ _ _ hp => by cases hp
      node := fun _ _ hp => by cases hp
      ids := fun _ _ hp => by cases hp
      file := fun i f hf => by
        dsimp only at hf
        rw [hb.files] at hf
        cases hf
      file_inj := fun i _ f _ hf => by
        dsimp only at hf
        rw [hb.files] at hf
        cases hf }

/-! ## Running served calls -/

instance (j : Journal) : (op : Op) → Decidable (Served j op)
  | .write file buffer length _ => inferInstanceAs
      (Decidable (j.chosen file ≠ none ∧ ∀ b ∈ buffer, ∀ l < length.toNat, (b l).isSome))
  | .read file buffer length => inferInstanceAs
      (Decidable (j.chosen file ≠ none ∧ ∀ w ∈ buffer, ∀ l < length.toNat, w l = true))
  | .open .. | .ioctl .. | .release .. => .isTrue trivial

/-- The module just after it was loaded. -/
def boot (grants : ℕ → Bool) : Option System :=
  (prepare grants).toOption.map (⟨·, .empty⟩)

/-- Serve one call. -/
def serve (grants : ℕ → Bool) (s : System) (op : Op) : Option System :=
  if Served s.journal op then
    (call grants s.kernel op).toOption.map fun r => ⟨r.1, s.journal.record op r.2⟩
  else none

theorem eq_ok_of_toOption {α : Type} {x : Except Fault α} {a : α} (h : x.toOption = some a) :
    x = .ok a := by
  cases x with
  | error e => cases h
  | ok b => exact congrArg _ (Option.some.inj h)

theorem boot_init {s : System} (h : boot grants = some s) : (servedSlots grants).init s := by
  obtain ⟨k, hk, rfl⟩ := Option.map_eq_some_iff.mp h
  exact ⟨eq_ok_of_toOption hk, rfl⟩

theorem serve_step {s t : System} {op : Op} (h : serve grants s op = some t) :
    (servedSlots grants).step s op t := by
  rw [serve, Option.ite_none_right_eq_some] at h
  obtain ⟨hop, h⟩ := h
  obtain ⟨⟨k, ret⟩, hcall, rfl⟩ := Option.map_eq_some_iff.mp h
  exact ⟨⟨ret, eq_ok_of_toOption hcall, rfl⟩, hop⟩

/-- Two files choose channel 7 of slot 5, and `AB` is written through the second. -/
def sampleOps : List Op :=
  [.open 0 5 0#64, .ioctl 0 MSG_SLOT_CHANNEL 7#64, .open 1 5 0#64,
    .ioctl 1 MSG_SLOT_CHANNEL 7#64, .write 1 (some fun l => [65#8, 66#8][l]?) 2#64 fun _ => 0#8]

end OsCourse.MessageSlot
