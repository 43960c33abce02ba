import OsCourse.MessageSlot.Utilities
import OsCourse.MessageSlot.Failures
import OsCourse.MessageSlot.Finalize

/-! # Messages between processes

Senders and readers in any order and any number. What a turn of one of them can do is stated
once, with its effect on the device and on the open files, and every result about their runs
is read off that.
-/

namespace OsCourse.MessageSlot
open Foundations Store

variable {grants : ℕ → Bool} {lookup : List Byte → Target} {commands : ℕ → Command}
  {n i : ℕ} {c : Command} {env : Env} {s t : System} {p p' : Process} {op : Op} {ret : Ret}
  {m : Minor} {id : BitVec 32}

/-! ## System calls -/

theorem issue_eq_some : issue grants s op = some (t, ret) ↔
    call grants s.kernel op = .ok (t.kernel, ret) ∧ t.journal = s.journal.record op ret := by
  rw [issue, Option.map_eq_some_iff]
  constructor
  · rintro ⟨⟨k, r⟩, hcall, he⟩
    obtain ⟨rfl, rfl⟩ := Prod.mk.inj he
    exact ⟨eq_ok_of_toOption hcall, rfl⟩
  · rintro ⟨hcall, hj⟩
    refine ⟨(t.kernel, ret), by rw [hcall]; rfl, ?_⟩
    rw [← hj]

/-- Where every allocation succeeds, a served call returns. -/
theorem exists_issue (hg : ∀ n, grants n = true) (hs : (servedSlots grants).Reachable s)
    (hop : Served s.journal op) : ∃ t ret, issue grants s op = some (t, ret) := by
  obtain ⟨d, nodes, h, hc⟩ := tracked_of_reachable hs
  obtain ⟨k', ret, hcall⟩ := (hc.follows h.toStore).call_served h hg hop
  exact ⟨⟨k', s.journal.record op ret⟩, ret, issue_eq_some.mpr ⟨hcall, rfl⟩⟩

/-- What a served call on file `n` leaves alone. -/
structure Call (grants : ℕ → Bool) (n : ℕ) (s t : System) : Prop where
  reachable : (servedSlots grants).Reachable t
  files : ∀ i, i ≠ n → t.journal.files i = s.journal.files i

theorem Call.issued (hs : (servedSlots grants).Reachable s)
    (h : issue grants s op = some (t, ret)) (hop : Served s.journal op) :
    Call grants op.file s t := by
  obtain ⟨hcall, hj⟩ := issue_eq_some.mp h
  refine ⟨hs.step ⟨⟨ret, hcall, hj⟩, hop⟩, fun i hi => ?_⟩
  rw [hj, record_of_ne hi]

theorem Call.none (n : ℕ) (hs : (servedSlots grants).Reachable s) : Call grants n s s :=
  ⟨hs, fun _ _ => rfl⟩

/-- `open` puts the file into the journal, or fails. -/
theorem issue_open (garbage : BitVec 64) (hfile : s.journal.files n = none)
    (h : issue grants s (.open n m garbage) = some (t, ret)) :
    t.journal.writes = s.journal.writes ∧
      t.journal.files n = if ret.value = 0 then some (m, none) else none := by
  obtain ⟨_, hj⟩ := issue_eq_some.mp h
  rw [hj, Journal.record]
  split
  · exact ⟨rfl, Function.update_self ..⟩
  · exact ⟨rfl, hfile⟩

/-- `open` fails only for want of memory. -/
theorem refused_of_open {garbage : BitVec 64} (hs : (servedSlots grants).Reachable s)
    (hfile : s.journal.files n = none) (h : issue grants s (.open n m garbage) = some (t, ret))
    (hret : ret.value ≠ 0) : grants s.kernel.fresh = false := by
  obtain ⟨hcall, _⟩ := issue_eq_some.mp h
  obtain ⟨d, nodes, ho, hc⟩ := tracked_of_reachable hs
  have hnone : s.kernel.files n = none :=
    Option.map_eq_none_iff.mp ((hc.files n).trans (by rw [hfile, Option.map_none]))
  by_contra hgrant
  rw [Bool.not_eq_false] at hgrant
  rw [call, hnone] at hcall
  by_cases hm : d.minors m = 0
  · cases hgrant' : grants (s.kernel.fresh + 1) with
    | false =>
      rw [ho.toStore.deviceOpen_starved hgrant hgrant' hm (ho.room hm)] at hcall
      cases hcall
    | true =>
      have hnot : ¬ Starved grants s.kernel := by simp [Starved, hgrant, hgrant']
      rw [ho.toStore.deviceOpen_create hnot hm (ho.room hm)] at hcall
      obtain ⟨_, rfl⟩ := Prod.mk.inj (Except.ok.inj hcall)
      exact hret rfl
  · rw [ho.toStore.deviceOpen_reopen hgrant hm] at hcall
    obtain ⟨_, rfl⟩ := Prod.mk.inj (Except.ok.inj hcall)
    exact hret rfl

/-- `ioctl` chooses a channel other than 0, or fails: for the number 0, another command, or a slot
that is full. -/
theorem issue_ioctl {cmd : BitVec 32} {param : BitVec 64} {old : Option (BitVec 64)}
    (hs : (servedSlots grants).Reachable s) (hfile : s.journal.files n = some (m, old))
    (h : issue grants s (.ioctl n cmd param) = some (t, ret)) :
    t.journal.writes = s.journal.writes ∧
      ((ret.value < 0 ∧ t.journal.files n = some (m, none) ∧
          (param = 0#64 ∨ cmd ≠ MSG_SLOT_CHANNEL ∨ s.kernel.FullWithout m (narrow param))) ∨
        (ret.value = 0 ∧ param ≠ 0#64 ∧ t.journal.files n = some (m, some param))) := by
  obtain ⟨hcall, hj⟩ := issue_eq_some.mp h
  obtain ⟨d, nodes, ho, hc⟩ := tracked_of_reachable hs
  obtain ⟨d', nodes', ht⟩ := ho.call_ok hcall
  have hminor : (s.kernel.files n).map File.f_inode = some m := by
    rw [hc.files n, hfile, Option.map_some]
  have hrec : t.journal.files n = some (m, if ret.value = 0 then some param else none) := by
    rw [hj, Journal.record, hfile]
    exact Function.update_self ..
  refine ⟨by rw [hj]; exact record_writes s.journal fun _ _ _ _ hop => (by cases hop), ?_⟩
  by_cases hret : ret.value = 0
  · obtain ⟨_, _, hgood, _⟩ := ht.chosen ho.toStore hret
    rw [if_pos hret] at hrec
    exact Or.inr ⟨hret, fun h0 => hgood (Or.inl h0), hrec⟩
  · rw [if_neg hret] at hrec
    left
    generalize t.kernel = k' at ht
    cases ht with
    | reject hop hres =>
      refine ⟨hres.neg, hrec, ?_⟩
      rcases hop with hnone | hparam | hcmd
      · rw [hnone] at hminor
        cases hminor
      · exact Or.inl hparam
      · exact Or.inr (Or.inl hcmd)
    | full hf _ _ hnot hlim =>
      rw [hf] at hminor
      obtain rfl := Option.some.inj hminor
      exact ⟨by decide, hrec, Or.inr (Or.inr (ho.fullWithout_iff.mpr ⟨ho.full_iff.mp hlim, hnot⟩))⟩
    | _ => exact absurd rfl hret

/-- `close` takes the file out of the journal. -/
theorem issue_release (hs : (servedSlots grants).Reachable s)
    (h : issue grants s (.release n) = some (t, ret)) :
    t.journal.writes = s.journal.writes ∧ t.journal.files n = none := by
  obtain ⟨hcall, hj⟩ := issue_eq_some.mp h
  obtain ⟨d, nodes, ho, hc⟩ := tracked_of_reachable hs
  obtain ⟨d', nodes', ht⟩ := ho.call_ok hcall
  refine ⟨by rw [hj]; exact record_writes s.journal fun _ _ _ _ hop => (by cases hop), ?_⟩
  rw [hj, Journal.record]
  generalize t.kernel = k' at ht
  cases ht with
  | reject hop hres =>
    rw [if_neg hres.neg.ne]
    exact (hc.follows ho.toStore).journal_none (selection_eq_none hop)
  | release =>
    rw [if_pos rfl]
    exact Function.update_self ..

/-- A message that the module takes. -/
def CString.Sendable (s : CString) : Prop := 0 < s.bytes.length ∧ s.bytes.length ≤ BUFFER_LENGTH

instance (s : CString) : Decidable s.Sendable := inferInstanceAs (Decidable (_ ∧ _))

theorem CString.toNat_strlen (s : CString) : (BitVec.ofNat 64 s.strlen).toNat = s.bytes.length := by
  have hlt := s.bounded
  rw [s.strlen_eq, BitVec.toNat_ofNat, Nat.mod_eq_of_lt (hlt.trans (by decide))]

/-- The write of a string is stored whole, or turned down. -/
theorem issue_write (message : CString) (garbage : DataMessage)
    (hs : (servedSlots grants).Reachable s) (hkey : s.journal.chosen n = some (m, id))
    (hid : id ≠ 0#32) (h : issue grants s (.write n (some message.memory)
      (BitVec.ofNat 64 message.strlen) garbage) = some (t, ret)) :
    t.journal.files = s.journal.files ∧
      if message.Sendable then ret.value = message.bytes.length ∧
        t.journal.writes = s.journal.writes ++ [((m, id), message.bytes)]
      else ret.value < 0 ∧ t.journal.writes = s.journal.writes := by
  obtain ⟨hcall, hj⟩ := issue_eq_some.mp h
  obtain ⟨d, nodes, ho, hc⟩ := tracked_of_reachable hs
  obtain ⟨num, hsel, rfl, hhas⟩ := (hc.follows ho.toStore).selection_of_chosen hkey
  obtain ⟨f, b, hf, hb, rfl, rfl⟩ := selection_iff.mp hsel
  have hlen := message.toNat_strlen
  have hacc : Accepts (narrow b.channel_num) (some message.memory) (BitVec.ofNat 64 message.strlen) ↔
      message.Sendable := by
    rw [Accepts, hlen, CString.Sendable]
    exact ⟨fun h => h.2.2, fun h => ⟨by simp, hid, h⟩⟩
  have hrec : t.journal = if 0 < ret.value then
      { s.journal with writes := s.journal.writes ++
        [((f.f_inode, narrow b.channel_num), message.bytes)] } else s.journal := by
    rw [hj]
    simp only [Journal.record, hkey, hlen, message.payload_memory]
  rcases ho.toStore.call_write grants hf hb (some message.memory)
      (BitVec.ofNat 64 message.strlen) garbage with
    ⟨hnot, res, hres, hcall'⟩ | ⟨_, _, hcall'⟩ | ⟨_, _, _, _, hnot, _⟩ |
    ⟨bytes, he, hstored, _, p, _, c, _, _, hcall'⟩
  · obtain ⟨_, rfl⟩ := Prod.mk.inj (Except.ok.inj (hcall.symm.trans hcall'))
    rw [hacc] at hnot
    rw [if_neg (not_lt_of_gt hres.neg)] at hrec
    rw [if_neg hnot, hrec]
    exact ⟨rfl, hres.neg, rfl⟩
  · rw [hcall] at hcall'
    cases hcall'
  · exact absurd hhas hnot
  · obtain ⟨_, rfl⟩ := Prod.mk.inj (Except.ok.inj (hcall.symm.trans hcall'))
    have hsend := hacc.mp (he ▸ hstored)
    rw [hlen, if_pos (Int.natCast_pos.mpr hsend.1)] at hrec
    rw [if_pos hsend, hrec, hlen]
    exact ⟨rfl, rfl, rfl⟩

/-- A message is no longer than the buffer that a reader has. -/
theorem length_lastWrite_le (hs : (servedSlots grants).Reachable s) {message : List Byte}
    (hlast : lastWrite (m, id) s.journal.writes = some message) :
    message.length ≤ BUFFER_LENGTH := by
  obtain ⟨d, nodes, _, hc⟩ := tracked_of_reachable hs
  obtain ⟨_, bytes, hshow⟩ := hc.written m id message hlast
  have hbytes := hc.content m id bytes hshow
  rw [hlast, Option.getD_some] at hbytes
  obtain ⟨_, _, _, _, b, _, _, rfl⟩ := hshow
  rw [← hbytes, List.length_take, List.length_ofFn]
  exact Nat.min_le_right ..

/-- The read of a utility returns the last message of the channel, if there is one. -/
theorem issue_read (hs : (servedSlots grants).Reachable s)
    (hkey : s.journal.chosen n = some (m, id)) (h : issue grants s
      (.read n (some fun _ => true) (BitVec.ofNat 64 BUFFER_LENGTH)) = some (t, ret)) :
    t = s ∧ ret = (lastWrite (m, id) s.journal.writes).elim ⟨-EWOULDBLOCK, []⟩
      fun message => ⟨message.length, message⟩ := by
  obtain ⟨hcall, hj⟩ := issue_eq_some.mp h
  obtain ⟨d, nodes, ho, hc⟩ := tracked_of_reachable hs
  rw [hc.read_eq ho.toStore hkey (by decide) (by decide) fun _ _ => rfl] at hcall
  obtain ⟨hk, rfl⟩ := Prod.mk.inj (Except.ok.inj hcall)
  refine ⟨?_, ?_⟩
  · obtain ⟨k, j⟩ := t
    obtain rfl : j = s.journal := hj
    rw [show k = s.kernel from hk.symm]
  · cases hlast : lastWrite (m, id) s.journal.writes with
    | none => rfl
    | some message =>
      have hle := length_lastWrite_le hs hlast
      exact if_neg (Nat.not_lt_of_le hle)

/-! ## The turns of a process -/

namespace Command

/-- The slot that `argv[1]` leads to. -/
def device (lookup : List Byte → Target) (c : Command) : Option Minor :=
  match lookup (c.arg 1).bytes with
  | .slot m => some m
  | _ => none

/-- The number in `argv[2]`. -/
def channel (c : Command) : BitVec 32 := (c.arg 2).atoi

/-- The channel that the module takes a process to mean. -/
theorem narrow_channel_id (c : Command) : narrow c.channel_id = c.channel := by
  refine BitVec.eq_of_getLsbD_eq fun i hi => ?_
  rw [narrow, channel_id, BitVec.getLsbD_setWidth, BitVec.getLsbD_signExtend]
  simp [hi, Nat.lt_trans hi (by decide : 32 < 64), channel]

theorem channel_ne_zero (h : c.channel_id ≠ 0#64) : c.channel ≠ 0#32 := by
  intro h0
  rw [channel_id, show (c.arg 2).atoi = 0#32 from h0] at h
  exact h rfl

theorem channel_eq_zero (c : Command) (h : c.channel_id = 0#64) : c.channel = 0#32 := by
  rw [← narrow_channel_id, h]
  rfl

/-- What the journal says about the file of a process that is at `pc`. -/
def Placed (lookup : List Byte → Target) (c : Command) :
    Pc → Option (Minor × Option (BitVec 64)) → Prop
  | .start, e => e = none
  | .ioctl, e => lookup (c.arg 1).bytes ≠ .missing ∧ e.map Prod.fst = c.device lookup
  | .transfer, e => c.channel ≠ 0#32 ∧
      ∃ m, c.device lookup = some m ∧ e = some (m, some c.channel_id)
  | .exited _, e | .killed, e => e = none
  | _, e => e.map Prod.fst = c.device lookup

end Command

/-- The reason for which a process gives up with a text, at the turn that it takes at a position. -/
inductive Command.Blames (grants : ℕ → Bool) (lookup : List Byte → Target) (c : Command)
    (s : System) : Pc → String → Prop
  | argc (h : c.argv.length ≠ c.utility.argc) : Blames grants lookup c s .start "Invalid command"
  | missing (hargc : c.argv.length = c.utility.argc) (h : lookup (c.arg 1).bytes = .missing) :
      Blames grants lookup c s .start "Error opening file"
  | refused {m : Minor} (hargc : c.argv.length = c.utility.argc) (hm : c.device lookup = some m)
      (h : grants s.kernel.fresh = false) : Blames grants lookup c s .start "Error opening file"
  | other (h : lookup (c.arg 1).bytes = .other) :
      Blames grants lookup c s .ioctl "Error setting channel"
  | zero {m : Minor} (hm : c.device lookup = some m) (h : c.channel = 0#32) :
      Blames grants lookup c s .ioctl "Error setting channel"
  | full {m : Minor} (hm : c.device lookup = some m) (h : s.kernel.FullWithout m c.channel) :
      Blames grants lookup c s .ioctl "Error setting channel"
  | message (hc : c.utility = .message_sender) (h : ¬ (c.arg 3).Sendable) :
      Blames grants lookup c s .transfer "Error sending message"
  | read {m : Minor} (hc : c.utility = .message_reader) (hm : c.device lookup = some m)
      (h : lastWrite (m, c.channel) s.journal.writes = none) :
      Blames grants lookup c s .transfer "Error reading message"

/-- What a turn does to a process, to the journal's entry for its file and to the messages that have
been accepted. -/
inductive Move (grants : ℕ → Bool) (lookup : List Byte → Target) (c : Command) (s : System)
    (p : Process) :
    Process → Option (Minor × Option (BitVec 64)) → List ((Minor × BitVec 32) × List Byte) → Prop
  | refused {text : String} (hpc : p.pc = .start) (hwhy : c.Blames grants lookup s p.pc text) :
      Move grants lookup c s p ((p.complain text).goto (.exited 1)) none s.journal.writes
  | opened (hpc : p.pc = .start) (hm : lookup (c.arg 1).bytes ≠ .missing) :
      Move grants lookup c s p (p.goto .ioctl) ((c.device lookup).map (·, none)) s.journal.writes
  | failed {text : String} {e : Option (Minor × Option (BitVec 64))}
      (hpc : p.pc = .ioctl ∨ p.pc = .transfer) (hwhy : c.Blames grants lookup s p.pc text)
      (he : e.map Prod.fst = c.device lookup) :
      Move grants lookup c s p ((p.complain text).goto (.close 1 [])) e s.journal.writes
  | chosen {m : Minor} (hpc : p.pc = .ioctl) (hm : c.device lookup = some m)
      (hid : c.channel ≠ 0#32) :
      Move grants lookup c s p (p.goto .transfer) (some (m, some c.channel_id)) s.journal.writes
  | sent {m : Minor} (hpc : p.pc = .transfer) (hc : c.utility = .message_sender)
      (hm : c.device lookup = some m) (hsend : (c.arg 3).Sendable) :
      Move grants lookup c s p (p.goto (.close 0 [])) (some (m, some c.channel_id))
        (s.journal.writes ++ [((m, c.channel), (c.arg 3).bytes)])
  | received {m : Minor} {message : List Byte} (hpc : p.pc = .transfer)
      (hc : c.utility = .message_reader) (hm : c.device lookup = some m)
      (hlast : lastWrite (m, c.channel) s.journal.writes = some message) :
      Move grants lookup c s p (p.goto (.print message)) (some (m, some c.channel_id))
        s.journal.writes
  | printed {e : Option (Minor × Option (BitVec 64))} {message : List Byte} (write_val : ℕ)
      (hpc : p.pc = .print message) (he : e.map Prod.fst = c.device lookup) :
      Move grants lookup c s p { p with
        pc := .close 0 []
        stdout := p.stdout ++ message.take write_val } e s.journal.writes
  | unprinted {e : Option (Minor × Option (BitVec 64))} {message : List Byte}
      (hpc : p.pc = .print message) (he : e.map Prod.fst = c.device lookup) :
      Move grants lookup c s p (p.goto (.close 0 ["Error printing read message"])) e
        s.journal.writes
  | killed {message : List Byte} (hpc : p.pc = .print message) :
      Move grants lookup c s p (p.goto .killed) none s.journal.writes
  | closed {status : ℕ} {late : List String} (hpc : p.pc = .close status late) :
      Move grants lookup c s p { p with pc := .exited status, stderr := p.stderr ++ late } none
        s.journal.writes

theorem device_eq_some : c.device lookup = some m ↔ lookup (c.arg 1).bytes = .slot m := by
  rw [Command.device]
  cases lookup (c.arg 1).bytes with
  | slot => simp
  | _ => simp

theorem device_eq_none (h : ∀ m, lookup (c.arg 1).bytes ≠ .slot m) : c.device lookup = none := by
  rw [Option.eq_none_iff_forall_ne_some]
  exact fun m hm => h m (device_eq_some.mp hm)

/-- After a turn the journal has the entry that belongs to the new position. -/
theorem Move.placed {w : List ((Minor × BitVec 32) × List Byte)}
    {e : Option (Minor × Option (BitVec 64))} (h : Move grants lookup c s p p' e w) :
    c.Placed lookup p'.pc e := by
  cases h with
  | refused | killed | closed => rfl
  | opened _ hm =>
    refine ⟨hm, ?_⟩
    rw [Option.map_map]
    exact Option.map_id'
  | failed _ _ he | printed _ _ he | unprinted _ he => exact he
  | chosen _ hm hid => exact ⟨hid, _, hm, rfl⟩
  | sent _ _ hm | received _ _ hm => exact hm.symm

/-- A turn of process `n` that follows the rules. -/
structure Took (grants : ℕ → Bool) (lookup : List Byte → Target) (n : ℕ) (c : Command) (s : System)
    (p : Process) (t : System) (p' : Process) : Prop where
  call : Call grants n s t
  move : Move grants lookup c s p p' (t.journal.files n) t.journal.writes

theorem Took.of_eq (hs : (servedSlots grants).Reachable s)
    {e : Option (Minor × Option (BitVec 64))} (he : s.journal.files n = e)
    (h : Move grants lookup c s p p' e s.journal.writes) :
    Took grants lookup n c s p s p' := ⟨.none n hs, he ▸ h⟩

theorem chosen_of_file {param : BitVec 64} (hfile : s.journal.files n = some (m, some param)) :
    s.journal.chosen n = some (m, narrow param) := by
  rw [Journal.chosen, hfile]

theorem openFile_took (hs : (servedSlots grants).Reachable s) (hpc : p.pc = .start)
    (hfile : s.journal.files n = none)
    (h : openFile grants lookup n c env s p = some (t, p')) : Took grants lookup n c s p t p' := by
  rw [openFile] at h
  by_cases hargc : c.argv.length ≠ c.utility.argc
  · rw [if_pos hargc] at h
    obtain ⟨rfl, rfl⟩ := Prod.mk.inj (Option.some.inj h)
    exact .of_eq hs hfile (.refused hpc (hpc ▸ .argc hargc))
  · rw [if_neg hargc] at h
    have hargc' := not_not.mp hargc
    cases hm : lookup (c.arg 1).bytes with
    | missing =>
      rw [hm] at h
      obtain ⟨rfl, rfl⟩ := Prod.mk.inj (Option.some.inj h)
      exact .of_eq hs hfile (.refused hpc (hpc ▸ .missing hargc' hm))
    | other =>
      rw [hm] at h
      obtain ⟨rfl, rfl⟩ := Prod.mk.inj (Option.some.inj h)
      have hnone : c.device lookup = none := device_eq_none fun m hm' => by simp [hm] at hm'
      exact .of_eq hs (by rw [hfile, hnone, Option.map_none]) (.opened hpc (by simp [hm]))
    | slot m =>
      rw [hm] at h
      obtain ⟨⟨u, ret⟩, hissue, h⟩ := Option.bind_eq_some_iff.mp h
      dsimp only at h
      obtain ⟨hwrites, hentry⟩ := issue_open _ hfile hissue
      have hcall : Call grants n s u := .issued hs hissue trivial
      by_cases hret : ret.value = 0
      · rw [if_neg (not_not.mpr hret)] at h
        obtain ⟨rfl, rfl⟩ := Prod.mk.inj (Option.some.inj h)
        rw [if_pos hret] at hentry
        refine ⟨hcall, ?_⟩
        rw [hentry, hwrites, show some (m, none) = (c.device lookup).map (·, none) by
          rw [device_eq_some.mpr hm, Option.map_some]]
        exact .opened hpc (by simp [hm])
      · rw [if_pos hret] at h
        obtain ⟨rfl, rfl⟩ := Prod.mk.inj (Option.some.inj h)
        rw [if_neg hret] at hentry
        have hwhy : c.Blames grants lookup s p.pc "Error opening file" :=
          hpc ▸ .refused hargc' (device_eq_some.mpr hm) (refused_of_open hs hfile hissue hret)
        exact ⟨hcall, by rw [hentry, hwrites]; exact .refused hpc hwhy⟩

theorem libc_neg_iff (value : ℤ) : libc value < 0 ↔ value < 0 := by
  rw [libc]
  split <;> omega

theorem setChannel_took (hs : (servedSlots grants).Reachable s) (hpc : p.pc = .ioctl)
    (hmiss : lookup (c.arg 1).bytes ≠ .missing)
    (hfile : (s.journal.files n).map Prod.fst = c.device lookup)
    (h : setChannel grants lookup n c s p = some (t, p')) : Took grants lookup n c s p t p' := by
  rw [setChannel] at h
  cases hm : lookup (c.arg 1).bytes with
  | slot m =>
    rw [hm] at h
    obtain ⟨⟨u, ret⟩, hissue, h⟩ := Option.bind_eq_some_iff.mp h
    dsimp only at h
    have hdev := device_eq_some.mpr hm
    rw [hdev] at hfile
    obtain ⟨⟨m', old⟩, hold, hm'⟩ := Option.map_eq_some_iff.mp hfile
    rw [show m' = m from hm'] at hold
    have hcall : Call grants n s u := .issued hs hissue trivial
    obtain ⟨hwrites, ⟨hneg, hentry, hwhy⟩ | ⟨hret, hparam, hentry⟩⟩ := issue_ioctl hs hold hissue
    · rw [if_pos ((libc_neg_iff _).mpr hneg)] at h
      obtain ⟨rfl, rfl⟩ := Prod.mk.inj (Option.some.inj h)
      refine ⟨hcall, ?_⟩
      rw [hentry, hwrites]
      refine .failed (Or.inl hpc) (hpc ▸ ?_) hdev.symm
      rcases hwhy with hzero | hcmd | hfull
      · exact .zero hdev (c.channel_eq_zero hzero)
      · exact absurd rfl hcmd
      · exact .full hdev (c.narrow_channel_id ▸ hfull)
    · rw [if_neg (by rw [libc_neg_iff, hret]; exact lt_irrefl _)] at h
      obtain ⟨rfl, rfl⟩ := Prod.mk.inj (Option.some.inj h)
      exact ⟨hcall, by
        rw [hentry, hwrites]
        exact .chosen hpc hdev (c.channel_ne_zero hparam)⟩
  | missing => exact absurd hm hmiss
  | other =>
    rw [hm] at h
    obtain ⟨rfl, rfl⟩ := Prod.mk.inj (Option.some.inj h)
    exact ⟨.none n hs, .failed (Or.inl hpc) (hpc ▸ .other hm) hfile⟩

/-- The value of a write is compared as a `size_t`. -/
theorem written_iff (message : CString) {value : ℤ}
    (hvalue : value < 0 ∨ value = message.bytes.length) :
    BitVec.ofInt 64 (libc value) = BitVec.ofNat 64 message.strlen ↔
      value = message.bytes.length := by
  have hlt : message.bytes.length < MAX_ARG_STRLEN := message.bounded
  rcases hvalue with hneg | rfl
  · rw [libc, if_pos hneg]
    refine iff_of_false (fun he => ?_) (by omega)
    have hto := congrArg BitVec.toNat he
    rw [message.toNat_strlen] at hto
    have hall : (BitVec.ofInt 64 (-1)).toNat = 2 ^ 64 - 1 := by decide
    rw [hall] at hto
    simp only [MAX_ARG_STRLEN] at hlt
    omega
  · rw [libc, if_neg (by omega), BitVec.ofInt_natCast, message.strlen_eq]
    exact iff_of_true rfl rfl

theorem sendMessage_took (hs : (servedSlots grants).Reachable s) (hpc : p.pc = .transfer)
    (hc : c.utility = .message_sender) (hm : c.device lookup = some m) (hid : c.channel ≠ 0#32)
    (hfile : s.journal.files n = some (m, some c.channel_id))
    (h : sendMessage grants n c env s p = some (t, p')) : Took grants lookup n c s p t p' := by
  rw [sendMessage] at h
  obtain ⟨⟨u, ret⟩, hissue, h⟩ := Option.bind_eq_some_iff.mp h
  dsimp only at h
  have hkey := chosen_of_file hfile
  rw [c.narrow_channel_id] at hkey
  obtain ⟨hfiles, hwrites⟩ := issue_write _ _ hs hkey hid hissue
  have hcall : Call grants n s u := .issued hs hissue ⟨by simp [hkey], by
    intro b hb l hl
    rw [CString.toNat_strlen] at hl
    exact Option.some.inj hb ▸ (c.arg 3).memory_isSome hl⟩
  rw [← hfiles] at hfile
  by_cases hsend : (c.arg 3).Sendable
  · rw [if_pos hsend] at hwrites
    rw [if_neg (not_not.mpr ((written_iff _ (Or.inr hwrites.1)).mpr hwrites.1))] at h
    obtain ⟨rfl, rfl⟩ := Prod.mk.inj (Option.some.inj h)
    exact ⟨hcall, by rw [hfile, hwrites.2]; exact .sent hpc hc hm hsend⟩
  · rw [if_neg hsend] at hwrites
    have hne : ret.value ≠ (c.arg 3).bytes.length := by omega
    rw [if_pos fun he => hne ((written_iff _ (Or.inl hwrites.1)).mp he)] at h
    obtain ⟨rfl, rfl⟩ := Prod.mk.inj (Option.some.inj h)
    exact ⟨hcall, by
      rw [hfile, hwrites.2]
      exact .failed (Or.inr hpc) (hpc ▸ .message hc hsend) hm.symm⟩

theorem readMessage_took (hs : (servedSlots grants).Reachable s) (hpc : p.pc = .transfer)
    (hc : c.utility = .message_reader) (hm : c.device lookup = some m)
    (hfile : s.journal.files n = some (m, some c.channel_id))
    (h : readMessage grants n env s p = some (t, p')) : Took grants lookup n c s p t p' := by
  rw [readMessage] at h
  obtain ⟨⟨u, ret⟩, hissue, hreact⟩ := Option.bind_eq_some_iff.mp h
  dsimp only at hreact
  have hkey := chosen_of_file hfile
  rw [c.narrow_channel_id] at hkey
  obtain ⟨rfl, hret⟩ := issue_read hs hkey hissue
  cases hlast : lastWrite (m, c.channel) u.journal.writes with
  | none =>
    rw [hlast] at hret
    rw [hret, if_pos (by decide)] at hreact
    obtain ⟨rfl, rfl⟩ := Prod.mk.inj (Option.some.inj hreact)
    exact .of_eq hs hfile (.failed (Or.inr hpc) (hpc ▸ .read hc hm hlast) hm.symm)
  | some message =>
    rw [hlast] at hret
    have hlibc : libc ret.value = message.length := by
      rw [hret]
      exact if_neg (by simp)
    rw [hlibc, if_neg (by omega), hret] at hreact
    obtain ⟨rfl, rfl⟩ := Prod.mk.inj (Option.some.inj hreact)
    refine .of_eq hs hfile ?_
    rw [show ((message.length : ℤ)).toNat = message.length from rfl]
    dsimp only [Option.elim_some]
    rw [List.take_left]
    exact .received hpc hc hm hlast

theorem release_spec (hs : (servedSlots grants).Reachable s)
    (hfile : (s.journal.files n).map Prod.fst = c.device lookup)
    (h : release grants lookup n c s = some t) :
    Call grants n s t ∧ t.journal.files n = none ∧ t.journal.writes = s.journal.writes := by
  rw [release] at h
  cases hm : lookup (c.arg 1).bytes with
  | slot m =>
    rw [hm] at h
    obtain ⟨⟨u, ret⟩, hissue, rfl⟩ := Option.map_eq_some_iff.mp h
    obtain ⟨hwrites, hentry⟩ := issue_release hs hissue
    exact ⟨.issued hs hissue trivial, hentry, hwrites⟩
  | _ =>
    rw [hm] at h
    obtain rfl := Option.some.inj h
    rw [device_eq_none fun m hm' => by simp [hm] at hm', Option.map_eq_none_iff] at hfile
    exact ⟨.none n hs, hfile, rfl⟩

theorem printMessage_took {message : List Byte} (hs : (servedSlots grants).Reachable s)
    (hpc : p.pc = .print message) (hfile : (s.journal.files n).map Prod.fst = c.device lookup)
    (h : printMessage grants lookup n c message env s p = some (t, p')) :
    Took grants lookup n c s p t p' := by
  rw [printMessage] at h
  cases hout : env.stdout with
  | written write_val =>
    rw [hout] at h
    obtain ⟨rfl, rfl⟩ := Prod.mk.inj (Option.some.inj h)
    exact ⟨.none n hs, .printed write_val hpc hfile⟩
  | failed =>
    rw [hout] at h
    obtain ⟨rfl, rfl⟩ := Prod.mk.inj (Option.some.inj h)
    exact ⟨.none n hs, .unprinted hpc hfile⟩
  | sigpipe =>
    rw [hout] at h
    obtain ⟨u, hrelease, he⟩ := Option.map_eq_some_iff.mp h
    obtain ⟨rfl, rfl⟩ := Prod.mk.inj he
    obtain ⟨hcall, hentry, hwrites⟩ := release_spec hs hfile hrelease
    exact ⟨hcall, by rw [hentry, hwrites]; exact .killed hpc⟩

theorem closeFile_took {status : ℕ} {late : List String} (hs : (servedSlots grants).Reachable s)
    (hpc : p.pc = .close status late) (hfile : (s.journal.files n).map Prod.fst = c.device lookup)
    (h : closeFile grants lookup n c status late s p = some (t, p')) :
    Took grants lookup n c s p t p' := by
  obtain ⟨u, hrelease, he⟩ := Option.map_eq_some_iff.mp h
  obtain ⟨rfl, rfl⟩ := Prod.mk.inj he
  obtain ⟨hcall, hentry, hwrites⟩ := release_spec hs hfile hrelease
  exact ⟨hcall, by rw [hentry, hwrites]; exact .closed hpc⟩

/-- Every turn follows the rules. -/
theorem main_took (hs : (servedSlots grants).Reachable s)
    (hplaced : c.Placed lookup p.pc (s.journal.files n))
    (h : main grants lookup n c env s p = some (t, p')) : Took grants lookup n c s p t p' := by
  rw [main] at h
  cases hpc : p.pc with
  | start =>
    rw [hpc] at h hplaced
    exact openFile_took hs hpc hplaced h
  | ioctl =>
    rw [hpc] at h hplaced
    exact setChannel_took hs hpc hplaced.1 hplaced.2 h
  | transfer =>
    rw [hpc] at h hplaced
    obtain ⟨hid, m, hm, hfile⟩ := hplaced
    cases hc : c.utility with
    | message_sender =>
      rw [hc] at h
      exact sendMessage_took hs hpc hc hm hid hfile h
    | message_reader =>
      rw [hc] at h
      exact readMessage_took hs hpc hc hm hfile h
  | print message =>
    rw [hpc] at h hplaced
    exact printMessage_took hs hpc hplaced h
  | close status late =>
    rw [hpc] at h hplaced
    exact closeFile_took hs hpc hplaced h
  | exited | killed =>
    rw [hpc] at h
    cases h

end OsCourse.MessageSlot
