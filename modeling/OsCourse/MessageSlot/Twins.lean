import OsCourse.MessageSlot.Selection

/-! # Two runs that differ by one write

The same calls are made in two runs, one of which has made a write before. What a file
reads is the same in both as long as they agree on the selections and on the one channel
that the file has chosen. Channels are told apart by the low halves of their numbers only.
-/

namespace OsCourse.MessageSlot
open Foundations Store

variable {grants grants' : ℕ → Bool} {k k' : Kernel} {d d' : MessageSlotsDevices}
  {nodes nodes' : Minor → List Ptr} {m : Minor} {op : Op} {ret : Ret} {file : ℕ}
  {num : BitVec 64} {bytes : List Byte} {j : Journal}

/-! ## Selections that returned 0 -/

theorem Turn.has_mono (ht : Turn k d nodes op k' d' nodes' ret) (h : Store k d nodes)
    {id : BitVec 32} (hhas : Has k nodes m id) : Has k' nodes' m id := by
  obtain ⟨p, hp, c, hc, hid⟩ := exists_at_of_has hhas
  obtain ⟨c', hc', hid'⟩ := ht.ids h hc
  rw [← hid, ← hid']
  exact (ht.keeps h).has_of_at (((ht.prolongs h).list m).subset hp) hc'

/-- An `ioctl` that returns 0 has found its channel, or made it. -/
theorem Turn.chosen {cmd : BitVec 32} {param : BitVec 64}
    (ht : Turn k d nodes (.ioctl file cmd param) k' d' nodes' ret) (h : Store k d nodes)
    (hret : ret.value = 0) :
    ∃ f, k.files file = some f ∧ ¬ (param = 0#64 ∨ cmd ≠ MSG_SLOT_CHANNEL) ∧
      Has k' nodes' f.f_inode (narrow param) := by
  rcases ht.ioctl_selected h with hres | ⟨f, _, hf, _, hgood, hsel⟩
  · exact absurd hret hres.neg.ne
  · exact ⟨f, hf, hgood, hsel.has hret⟩

/-- The journal's files are the open ones, and a channel that was chosen exists. -/
structure Follows (k : Kernel) (nodes : Minor → List Ptr) (j : Journal) : Prop where
  minor : ∀ i, (j.files i).map Prod.fst = (k.selection i).map Prod.fst
  chosen : ∀ i m num, j.files i = some (m, some num) →
    k.selection i = some (m, num) ∧ Has k nodes m (narrow num)

theorem reselected_of_ne {i : ℕ} (hi : i ≠ op.file) (sel : ℕ → Option (Minor × BitVec 64))
    (ret : Ret) : reselected sel op ret i = sel i := by
  cases op with
  | «open» =>
    rw [reselected]
    split
    · exact Function.update_of_ne hi ..
    · rfl
  | ioctl =>
    rw [reselected]
    split
    · rfl
    · exact Function.update_of_ne hi ..
  | write => rfl
  | read => rfl
  | release => exact Function.update_of_ne hi ..

theorem record_of_ne {i : ℕ} (hi : i ≠ op.file) (j : Journal) (ret : Ret) :
    (j.record op ret).files i = j.files i := by
  cases op with
  | «open» =>
    rw [Journal.record]
    split
    · exact Function.update_of_ne hi ..
    · rfl
  | ioctl =>
    rw [Journal.record]
    split
    · exact Function.update_of_ne hi ..
    · rfl
  | write =>
    simp only [Journal.record]
    split
    · split <;> rfl
    · rfl
  | read => rfl
  | release =>
    rw [Journal.record]
    split
    · exact Function.update_of_ne hi ..
    · rfl

/-- The journal after an `ioctl` on an open file. -/
theorem Follows.record_ioctl (hj : Follows k nodes j) {cmd : BitVec 32} {param : BitVec 64}
    (hsel : k.selection file = some (m, num)) :
    (j.record (.ioctl file cmd param) ret).files file =
      some (m, if ret.value = 0 then some param else none) := by
  have hm := hj.minor file
  rw [hsel] at hm
  obtain ⟨⟨m', c⟩, hfile, rfl⟩ := Option.map_eq_some_iff.mp hm
  rw [Journal.record, hfile]
  exact Function.update_self ..

theorem Follows.journal_none (hj : Follows k nodes j) (hsel : k.selection file = none) :
    j.files file = none := by
  have hm := hj.minor file
  rw [hsel] at hm
  exact Option.map_eq_none_iff.mp hm

/-- Journal and kernel stay in step on the file that a call is about. -/
theorem Follows.minor_file (hj : Follows k nodes j)
    (ht : Turn k d nodes op k' d' nodes' ret) :
    ((j.record op ret).files op.file).map Prod.fst =
      (reselected k.selection op ret op.file).map Prod.fst := by
  have hold := hj.minor op.file
  cases op with
  | «open» file m garbage =>
    simp only [Journal.record, reselected, Op.file] at hold ⊢
    split
    · simp only [Function.update_self, Option.map_some]
    · exact hold
  | ioctl file cmd param =>
    cases hsel : k.selection file with
    | none =>
      have hnone := hj.journal_none hsel
      simp only [Journal.record, reselected, Op.file, hnone, hsel, Option.map_none]
      split
      · rw [hsel, Option.map_none]
      · rw [Function.update_self, Option.map_none]
    | some e =>
      rw [Op.file, hj.record_ioctl hsel, Option.map_some, reselected]
      by_cases hbad : param = 0#64 ∨ cmd ≠ MSG_SLOT_CHANNEL
      · rw [if_pos hbad, hsel, Option.map_some]
      · rw [if_neg hbad, Function.update_self, hsel, Option.map_some, Option.map_some]
  | write file buffer length garbage =>
    simp only [Journal.record, Op.file] at hold ⊢
    split
    · split <;> exact hold
    · exact hold
  | read => exact hold
  | release file =>
    simp only [Journal.record, reselected, Op.file, Function.update_self, Option.map_none]
    split
    · simp only [Function.update_self, Option.map_none]
    · cases ht with
      | reject hop => rw [hj.journal_none (selection_eq_none hop), Option.map_none]
      | release => exact absurd rfl ‹_›

theorem Follows.chosen_file (hj : Follows k nodes j) (h : Store k d nodes)
    (ht : Turn k d nodes op k' d' nodes' ret)
    (hfile : (j.record op ret).files op.file = some (m, some num)) :
    reselected k.selection op ret op.file = some (m, num) ∧ Has k' nodes' m (narrow num) := by
  have hold : j.files op.file = some (m, some num) →
      k.selection op.file = some (m, num) ∧ Has k' nodes' m (narrow num) := fun hf =>
    ⟨(hj.chosen _ m num hf).1, ht.has_mono h (hj.chosen _ m num hf).2⟩
  cases op with
  | «open» file m garbage =>
    simp only [Journal.record, reselected, Op.file] at hfile hold ⊢
    by_cases hret : ret.value = 0
    · simp [hret] at hfile
    · rw [if_neg hret] at hfile ⊢
      exact hold hfile
  | ioctl file cmd param =>
    simp only [Op.file] at hfile ⊢
    cases hsel : k.selection file with
    | none =>
      rw [Journal.record, hj.journal_none hsel] at hfile
      dsimp only at hfile
      rw [hj.journal_none hsel] at hfile
      cases hfile
    | some e =>
      rw [hj.record_ioctl hsel] at hfile
      obtain ⟨rfl, hc⟩ := Prod.mk.inj (Option.some.inj hfile)
      obtain ⟨hret, hparam⟩ := Option.ite_none_right_eq_some.mp hc
      obtain rfl := Option.some.inj hparam
      obtain ⟨f, hf, hgood, hhas⟩ := ht.chosen h hret
      obtain ⟨_, b, hb, _⟩ := h.file file f hf
      obtain rfl := Option.some.inj ((selection_eq_some hf hb).symm.trans hsel)
      rw [reselected, if_neg hgood, Function.update_self, hsel, Option.map_some]
      exact ⟨rfl, hhas⟩
  | write file buffer length garbage =>
    simp only [Journal.record, Op.file] at hfile hold ⊢
    split at hfile
    · split at hfile <;> exact hold hfile
    · exact hold hfile
  | read => exact hold hfile
  | release file =>
    simp only [Journal.record, Op.file] at hfile hold ⊢
    split at hfile
    · simp only [Function.update_self] at hfile
      cases hfile
    · cases ht with
      | reject hop =>
        rw [hj.journal_none (selection_eq_none hop)] at hfile
        cases hfile
      | release => exact absurd rfl ‹_›

theorem Follows.turn (hj : Follows k nodes j) (h : Store k d nodes)
    (ht : Turn k d nodes op k' d' nodes' ret) : Follows k' nodes' (j.record op ret) := by
  refine ⟨fun i => ?_, fun i m num hfile => ?_⟩
  · rw [ht.selection h]
    by_cases hi : i = op.file
    · rw [hi, hj.minor_file ht]
    · rw [record_of_ne hi, reselected_of_ne hi, hj.minor]
  · rw [ht.selection h]
    by_cases hi : i = op.file
    · subst hi
      exact hj.chosen_file h ht hfile
    · rw [record_of_ne hi] at hfile
      rw [reselected_of_ne hi]
      obtain ⟨hsel, hhas⟩ := hj.chosen i m num hfile
      exact ⟨hsel, ht.has_mono h hhas⟩

theorem Follows.init (hk : prepare grants = .ok k) : Follows k (fun _ => []) .empty := by
  have hfiles := (prepare_store hk).2.files
  refine ⟨fun i => ?_, fun i m num hfile => by cases hfile⟩
  rw [selection_eq_none (by rw [hfiles])]
  rfl

theorem followed_of_reachable {s : System} (hs : (messageSlots grants).Reachable s) :
    ∃ d nodes, Orderly s.kernel d nodes ∧ Follows s.kernel nodes s.journal := by
  refine Machine.Reachable.invariant (I := fun s : System => ∃ d nodes, Orderly s.kernel d nodes ∧
    Follows s.kernel nodes s.journal) ?_ ?_ hs
  · rintro s ⟨hk, hempty⟩
    rw [hempty]
    exact ⟨_, _, .init hk, .init hk⟩
  · rintro s op t ⟨d, nodes, h, hj⟩ ⟨ret, hcall, hrec⟩
    obtain ⟨d', nodes', ht⟩ := h.call_ok hcall
    rw [hrec]
    exact ⟨d', nodes', h.turn ht, hj.turn h.toStore ht⟩

/-! ## Content through a call -/

/-- What a call makes of the message `bytes` of the channel `key`. -/
def rewritten (sel : ℕ → Option (Minor × BitVec 64)) (op : Op) (key : Minor × BitVec 32)
    (bytes : List Byte) : List Byte :=
  match op with
  | .write file (some buffer) length _ =>
    if (sel file).map (fun e => (e.1, narrow e.2)) = some key ∧ key.2 ≠ 0#32 ∧
        0 < length.toNat ∧ length.toNat ≤ BUFFER_LENGTH then payload buffer length.toNat
    else bytes
  | _ => bytes

section
variable {id : BitVec 32} {buffer : Option (ℕ → Option Byte)} {length : BitVec 64}
  {garbage : DataMessage} {f : File} {b : PrivateData}

theorem rewritten_hit {buffer : ℕ → Option Byte} (hf : k.files file = some f)
    (hb : k.privates f.private_data = some b)
    (hacc : Accepts (narrow b.channel_num) (some buffer) length) :
    rewritten k.selection (.write file (some buffer) length garbage)
      (f.f_inode, narrow b.channel_num) bytes = payload buffer length.toNat := by
  rw [rewritten, selection_eq_some hf hb]
  exact if_pos ⟨rfl, hacc.2⟩

theorem rewritten_miss (h : ∀ f b, k.files file = some f → k.privates f.private_data = some b →
      m = f.f_inode → id = narrow b.channel_num → ¬ Accepts id buffer length) :
    rewritten k.selection (.write file buffer length garbage) (m, id) bytes = bytes := by
  cases buffer with
  | none => rfl
  | some buffer =>
    refine if_neg ?_
    rintro ⟨hsel, hacc⟩
    obtain ⟨⟨m', num⟩, hsel', hkey⟩ := Option.map_eq_some_iff.mp hsel
    obtain ⟨f, b, hf, hb, rfl, rfl⟩ := selection_iff.mp hsel'
    obtain ⟨hm, hid⟩ := Prod.mk.inj hkey
    exact h f b hf hb hm.symm hid.symm ⟨by simp, hacc⟩

/-- A channel that exists gets the message of every write that reaches it, and of no other. -/
theorem Turn.content (ht : Turn k d nodes op k' d' nodes' ret) (h : Store k d nodes)
    (hs : Shows k nodes m id bytes) :
    Shows k' nodes' m id (rewritten k.selection op (m, id) bytes) := by
  by_cases hwrite : ∃ file buffer length garbage, op = .write file buffer length garbage
  · obtain ⟨file, buffer, length, garbage, rfl⟩ := hwrite
    cases ht with
    | reject hop =>
      rw [rewritten_miss]
      · exact hs
      · rintro f b hf hb rfl rfl
        rcases hop with hnone | ⟨f', b', hf', hb', hacc⟩
        · rw [hnone] at hf
          cases hf
        · obtain rfl := Option.some.inj (hf.symm.trans hf')
          obtain rfl := Option.some.inj (hb.symm.trans hb')
          exact hacc
    | spill hf hb hacc hnot =>
      rw [rewritten_miss]
      · exact (h.copied_shows ..).mpr hs
      · rintro f' b' hf' hb' rfl rfl
        obtain rfl := Option.some.inj (hf.symm.trans hf')
        obtain rfl := Option.some.inj (hb.symm.trans hb')
        exact absurd ⟨_, hs⟩ hnot
    | @store _ f b buffer length _ p c hf hb hacc hp hc hid =>
      rw [stored_shows h hp hc _ hacc.2.2.2, hid]
      by_cases hkey : m = f.f_inode ∧ id = narrow b.channel_num
      · rw [if_pos hkey, hkey.1, hkey.2, rewritten_hit hf hb hacc]
      · rw [if_neg hkey, rewritten_miss]
        · exact hs
        · intro f' b' hf' hb' hm hnum
          obtain rfl := Option.some.inj (hf.symm.trans hf')
          obtain rfl := Option.some.inj (hb.symm.trans hb')
          exact absurd ⟨hm, hnum⟩ hkey
  · have hsame : rewritten k.selection op (m, id) bytes = bytes := by
      cases op with
      | write file buffer length garbage => exact absurd ⟨_, _, _, _, rfl⟩ hwrite
      | _ => rfl
    rw [hsame]
    exact (ht.extends h fun _ _ _ _ heq => absurd ⟨_, _, _, _, heq⟩ hwrite).kept _ _ _ hs

end

/-! ## Twin runs -/

/-- The runs from `k` and `k'` in which the same calls are made; an `open` succeeds in both or in
neither. -/
def twins (grants grants' : ℕ → Bool) (k k' : Kernel) : Machine (Kernel × Kernel) Op where
  init s := s = (k, k')
  step s op t := ∃ ret ret', call grants s.1 op = .ok (t.1, ret) ∧
    call grants' s.2 op = .ok (t.2, ret') ∧
    ∀ file m garbage, op = .open file m garbage → ret.value = ret'.value

/-- Whatever is called next, a read through `file` returns and delivers the same after `k` as after
`k'`, while the file holds `num` on slot `m`. -/
def SameReads (k k' : Kernel) (file : ℕ) (m : Minor) (num : BitVec 64) : Prop :=
  ∀ grants grants' t, (twins grants grants' k k').Reachable t →
    t.1.selection file = some (m, num) → ∀ buffer length,
      (call grants t.1 (.read file buffer length)).map Prod.snd =
        (call grants' t.2 (.read file buffer length)).map Prod.snd

/-- Two kernels with the same selections and the same message in one channel. -/
structure Alike (m : Minor) (id : BitVec 32) (s : Kernel × Kernel) : Prop where
  left : ∃ d nodes, Orderly s.1 d nodes
  right : ∃ d nodes, Orderly s.2 d nodes
  selection : s.1.selection = s.2.selection
  content : ∃ bytes, s.1.Holds m id bytes ∧ s.2.Holds m id bytes

theorem reselected_congr (sel : ℕ → Option (Minor × BitVec 64)) {ret' : Ret}
    (hret : ∀ file m garbage, op = .open file m garbage → ret.value = ret'.value) :
    reselected sel op ret = reselected sel op ret' := by
  cases op with
  | «open» file m garbage => rw [reselected, reselected, hret file m garbage rfl]
  | _ => rfl

theorem Alike.step {id : BitVec 32} {s t : Kernel × Kernel} (h : Alike m id s)
    {ret ret' : Ret} (hcall : call grants s.1 op = .ok (t.1, ret))
    (hcall' : call grants' s.2 op = .ok (t.2, ret'))
    (hret : ∀ file m garbage, op = .open file m garbage → ret.value = ret'.value) :
    Alike m id t := by
  obtain ⟨d, nodes, hleft⟩ := h.left
  obtain ⟨d', nodes', hright⟩ := h.right
  obtain ⟨d₁, nodes₁, ht⟩ := hleft.call_ok hcall
  obtain ⟨d₂, nodes₂, ht'⟩ := hright.call_ok hcall'
  have h₁ := hleft.turn ht
  have h₂ := hright.turn ht'
  obtain ⟨bytes, hs, hs'⟩ := h.content
  rw [hleft.holds_iff] at hs
  rw [hright.holds_iff] at hs'
  refine ⟨⟨d₁, nodes₁, h₁⟩, ⟨d₂, nodes₂, h₂⟩, ?_, rewritten s.1.selection op (m, id) bytes, ?_, ?_⟩
  · rw [ht.selection hleft.toStore, ht'.selection hright.toStore, h.selection,
      reselected_congr _ hret]
  · rw [h₁.holds_iff]
    exact ht.content hleft.toStore hs
  · rw [h₂.holds_iff, h.selection]
    exact ht'.content hright.toStore hs'

/-- What a read returns from a channel whose message is `bytes`. -/
def readResult (bytes : List Byte) (buffer : Option (ℕ → Bool)) (length : BitVec 64) :
    ℤ × List Byte :=
  match buffer with
  | none => (-EINVAL, [])
  | some writable =>
    if length = 0#64 ∨ BUFFER_LENGTH < length.toNat then (-EMSGSIZE, [])
    else readOut bytes writable length.toNat

theorem call_read (h : Store k d nodes) (hsel : k.selection file = some (m, num))
    (hs : Shows k nodes m (narrow num) bytes) (buffer : Option (ℕ → Bool)) (length : BitVec 64) :
    call grants k (.read file buffer length) = .ok (k, ⟨(readResult bytes buffer length).1,
      (readResult bytes buffer length).2⟩) := by
  obtain ⟨f, b, hf, hb, rfl, rfl⟩ := selection_iff.mp hsel
  have hderef : deref (k.privates f.private_data) = .ok b := deref_eq_ok.mpr hb
  rw [call, hf]
  dsimp only
  cases buffer with
  | none =>
    rw [deviceRead, hderef]
    rfl
  | some writable =>
    by_cases hbad : length = 0#64 ∨ BUFFER_LENGTH < length.toNat
    · rw [deviceRead, hderef, ok_bind]
      dsimp only
      rw [if_pos hbad, readResult, if_pos hbad]
      rfl
    · rw [readResult, if_neg hbad]
      rw [length_eq_zero_iff] at hbad
      rw [h.deviceRead_found hf hb hs (by omega) (by omega), ok_bind]

theorem Alike.sameReads (h : Alike m (narrow num) (k, k')) : SameReads k k' file m num := by
  intro g g' t ht hsel buffer length
  have hi : Alike m (narrow num) t := by
    refine Machine.Reachable.invariant (I := Alike m (narrow num)) ?_ ?_ ht
    · rintro s rfl
      exact h
    · rintro s op u hu ⟨ret, ret', hcall, hcall', hret⟩
      exact hu.step hcall hcall' hret
  obtain ⟨d, nodes, hleft⟩ := hi.left
  obtain ⟨d', nodes', hright⟩ := hi.right
  obtain ⟨bytes, hs, hs'⟩ := hi.content
  rw [call_read hleft.toStore hsel (hleft.holds_iff.mp hs),
    call_read hright.toStore (hi.selection ▸ hsel) (hright.holds_iff.mp hs')]
  rfl

/-! ## Channel numbers -/

variable (grants) in
/-- A write through a file whose channel exists. -/
theorem write_cases (h : Store k d nodes) (hsel : k.selection file = some (m, num))
    (hhas : Has k nodes m (narrow num)) (buffer : Option (ℕ → Option Byte)) (length : BitVec 64)
    (garbage : DataMessage) :
    (¬ Accepts (narrow num) buffer length ∧ ∃ res, Rejection res ∧
      call grants k (.write file buffer length garbage) = .ok (k, ⟨res, []⟩)) ∨
    (Accepts (narrow num) buffer length ∧ grants k.fresh = false ∧
      call grants k (.write file buffer length garbage) = .error .segfault) ∨
    (Accepts (narrow num) buffer length ∧ grants k.fresh = true ∧ ∃ k',
      call grants k (.write file buffer length garbage) = .ok (k', ⟨length.toNat, []⟩)) := by
  obtain ⟨f, b, hf, hb, rfl, rfl⟩ := selection_iff.mp hsel
  rcases h.call_write grants hf hb buffer length garbage with
    hrejected | hstarved | ⟨_, _, _, _, hnot, _⟩ | ⟨_, rfl, hacc, hg, _, _, _, _, _, hcall⟩
  · exact Or.inl hrejected
  · exact Or.inr (Or.inl hstarved)
  · exact absurd hhas hnot
  · exact Or.inr (Or.inr ⟨hacc, hg, _, hcall⟩)

/-- Reading everything tells a message from every other content. -/
theorem eq_of_readResult {bytes bytes' : List Byte} (hne : bytes' ≠ [])
    (hlen : bytes'.length ≤ BUFFER_LENGTH)
    (h : (readResult bytes (some fun _ => true) 128#64).2 =
      (readResult bytes' (some fun _ => true) 128#64).2) : bytes = bytes' := by
  have hread : ∀ bs, readResult bs (some fun _ => true) 128#64 =
      readOut bs (fun _ => true) 128 := by
    intro bs
    rw [readResult, if_neg (by decide)]
    rfl
  rw [hread, hread, readOut_writable fun _ _ => rfl, readOut_writable fun _ _ => rfl, if_neg hne,
    if_neg (Nat.not_lt.mpr hlen)] at h
  split at h
  · exact absurd h.symm hne
  · split at h
    · exact absurd h.symm hne
    · exact h

theorem payload_ne_nil {buffer : ℕ → Option Byte} {n : ℕ} (hn : 0 < n) : payload buffer n ≠ [] := by
  rw [← List.length_pos_iff, payload_length]
  exact hn

/-- A write is not seen through a file of the same slot exactly if the two numbers differ in their
low halves, or it stores nothing new. -/
theorem sameReads_iff (h : Orderly k d nodes) {i : ℕ} {c₁ c₂ : BitVec 64}
    (hi : k.selection i = some (m, c₁)) (hi₁ : Has k nodes m (narrow c₁))
    (hj : k.selection file = some (m, c₂)) (hj₂ : Has k nodes m (narrow c₂))
    (buffer : ℕ → Option Byte) (length : BitVec 64) (garbage : DataMessage) :
    (∀ k' ret, call grants k (.write i (some buffer) length garbage) = .ok (k', ret) →
      SameReads k k' file m c₂) ↔
    narrow c₁ ≠ narrow c₂ ∨ ¬ Accepts (narrow c₁) (some buffer) length ∨ grants k.fresh = false ∨
      k.Holds m (narrow c₂) (payload buffer length.toNat) := by
  obtain ⟨bytes, hs⟩ := hj₂
  have hsame : ∀ {k'} {d' : MessageSlotsDevices} {nodes' : Minor → List Ptr}, Orderly k' d' nodes' →
      k'.selection = k.selection → Shows k' nodes' m (narrow c₂) bytes → SameReads k k' file m c₂ :=
    fun h' hsel' hs' => Alike.sameReads ⟨⟨_, _, h⟩, ⟨_, _, h'⟩, hsel'.symm, bytes,
      h.holds_iff.mpr hs, h'.holds_iff.mpr hs'⟩
  rcases write_cases grants h.toStore hi hi₁ (some buffer) length garbage with
    ⟨hacc, res, _, hcall⟩ | ⟨_, hg, hcall⟩ | ⟨hacc, hg, k', hcall⟩
  · refine iff_of_true (fun k' ret hcall' => ?_) (Or.inr (Or.inl hacc))
    obtain ⟨rfl, _⟩ := Prod.mk.inj (Except.ok.inj (hcall.symm.trans hcall'))
    exact hsame h rfl hs
  · refine iff_of_true (fun k' ret hcall' => ?_) (Or.inr (Or.inr (Or.inl hg)))
    rw [hcall] at hcall'
    cases hcall'
  · obtain ⟨d', nodes', ht⟩ := h.call_ok hcall
    have h' := h.turn ht
    have hs' := ht.content h.toStore hs
    have hsel' : k'.selection = k.selection := ht.selection h.toStore
    obtain ⟨f, b, hf, hb, rfl, rfl⟩ := selection_iff.mp hi
    by_cases hkey : narrow b.channel_num = narrow c₂
    · rw [← hkey, rewritten_hit hf hb hacc] at hs'
      rw [← hkey] at hs
      have hacc₂ := hkey ▸ hacc
      simp only [hkey, hacc₂, hg, ne_eq, not_true_eq_false, false_or, Bool.true_eq_false,
        h.holds_iff]
      constructor
      · intro hreads
        have hread := hreads k' _ hcall (fun _ => true) (fun _ => true) (k, k') ⟨[], .start rfl⟩ hj
          (some fun _ => true) 128#64
        rw [call_read h.toStore hj (hkey ▸ hs), call_read h'.toStore (hsel' ▸ hj) (hkey ▸ hs')]
          at hread
        have hbytes := eq_of_readResult (payload_ne_nil hacc.2.2.1)
          (by rw [payload_length]; exact hacc.2.2.2) (Ret.mk.inj (Except.ok.inj hread)).2
        rw [← hbytes, ← hkey]
        exact hs
      · intro hold k'' ret hcall'
        obtain ⟨rfl, _⟩ := Prod.mk.inj (Except.ok.inj (hcall.symm.trans hcall'))
        obtain rfl := h.shows_unique (hkey ▸ hold) hs
        exact hsame h' hsel' (hkey ▸ hs')
    · refine iff_of_true (fun k'' ret hcall' => ?_) (Or.inl hkey)
      obtain ⟨rfl, _⟩ := Prod.mk.inj (Except.ok.inj (hcall.symm.trans hcall'))
      rw [rewritten_miss] at hs'
      · exact hsame h' hsel' hs'
      · rintro f' b' hf' hb' _ hid
        obtain rfl := Option.some.inj (hf.symm.trans hf')
        obtain rfl := Option.some.inj (hb.symm.trans hb')
        exact absurd hid.symm hkey

/-- For a file whose last `ioctl` returned 0 with `c₁`: exactly which of its writes succeed, and which
are never seen by a read through a file of the same slot that has chosen `c₂`. -/
theorem channels_apart_iff {s : System} (hs : (messageSlots grants).Reachable s) {i : ℕ}
    {c₁ : BitVec 64} (hi : s.journal.files i = some (m, some c₁)) (buffer : ℕ → Option Byte)
    (length : BitVec 64) (garbage : DataMessage) :
    (∀ j c₂, s.journal.files j = some (m, some c₂) →
      ((∀ k' ret, call grants s.kernel (.write i (some buffer) length garbage) = .ok (k', ret) →
        SameReads s.kernel k' j m c₂) ↔
      narrow c₁ ≠ narrow c₂ ∨ ¬ Accepts (narrow c₁) (some buffer) length ∨
        grants s.kernel.fresh = false ∨
        s.kernel.Holds m (narrow c₂) (payload buffer length.toNat))) ∧
    (0 < length.toNat → length.toNat ≤ BUFFER_LENGTH →
      ((∃ k', call grants s.kernel (.write i (some buffer) length garbage) =
        .ok (k', ⟨length.toNat, []⟩)) ↔ narrow c₁ ≠ 0#32 ∧ grants s.kernel.fresh = true)) := by
  obtain ⟨d, nodes, h, hfollows⟩ := followed_of_reachable hs
  obtain ⟨hsel, hhas⟩ := hfollows.chosen i m c₁ hi
  refine ⟨fun j c₂ hj => ?_, fun hpos hle => ?_⟩
  · obtain ⟨hsel₂, hhas₂⟩ := hfollows.chosen j m c₂ hj
    exact sameReads_iff h hsel hhas hsel₂ hhas₂ buffer length garbage
  · rcases write_cases grants h.toStore hsel hhas (some buffer) length garbage with
      ⟨hacc, res, hres, hcall⟩ | ⟨_, hg, hcall⟩ | ⟨hacc, hg, k', hcall⟩
    · refine iff_of_false ?_ fun hgood => hacc ⟨by simp, hgood.1, hpos, hle⟩
      rintro ⟨k', hcall'⟩
      obtain ⟨_, hret⟩ := Prod.mk.inj (Except.ok.inj (hcall.symm.trans hcall'))
      have hneg := hres.neg
      rw [(Ret.mk.inj hret).1] at hneg
      exact absurd hneg (not_lt_of_ge (Int.natCast_nonneg _))
    · refine iff_of_false ?_ fun hgood => by simp [hg] at hgood
      rintro ⟨k', hcall'⟩
      rw [hcall] at hcall'
      cases hcall'
    · exact iff_of_true ⟨k', hcall⟩ ⟨hacc.2.1, hg⟩

/-- Four files of one slot choose the channels 7, 2^32 + 7, 2^32 and 8. -/
def apartOps (m : Minor) : List Op :=
  [.open 0 m 0#64, .ioctl 0 MSG_SLOT_CHANNEL 7#64,
    .open 1 m 0#64, .ioctl 1 MSG_SLOT_CHANNEL 0x100000007#64,
    .open 2 m 0#64, .ioctl 2 MSG_SLOT_CHANNEL 0x100000000#64,
    .open 3 m 0#64, .ioctl 3 MSG_SLOT_CHANNEL 8#64]

/-- A write of the one byte `A`. -/
def writeA (file : ℕ) : Op := .write file (some fun _ => some 65#8) 1#64 fun _ => 0#8

def readAll (file : ℕ) : Op := .read file (some fun _ => true) 128#64

/-- What a call and then another one return. -/
def observeCalls (k : Kernel) (op op' : Op) : Option (Ret × Ret) :=
  (call (fun _ => true) k op).toOption.bind fun r =>
    (call (fun _ => true) r.1 op').toOption.map fun r' => (r.2, r'.2)

theorem of_observeCalls {op' : Op} {ret' : Ret} (h : observeCalls k op op' = some (ret, ret')) :
    ∃ k₁ k₂, call (fun _ => true) k op = .ok (k₁, ret) ∧
      call (fun _ => true) k₁ op' = .ok (k₂, ret') := by
  obtain ⟨⟨k₁, ret₁⟩, h₁, h⟩ := Option.bind_eq_some_iff.mp h
  obtain ⟨⟨k₂, ret₂⟩, h₂, heq⟩ := Option.map_eq_some_iff.mp h
  obtain ⟨rfl, rfl⟩ := Prod.mk.inj heq
  exact ⟨k₁, k₂, eq_ok_of_toOption h₁, eq_ok_of_toOption h₂⟩

/-- Channel 2^32 + 7 has no message until `A` is written to channel 7; and after the `ioctl` for
channel 2^32 has returned 0, a write of one byte fails. -/
theorem channels_not_apart : ∃ s k₀ k₁ k₂ k₃, (messageSlots fun _ => true).Reachable s ∧
    s.journal.files 0 = some (5, some 7#64) ∧
    s.journal.files 1 = some (5, some 0x100000007#64) ∧
    s.journal.files 2 = some (5, some 0x100000000#64) ∧
    call (fun _ => true) s.kernel (readAll 1) = .ok (k₀, ⟨-EWOULDBLOCK, []⟩) ∧
    call (fun _ => true) s.kernel (writeA 0) = .ok (k₁, ⟨1, []⟩) ∧
    call (fun _ => true) k₁ (readAll 1) = .ok (k₂, ⟨1, [65#8]⟩) ∧
    call (fun _ => true) s.kernel (writeA 2) = .ok (k₃, ⟨-EINVAL, []⟩) := by
  obtain ⟨s, hs, hv⟩ := reachable_of_execute (show ((boot fun _ => true).bind fun s =>
    Machine.perform (execute fun _ => true) s (apartOps 5)).map (fun s =>
      ([s.journal.files 0, s.journal.files 1, s.journal.files 2],
        [observeCalls s.kernel (readAll 1) (writeA 2),
          observeCalls s.kernel (writeA 0) (readAll 1),
          observeCalls s.kernel (writeA 2) (writeA 2)])) =
      some ([some (5, some 7#64), some (5, some 0x100000007#64), some (5, some 0x100000000#64)],
        [some (⟨-EWOULDBLOCK, []⟩, ⟨-EINVAL, []⟩), some (⟨1, []⟩, ⟨1, [65#8]⟩),
          some (⟨-EINVAL, []⟩, ⟨-EINVAL, []⟩)]) by decide +kernel)
  simp only [Prod.mk.injEq, List.cons.injEq, and_true] at hv
  obtain ⟨hfiles, hread, hwrite, hzero⟩ := hv
  obtain ⟨k₀, _, h₀, _⟩ := of_observeCalls hread
  obtain ⟨k₁, k₂, h₁, h₂⟩ := of_observeCalls hwrite
  obtain ⟨k₃, _, h₃, _⟩ := of_observeCalls hzero
  exact ⟨s, k₀, k₁, k₂, k₃, hs, hfiles.1, hfiles.2.1, hfiles.2.2, h₀, h₁, h₂, h₃⟩

theorem channels_apart_iff_sample : ∃ s, (messageSlots fun _ => true).Reachable s ∧
    (∀ k' ret, call (fun _ => true) s.kernel (writeA 0) = .ok (k', ret) →
      SameReads s.kernel k' 3 5 8#64) ∧
    ∃ k', call (fun _ => true) s.kernel (writeA 0) = .ok (k', ⟨1, []⟩) := by
  obtain ⟨s, hs, hv⟩ := reachable_of_execute (show ((boot fun _ => true).bind fun s =>
    Machine.perform (execute fun _ => true) s (apartOps 5)).map (fun s =>
      (s.journal.files 0, s.journal.files 3)) =
      some (some (5, some 7#64), some (5, some 8#64)) by decide +kernel)
  obtain ⟨h₀, h₃⟩ := Prod.mk.inj hv
  obtain ⟨hapart, hsucceeds⟩ := channels_apart_iff hs h₀ (fun _ => some 65#8) 1#64 fun _ => 0#8
  exact ⟨s, hs, (hapart 3 8#64 h₃).mpr (Or.inl (by decide)),
    (hsucceeds (by decide) (by decide)).mpr ⟨by decide, rfl⟩⟩

end OsCourse.MessageSlot
