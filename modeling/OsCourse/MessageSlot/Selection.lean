import OsCourse.MessageSlot.Order

/-! # What the private data of the files says

The private data of an open file holds a channel number from the start: what `kmalloc` left
there, until an `ioctl` stores its parameter. Reads and writes go by that number. So a file
that has chosen no channel is harmless only as far as the leftover number is.
-/

namespace OsCourse.MessageSlot
open Foundations Store

/-- The file that a call is about. -/
def Op.file : Op → ℕ
  | .open file _ _ => file
  | .ioctl file _ _ => file
  | .write file _ _ _ => file
  | .read file _ _ => file
  | .release file => file

/-- The minor of an open file, with the number in its private data. -/
def Kernel.selection (k : Kernel) (file : ℕ) : Option (Minor × BitVec 64) :=
  (k.files file).bind fun f => (k.privates f.private_data).map fun b => (f.f_inode, b.channel_num)

/-- The selections after a call: `device_open` and every accepted `ioctl` set one. -/
def reselected (sel : ℕ → Option (Minor × BitVec 64)) : Op → Ret → ℕ → Option (Minor × BitVec 64)
  | .open file m garbage, ret =>
    if ret.value = 0 then Function.update sel file (some (m, garbage)) else sel
  | .ioctl file cmd param, _ =>
    if param = 0#64 ∨ cmd ≠ MSG_SLOT_CHANNEL then sel
    else Function.update sel file ((sel file).map fun e => (e.1, param))
  | .release file, _ => Function.update sel file none
  | .write .., _ => sel
  | .read .., _ => sel

variable {grants : ℕ → Bool} {k k' : Kernel} {d d' : MessageSlotsDevices}
  {nodes nodes' : Minor → List Ptr} {m : Minor} {op : Op} {ret : Ret} {file : ℕ} {f : File}
  {b : PrivateData} {num : BitVec 64}

theorem selection_eq_none (hf : k.files file = none) : k.selection file = none := by
  rw [Kernel.selection, hf]
  rfl

theorem selection_eq_some (hf : k.files file = some f) (hb : k.privates f.private_data = some b) :
    k.selection file = some (f.f_inode, b.channel_num) := by
  rw [Kernel.selection, hf, Option.bind_some, hb]
  rfl

theorem selection_iff : k.selection file = some (m, num) ↔ ∃ f b, k.files file = some f ∧
    k.privates f.private_data = some b ∧ f.f_inode = m ∧ b.channel_num = num := by
  simp only [Kernel.selection, Option.bind_eq_some_iff, Option.map_eq_some_iff, Prod.mk.injEq,
    exists_and_left]

/-- Another file keeps its selection when its private data is not written. -/
theorem selection_congr (hfiles : k'.files file = k.files file)
    (hp : ∀ f, k.files file = some f → k'.privates f.private_data = k.privates f.private_data) :
    k'.selection file = k.selection file := by
  rw [Kernel.selection, Kernel.selection, hfiles]
  cases hf : k.files file with
  | none => rfl
  | some f => rw [Option.bind_some, Option.bind_some, hp f hf]

namespace Store

theorem selection_filed (h : Store k d nodes) {garbage : BitVec 64} (hq : Quiet k k' nodes)
    (hp : k'.privates k.fresh = some ⟨m, garbage⟩) :
    (filed k' file ⟨m, k.fresh⟩).selection = Function.update k.selection file (some (m, garbage)) := by
  funext i
  by_cases hi : i = file
  · subst hi
    rw [Function.update_self]
    exact selection_iff.mpr ⟨⟨m, k.fresh⟩, ⟨m, garbage⟩, Function.update_self .., hp, rfl, rfl⟩
  · rw [Function.update_of_ne hi]
    refine selection_congr ((Function.update_of_ne hi ..).trans (congrFun hq.files i)) fun g hg => ?_
    obtain ⟨_, b, hb, _⟩ := h.file i g hg
    exact (hq.privates _ _ hb).trans hb.symm

theorem selection_selected (h : Store k d nodes) (hf : k.files file = some f)
    (hb : k.privates f.private_data = some b) (param : BitVec 64) :
    (selected k f b param).selection =
      Function.update k.selection file ((k.selection file).map fun e => (e.1, param)) := by
  funext i
  by_cases hi : i = file
  · subst hi
    rw [Function.update_self, selection_eq_some hf hb]
    exact selection_eq_some (k := selected k f b param) hf (Function.update_self ..)
  · rw [Function.update_of_ne hi]
    exact selection_congr rfl fun g hg =>
      Function.update_of_ne (fun he => hi (h.file_inj i file g f hg hf he)) ..

theorem selection_released (h : Store k d nodes) (hf : k.files file = some f) :
    (released k file f).selection = Function.update k.selection file none := by
  funext i
  by_cases hi : i = file
  · subst hi
    rw [Function.update_self]
    exact selection_eq_none (Function.update_self ..)
  · rw [Function.update_of_ne hi]
    exact selection_congr (Function.update_of_ne hi ..) fun g hg =>
      Function.update_of_ne (fun he => hi (h.file_inj i file g f hg hf he)) ..

end Store

theorem selection_rejected {res : ℤ} (hop : Rejected k op) (hres : Rejection res) :
    k.selection = reselected k.selection op ⟨res, []⟩ := by
  have hnone : ∀ {file}, k.files file = none →
      k.selection = Function.update k.selection file none := by
    intro file hf
    rw [← selection_eq_none hf, Function.update_eq_self]
  cases op with
  | «open» => exact (if_neg hres.neg.ne).symm
  | ioctl file cmd param =>
    rw [reselected]
    by_cases hbad : param = 0#64 ∨ cmd ≠ MSG_SLOT_CHANNEL
    · rw [if_pos hbad]
    · have hf := hop.resolve_right hbad
      rw [if_neg hbad, selection_eq_none hf]
      exact hnone hf
  | write => rfl
  | read => rfl
  | release => exact hnone hop

/-- What a turn does to the selections. -/
theorem Turn.selection (ht : Turn k d nodes op k' d' nodes' ret) (h : Store k d nodes) :
    k'.selection = reselected k.selection op ret := by
  have hio : ∀ {file f b} {param : BitVec 64} {ret : Ret}, k.files file = some f →
      k.privates f.private_data = some b → param ≠ 0#64 →
      (selected k f b param).selection =
        reselected k.selection (.ioctl file MSG_SLOT_CHANNEL param) ret := by
    intro file f b param ret hf hb hparam
    rw [h.selection_selected hf hb, reselected, if_neg (by simp [hparam])]
  cases ht with
  | reject hop hres => exact selection_rejected hop hres
  | read => rfl
  | refuse => rfl
  | reopen => exact h.selection_filed (h.opened_quiet _ _) (Function.update_self ..)
  | create => exact h.selection_filed (h.slotted_quiet _ _) (Function.update_self ..)
  | select hf hb hparam => exact hio hf hb hparam
  | full hf hb hparam => exact hio hf hb hparam
  | linkRoot hf hb hparam => exact hio hf hb hparam
  | linkLast hf hb hparam => exact hio hf hb hparam
  | spill => rfl
  | store => rfl
  | release hf => exact h.selection_released hf

/-! ## Files that have chosen no channel -/

/-- The kernel, with the open files on which no `ioctl` has returned 0 since they were opened: their
minors and what is left in their private data, by `kmalloc` or by an `ioctl` that failed. -/
structure Watched where
  kernel : Kernel
  unchosen : ℕ → Option (Minor × BitVec 64)

/-- An `ioctl` that returns 0 ends the watch of its file. -/
def watch (unchosen : ℕ → Option (Minor × BitVec 64)) (op : Op) (ret : Ret) :
    ℕ → Option (Minor × BitVec 64) :=
  match op with
  | .ioctl file _ _ =>
    if ret.value = 0 then Function.update unchosen file none else reselected unchosen op ret
  | _ => reselected unchosen op ret

def watchedSlots (grants : ℕ → Bool) : Machine Watched Op where
  init s := prepare grants = .ok s.kernel ∧ s.unchosen = fun _ => none
  step s op t := ∃ ret, call grants s.kernel op = .ok (t.kernel, ret) ∧
    t.unchosen = watch s.unchosen op ret

/-- The watched entries are the selections of their files. -/
def Leftover (s : Watched) : Prop :=
  ∀ file e, s.unchosen file = some e → s.kernel.selection file = some e

theorem reselected_some {sel sel' : ℕ → Option (Minor × BitVec 64)}
    (h : ∀ i e, sel i = some e → sel' i = some e) (op : Op) (ret : Ret) (i : ℕ)
    (e : Minor × BitVec 64) (he : reselected sel op ret i = some e) :
    reselected sel' op ret i = some e := by
  have hupdate : ∀ file {v v' : Option (Minor × BitVec 64)}, (∀ e, v = some e → v' = some e) →
      Function.update sel file v i = some e → Function.update sel' file v' i = some e := by
    intro file v v' hv he
    by_cases hi : i = file
    · subst hi
      rw [Function.update_self] at he ⊢
      exact hv e he
    · rw [Function.update_of_ne hi] at he ⊢
      exact h i e he
  cases op with
  | «open» file m garbage =>
    simp only [reselected] at he ⊢
    by_cases hret : ret.value = 0
    · rw [if_pos hret] at he ⊢
      exact hupdate file (fun _ => id) he
    · rw [if_neg hret] at he ⊢
      exact h i e he
  | ioctl file cmd param =>
    simp only [reselected] at he ⊢
    split at he
    case isTrue hbad =>
      rw [if_pos hbad]
      exact h i e he
    case isFalse hbad =>
      rw [if_neg hbad]
      refine hupdate file (fun e' he' => ?_) he
      obtain ⟨e₀, h₀, rfl⟩ := Option.map_eq_some_iff.mp he'
      rw [h file e₀ h₀, Option.map_some]
  | write => exact h i e he
  | read => exact h i e he
  | release file => exact hupdate file (fun _ => id) he

theorem watch_some {unchosen : ℕ → Option (Minor × BitVec 64)} {i : ℕ} {e : Minor × BitVec 64}
    (he : watch unchosen op ret i = some e) : reselected unchosen op ret i = some e := by
  cases op with
  | ioctl file cmd param =>
    rw [watch] at he
    split at he
    case isFalse => exact he
    case isTrue =>
      by_cases hi : i = file
      · subst hi
        rw [Function.update_self] at he
        cases he
      · rw [Function.update_of_ne hi] at he
        rw [reselected]
        split
        · exact he
        · rw [Function.update_of_ne hi, he]
  | _ => exact he

theorem watched_of_reachable {s : Watched} (hs : (watchedSlots grants).Reachable s) :
    (∃ d nodes, Orderly s.kernel d nodes) ∧ Leftover s := by
  refine Machine.Reachable.invariant
    (I := fun s : Watched => (∃ d nodes, Orderly s.kernel d nodes) ∧ Leftover s) ?_ ?_ hs
  · rintro s ⟨hk, hnone⟩
    refine ⟨⟨_, _, .init hk⟩, fun i e he => ?_⟩
    rw [hnone] at he
    cases he
  · rintro s op t ⟨⟨d, nodes, h⟩, hleft⟩ ⟨ret, hcall, hwatch⟩
    obtain ⟨d', nodes', ht⟩ := h.call_ok hcall
    refine ⟨⟨d', nodes', h.turn ht⟩, fun i e he => ?_⟩
    rw [hwatch] at he
    rw [ht.selection h.toStore]
    exact reselected_some hleft op ret i e (watch_some he)

/-- A call that returns a negative error, delivers no byte and leaves every channel and every message
as it is. -/
def Harmless (k : Kernel) (r : Except Fault (Kernel × Ret)) : Prop :=
  ∃ k' ret, r = .ok (k', ret) ∧ ret.value < 0 ∧ ret.bytes = [] ∧ k'.channels = k.channels ∧
    ∀ q b, k.messages q = some b → k'.messages q = some b

theorem Harmless.of_same {res : ℤ} (hres : res < 0) : Harmless k (.ok (k, ⟨res, []⟩)) :=
  ⟨k, _, rfl, hres, rfl, rfl, fun _ _ hb => hb⟩

theorem not_harmless_error (e : Fault) : ¬ Harmless k (.error e) := by
  rintro ⟨_, _, h, _⟩
  cases h

theorem not_harmless_of_value (hret : 0 ≤ ret.value) : ¬ Harmless k (.ok (k', ret)) := by
  rintro ⟨_, _, h, hneg, _⟩
  obtain ⟨_, rfl⟩ := Prod.mk.inj (Except.ok.inj h)
  exact absurd hneg (not_lt_of_ge hret)

theorem harmless_same_iff : Harmless k (.ok (k, ret)) ↔ ret.value < 0 ∧ ret.bytes = [] := by
  constructor
  · rintro ⟨_, _, h, hneg, hbytes, _⟩
    obtain ⟨_, rfl⟩ := Prod.mk.inj (Except.ok.inj h)
    exact ⟨hneg, hbytes⟩
  · rintro ⟨hneg, hbytes⟩
    exact ⟨k, ret, rfl, hneg, hbytes, rfl, fun _ _ hb => hb⟩

/-- A write with the leftover number `num` is harmless where it is turned down, or looks for a channel
that is missing. -/
theorem write_harmless_iff (h : Store k d nodes) (hsel : k.selection file = some (m, num))
    (buffer : Option (ℕ → Option Byte)) (length : BitVec 64) (garbage : DataMessage) :
    Harmless k (call grants k (.write file buffer length garbage)) ↔
      ¬ Accepts (narrow num) buffer length ∨
        grants k.fresh = true ∧ ¬ Has k nodes m (narrow num) := by
  obtain ⟨f, b, hf, hb, rfl, rfl⟩ := selection_iff.mp hsel
  rcases h.call_write grants hf hb buffer length garbage with
    ⟨hacc, res, hres, hcall⟩ | ⟨hacc, hg, hcall⟩ | ⟨buffer, rfl, _, hg, hnot, hcall⟩ |
    ⟨buffer, rfl, hacc, _, p, hp, c, hc, hid, hcall⟩
  · rw [hcall]
    exact iff_of_true (.of_same hres.neg) (Or.inl hacc)
  · rw [hcall]
    exact iff_of_false (not_harmless_error _) (by simp [hacc, hg])
  · rw [hcall]
    have hneg : -EINVAL < 0 := by decide
    refine iff_of_true ⟨_, _, rfl, hneg, rfl, rfl, fun q b hq => ?_⟩ (Or.inr ⟨hg, hnot⟩)
    exact (Function.update_of_ne (ne_of_none (h.messages_none _ (fresh_unused k 0)) hq) ..).trans hq
  · rw [hcall]
    have hhas : Has k nodes f.f_inode (narrow b.channel_num) := hid ▸ h.has_of_at hp hc
    exact iff_of_false (not_harmless_of_value (Int.natCast_nonneg _)) (by simp [hacc, hhas])

/-- A read that gets past the checks of its arguments. -/
def Asks (buffer : Option (ℕ → Bool)) (length : BitVec 64) : Prop :=
  buffer ≠ none ∧ 0 < length.toNat ∧ length.toNat ≤ BUFFER_LENGTH

/-- What the read of a message delivers nothing of. -/
theorem readOut_harmless_iff (bytes : List Byte) (writable : ℕ → Bool) (length : ℕ) :
    ((readOut bytes writable length).1 < 0 ∧ (readOut bytes writable length).2 = []) ↔
      bytes = [] ∨ length < bytes.length ∨ writable 0 = false := by
  rw [readOut]
  cases bytes with
  | nil => simp [EWOULDBLOCK]
  | cons c bytes =>
    by_cases hlt : length < (c :: bytes).length
    · rw [if_neg (List.cons_ne_nil _ _), if_pos hlt]
      exact iff_of_true ⟨by decide, rfl⟩ (Or.inr (Or.inl hlt))
    · rw [if_neg (List.cons_ne_nil _ _), if_neg hlt, deliver]
      cases hw : writable 0 with
      | true => exact iff_of_false (by simp) (by simpa using hlt)
      | false => simp [EFAULT]

/-- A read with the leftover number `num` is harmless where it is turned down, or finds a channel and
delivers nothing of its message. -/
theorem read_harmless_iff (h : Store k d nodes) (hsel : k.selection file = some (m, num))
    (buffer : Option (ℕ → Bool)) (length : BitVec 64) :
    Harmless k (call grants k (.read file buffer length)) ↔
      ¬ Asks buffer length ∨ ∃ bytes, Shows k nodes m (narrow num) bytes ∧
        (bytes = [] ∨ length.toNat < bytes.length ∨ ∃ w, buffer = some w ∧ w 0 = false) := by
  obtain ⟨f, b, hf, hb, rfl, rfl⟩ := selection_iff.mp hsel
  rw [call, hf]
  dsimp only
  by_cases hask : Asks buffer length
  · obtain ⟨writable, rfl⟩ := Option.ne_none_iff_exists'.mp hask.1
    simp only [hask, not_true_eq_false, false_or]
    by_cases hhas : Has k nodes f.f_inode (narrow b.channel_num)
    · obtain ⟨bytes, hs⟩ := hhas
      rw [h.deviceRead_found hf hb hs hask.2.1 hask.2.2, ok_bind, harmless_same_iff,
        readOut_harmless_iff]
      constructor
      · intro hout
        refine ⟨bytes, hs, hout.imp_right (.imp_right fun hw => ⟨writable, rfl, hw⟩)⟩
      · rintro ⟨bytes', hs', hout⟩
        obtain rfl := h.shows_unique hs' hs
        refine hout.imp_right (.imp_right ?_)
        rintro ⟨w, hw, h0⟩
        rwa [Option.some.inj hw]
    · rw [h.deviceRead_lost hf hb hhas hask.2.1 hask.2.2]
      refine iff_of_false (not_harmless_error _) ?_
      rintro ⟨bytes, hs, _⟩
      exact hhas ⟨bytes, hs⟩
  · have hbad : buffer = none ∨ length.toNat = 0 ∨ BUFFER_LENGTH < length.toNat := by
      rw [Asks] at hask
      by_contra hgood
      simp only [not_or, not_lt] at hgood
      exact hask ⟨hgood.1, Nat.pos_of_ne_zero hgood.2.1, hgood.2.2⟩
    obtain ⟨res, hres, heq⟩ := deviceRead_rejects hb hbad
    rw [heq, ok_bind]
    exact iff_of_true (.of_same hres.neg) (Or.inl hask)

/-- For an open file on which no `ioctl` has returned 0, with `num` left in its private data: exactly
which of its writes and reads are harmless. -/
theorem unchosen_harmless_iff {s : Watched} (hs : (watchedSlots grants).Reachable s)
    (hfile : s.unchosen file = some (m, num)) :
    (∀ buffer length garbage,
      Harmless s.kernel (call grants s.kernel (.write file buffer length garbage)) ↔
        ¬ Accepts (narrow num) buffer length ∨ grants s.kernel.fresh = true ∧
          ∀ bytes, ¬ s.kernel.Holds m (narrow num) bytes) ∧
    ∀ buffer length, Harmless s.kernel (call grants s.kernel (.read file buffer length)) ↔
      ¬ Asks buffer length ∨ ∃ bytes, s.kernel.Holds m (narrow num) bytes ∧
        (bytes = [] ∨ length.toNat < bytes.length ∨ ∃ w, buffer = some w ∧ w 0 = false) := by
  obtain ⟨⟨d, nodes, h⟩, hleft⟩ := watched_of_reachable hs
  have hsel := hleft file _ hfile
  refine ⟨fun buffer length garbage => ?_, fun buffer length => ?_⟩
  · rw [write_harmless_iff h.toStore hsel, h.has_iff, not_exists]
  · rw [read_harmless_iff h.toStore hsel]
    simp only [h.holds_iff]

/-! ## Running watched calls -/

def watchedBoot (grants : ℕ → Bool) : Option Watched :=
  (prepare grants).toOption.map (⟨·, fun _ => none⟩)

def watchedCall (grants : ℕ → Bool) (s : Watched) (op : Op) : Option Watched :=
  (call grants s.kernel op).toOption.map fun r => ⟨r.1, watch s.unchosen op r.2⟩

theorem reachable_of_watchedCall {B : Type*} {ops : List Op} {observe : Watched → B} {v : B}
    (h : ((watchedBoot grants).bind fun s => Machine.perform (watchedCall grants) s ops).map
      observe = some v) : ∃ s, (watchedSlots grants).Reachable s ∧ observe s = v := by
  obtain ⟨s, hs, hv⟩ := Option.map_eq_some_iff.mp h
  obtain ⟨s₀, h₀, hs⟩ := Option.bind_eq_some_iff.mp hs
  obtain ⟨k, hk, rfl⟩ := Option.map_eq_some_iff.mp h₀
  have hinit : (watchedSlots grants).init ⟨k, fun _ => none⟩ := ⟨eq_ok_of_toOption hk, rfl⟩
  refine ⟨s, ((Machine.Run.start hinit).perform (fun s op t h => ?_) hs).reachable, hv⟩
  obtain ⟨⟨k, ret⟩, hcall, rfl⟩ := Option.map_eq_some_iff.mp h
  exact ⟨ret, eq_ok_of_toOption hcall, rfl⟩

/-- A file is opened where `kmalloc` finds the number 7; it has chosen nothing and reads `AB`, the
message of channel 7. -/
theorem unchosen_file_reads : ∃ s k', (watchedSlots fun _ => true).Reachable s ∧
    s.unchosen 2 = some (5, 7#64) ∧
    call (fun _ => true) s.kernel (.read 2 (some fun _ => true) 128#64) =
      .ok (k', ⟨2, [65#8, 66#8]⟩) := by
  obtain ⟨s, hs, hv⟩ := reachable_of_watchedCall (show ((watchedBoot fun _ => true).bind fun s =>
    Machine.perform (watchedCall fun _ => true) s (sampleOps ++ [.open 2 5 7#64])).map (fun s =>
      (s.unchosen 2, (call (fun _ => true) s.kernel
        (.read 2 (some fun _ => true) 128#64)).toOption.map Prod.snd)) =
      some (some (5, 7#64), some ⟨2, [65#8, 66#8]⟩) by decide +kernel)
  obtain ⟨hfile, hread⟩ := Prod.mk.inj hv
  obtain ⟨⟨k', ret⟩, hcall, rfl⟩ := Option.map_eq_some_iff.mp hread
  exact ⟨s, k', hs, hfile, eq_ok_of_toOption hcall⟩

theorem unchosen_harmless_iff_sample : ∃ s, (watchedSlots fun _ => true).Reachable s ∧
    s.unchosen 2 = some (5, 0#64) ∧ ∀ buffer length garbage,
      Harmless s.kernel (call (fun _ => true) s.kernel (.write 2 buffer length garbage)) := by
  obtain ⟨s, hs, hv⟩ := reachable_of_watchedCall (show ((watchedBoot fun _ => true).bind fun s =>
    Machine.perform (watchedCall fun _ => true) s (sampleOps ++ [.open 2 5 0#64])).map (fun s =>
      s.unchosen 2) = some (some (5, 0#64)) by decide +kernel)
  refine ⟨s, hs, hv, fun buffer length garbage => ?_⟩
  exact ((unchosen_harmless_iff hs hv).1 buffer length garbage).mpr
    (Or.inl fun hacc => hacc.2.1 (by decide))

end OsCourse.MessageSlot
