import OsCourse.MessageSlot.Twins

/-! # The device is a family of last-message registers

In a run of the module in which files are only read and written once they have chosen a
channel, the store shows the last messages of the journal, so a read returns the last write
to its channel.
-/

namespace OsCourse.MessageSlot
open Foundations Store

variable {grants : ℕ → Bool} {k k' : Kernel} {d d' : MessageSlotsDevices}
  {nodes nodes' : Minor → List Ptr} {m : Minor} {id : BitVec 32} {op : Op} {ret : Ret}
  {file : ℕ} {j : Journal}

/-! ## Store and journal in step -/

/-- The store holds what the journal says. -/
structure Tracks (k : Kernel) (nodes : Minor → List Ptr) (j : Journal) : Prop where
  files : ∀ i, (k.files i).map File.f_inode = (j.files i).map Prod.fst
  selected : ∀ i f m param, k.files i = some f → j.files i = some (m, some param) →
    (∃ b, k.privates f.private_data = some b ∧ b.channel_num = param) ∧
      Has k nodes m (param.setWidth 32)
  content : ∀ m id bytes, Shows k nodes m id bytes →
    bytes = (lastWrite (m, id) j.writes).getD []
  written : ∀ m id bytes, lastWrite (m, id) j.writes = some bytes →
    bytes ≠ [] ∧ Has k nodes m id

theorem selection_minor (h : Store k d nodes) (i : ℕ) :
    (k.selection i).map Prod.fst = (k.files i).map File.f_inode := by
  cases hf : k.files i with
  | none => rw [selection_eq_none hf, Option.map_none, Option.map_none]
  | some f =>
    obtain ⟨_, b, hb, _⟩ := h.file i f hf
    rw [selection_eq_some hf hb, Option.map_some, Option.map_some]

/-- The files of the journal are those that the store holds. -/
theorem Tracks.follows (hj : Tracks k nodes j) (h : Store k d nodes) : Follows k nodes j := by
  refine ⟨fun i => by rw [selection_minor h, hj.files], fun i m num hfile => ?_⟩
  have hm := hj.files i
  rw [hfile, Option.map_some] at hm
  obtain ⟨f, hf, rfl⟩ := Option.map_eq_some_iff.mp hm
  obtain ⟨⟨b, hb, rfl⟩, hhas⟩ := hj.selected i f _ num hf hfile
  exact ⟨selection_eq_some hf hb, hhas⟩

theorem Follows.tracks (hj : Follows k nodes j) (h : Store k d nodes)
    (hcontent : ∀ m id bytes, Shows k nodes m id bytes →
      bytes = (lastWrite (m, id) j.writes).getD [])
    (hwritten : ∀ m id bytes, lastWrite (m, id) j.writes = some bytes →
      bytes ≠ [] ∧ Has k nodes m id) : Tracks k nodes j := by
  refine ⟨fun i => by rw [← selection_minor h, hj.minor], fun i f m num hf hfile => ?_, hcontent,
    hwritten⟩
  obtain ⟨hsel, hhas⟩ := hj.chosen i m num hfile
  obtain ⟨f', b, hf', hb, _, hnum⟩ := selection_iff.mp hsel
  obtain rfl := Option.some.inj (hf.symm.trans hf')
  exact ⟨⟨b, hb, hnum⟩, hhas⟩

/-- The selection that a journal entry is about. -/
theorem Follows.selection_of_chosen (hj : Follows k nodes j) (hc : j.chosen file = some (m, id)) :
    ∃ num, k.selection file = some (m, num) ∧ narrow num = id ∧ Has k nodes m id := by
  unfold Journal.chosen at hc
  split at hc
  case h_2 => cases hc
  case h_1 m' num hfile =>
    obtain ⟨rfl, rfl⟩ := Prod.mk.inj (Option.some.inj hc)
    obtain ⟨hsel, hhas⟩ := hj.chosen file m' num hfile
    exact ⟨num, hsel, rfl, hhas⟩

/-! ## Turns -/

theorem record_writes (j : Journal)
    (hop : ∀ file buffer length garbage, op = .write file buffer length garbage → ret.value < 0) :
    (j.record op ret).writes = j.writes := by
  cases op with
  | «open» => rw [Journal.record]; split <;> rfl
  | ioctl => rw [Journal.record]; split <;> rfl
  | read => rfl
  | release => rw [Journal.record]; split <;> rfl
  | write file buffer length garbage =>
    have hneg := hop file buffer length garbage rfl
    simp only [Journal.record]
    split
    · rw [if_neg (not_lt_of_gt hneg)]
    · rfl

/-- What a store shows may grow by channels without a message. -/
theorem Tracks.extend {j' : Journal} (hc : Tracks k nodes j) (he : Extends k nodes k' nodes')
    (hw : j'.writes = j.writes) (hj : Follows k' nodes' j') (h : Store k' d' nodes') :
    Tracks k' nodes' j' := by
  refine hj.tracks h (fun m id bytes hs => ?_) fun m id bytes hlast => ?_
  · rw [hw]
    rcases he.only m id bytes hs with hs | ⟨rfl, hnot⟩
    · exact hc.content m id bytes hs
    · cases hlast : lastWrite (m, id) j.writes with
      | none => rfl
      | some bs => exact absurd (hc.written m id bs hlast).2 hnot
  · rw [hw] at hlast
    obtain ⟨hne, bs, hs⟩ := hc.written m id bytes hlast
    exact ⟨hne, bs, he.kept m id bs hs⟩

/-- A message that is stored is the last one of its channel. -/
theorem Tracks.write {j' : Journal} (key : Minor × BitVec 32) (payload : List Byte)
    (hc : Tracks k nodes j) (hj : Follows k' nodes j') (h : Store k' d nodes)
    (hw : j'.writes = j.writes ++ [(key, payload)]) (hne : payload ≠ [])
    (hmono : ∀ m id, Has k nodes m id → Has k' nodes m id) (hkey : Has k' nodes key.1 key.2)
    (hshows : ∀ m id bytes, Shows k' nodes m id bytes →
      if m = key.1 ∧ id = key.2 then bytes = payload else Shows k nodes m id bytes) :
    Tracks k' nodes j' := by
  have hlast : ∀ m id, lastWrite (m, id) j'.writes =
      if m = key.1 ∧ id = key.2 then some payload else lastWrite (m, id) j.writes := by
    intro m id
    rw [hw, lastWrite_snoc]
    simp only [Prod.ext_iff, eq_comm]
  refine hj.tracks h (fun m id bytes hs => ?_) fun m id bytes hl => ?_
  · have hs := hshows m id bytes hs
    rw [hlast]
    by_cases hk : m = key.1 ∧ id = key.2
    · rw [if_pos hk] at hs ⊢
      exact hs
    · rw [if_neg hk] at hs ⊢
      exact hc.content m id bytes hs
  · rw [hlast] at hl
    by_cases hk : m = key.1 ∧ id = key.2
    · rw [if_pos hk, Option.some.injEq] at hl
      rw [hk.1, hk.2, ← hl]
      exact ⟨hne, hkey⟩
    · rw [if_neg hk] at hl
      obtain ⟨hne, hhas⟩ := hc.written m id bytes hl
      exact ⟨hne, hmono m id hhas⟩

theorem Tracks.turn (hc : Tracks k nodes j) (h : Store k d nodes)
    (ht : Turn k d nodes op k' d' nodes' ret) (hop : Served j op) :
    Tracks k' nodes' (j.record op ret) := by
  have hj := hc.follows h
  have hj' := hj.turn h ht
  have h' := ht.keeps h
  by_cases hw : ∀ file buffer length garbage, op = .write file buffer length garbage → ret.value < 0
  · exact hc.extend (ht.extends h hw) (record_writes j hw) hj' h'
  · simp only [not_forall, not_lt] at hw
    obtain ⟨file, _, length, garbage, rfl, hret⟩ := hw
    have hmono : ∀ m id, Has k nodes m id → Has k' nodes' m id := fun _ _ hhas => ht.has_mono h hhas
    cases ht with
    | reject _ hres => exact absurd hret (not_le_of_gt hres.neg)
    | spill => exact absurd hret (by decide)
    | @store _ f b buffer _ _ p c hf hb hacc hp hat hid =>
      obtain ⟨⟨m, id⟩, hkey⟩ := Option.ne_none_iff_exists'.mp hop.1
      obtain ⟨num, hsel, rfl, hhas⟩ := hj.selection_of_chosen hkey
      obtain ⟨rfl, rfl⟩ := Prod.mk.inj (Option.some.inj ((selection_eq_some hf hb).symm.trans hsel))
      have hpos : 0 < length.toNat := hacc.2.2.1
      refine hc.write (f.f_inode, narrow b.channel_num) (payload buffer length.toNat) hj' h' ?_ ?_
        hmono (hmono _ _ hhas) fun m id bytes hs => ?_
      · simp only [Journal.record, hkey]
        rw [if_pos (show (0 : ℤ) < length.toNat from Int.ofNat_lt.mpr hpos)]
      · rw [← List.length_pos_iff, payload_length]
        exact hpos
      · rw [← hid]
        exact (stored_shows h hp hat buffer hacc.2.2.2 garbage m id bytes).mp hs

/-! ## Calls -/

/-- What a read of `length` bytes returns when `last` is the last message of the channel. -/
def answer (last : Option (List Byte)) (length : ℕ) : Ret :=
  match last with
  | none => ⟨-EWOULDBLOCK, []⟩
  | some bytes => if length < bytes.length then ⟨-ENOSPC, []⟩ else ⟨bytes.length, bytes⟩

theorem Tracks.read_eq (hc : Tracks k nodes j) (h : Store k d nodes)
    (hkey : j.chosen file = some (m, id)) {writable : ℕ → Bool} {length : BitVec 64}
    (hpos : 0 < length.toNat) (hle : length.toNat ≤ BUFFER_LENGTH)
    (hw : ∀ l < length.toNat, writable l = true) :
    call grants k (.read file (some writable) length) =
      .ok (k, answer (lastWrite (m, id) j.writes) length.toNat) := by
  obtain ⟨num, hsel, rfl, bytes, hshow⟩ := (hc.follows h).selection_of_chosen hkey
  obtain ⟨f, b, hf, hb, rfl, rfl⟩ := selection_iff.mp hsel
  have hcontent := hc.content _ _ _ hshow
  rw [call, hf]
  dsimp only
  rw [deviceRead_found h hf hb hshow hpos hle, ok_bind, readOut_writable hw]
  cases hlast : lastWrite (f.f_inode, narrow b.channel_num) j.writes with
  | none =>
    rw [hlast, Option.getD_none] at hcontent
    rw [if_pos hcontent]
    rfl
  | some last =>
    rw [hlast, Option.getD_some] at hcontent
    rw [if_neg (hcontent ▸ (hc.written _ _ _ hlast).1), hcontent]
    dsimp only [answer]
    split <;> rfl

/-- Where every allocation succeeds, no served call faults. -/
theorem Follows.call_served (hj : Follows k nodes j) (h : Orderly k d nodes)
    (hg : ∀ n, grants n = true) (hop : Served j op) : ∃ k' ret, call grants k op = .ok (k', ret) := by
  rcases h.call_turn grants (fun m hm => h.room hm) op with
    ⟨k', _, _, ret, hcall, _⟩ | ⟨_, hstarved | hlost⟩
  · exact ⟨k', ret, hcall⟩
  · simp [Starved, hg] at hstarved
  · cases op with
    | read file buffer length =>
      obtain ⟨_, _, _, f, b, hf, hb, hnot⟩ := hlost
      obtain ⟨⟨m, id⟩, hkey⟩ := Option.ne_none_iff_exists'.mp hop.1
      obtain ⟨num, hsel, rfl, hhas⟩ := hj.selection_of_chosen hkey
      obtain ⟨rfl, rfl⟩ := Prod.mk.inj (Option.some.inj ((selection_eq_some hf hb).symm.trans hsel))
      exact absurd hhas hnot
    | _ => exact hlost.elim

/-! ## Runs -/

theorem Tracks.init (hk : prepare grants = .ok k) : Tracks k (fun _ => []) .empty := by
  have h : Orderly k _ _ := .init hk
  refine (Follows.init hk).tracks h.toStore (fun m id bytes hshow => ?_) fun m id bytes hw => by
    cases hw
  obtain ⟨p, hp, _⟩ := hshow
  cases hp

theorem tracked_of_reachable {s : System} (hs : (servedSlots grants).Reachable s) :
    ∃ d nodes, Orderly s.kernel d nodes ∧ Tracks s.kernel nodes s.journal := by
  refine Machine.Reachable.invariant (I := fun s : System => ∃ d nodes, Orderly s.kernel d nodes ∧
    Tracks s.kernel nodes s.journal) ?_ ?_ hs
  · rintro s ⟨hk, hempty⟩
    rw [hempty]
    exact ⟨_, _, .init hk, .init hk⟩
  · rintro s op t ⟨d, nodes, h, hc⟩ ⟨⟨ret, hcall, hrec⟩, hop⟩
    obtain ⟨d', nodes', ht⟩ := h.call_ok hcall
    rw [hrec]
    exact ⟨d', nodes', h.turn ht, hc.turn h.toStore ht hop⟩

/-- The invariant of the runs that only make served calls. -/
def InStep (s : System) : Prop := ∃ d nodes, Store s.kernel d nodes ∧ Tracks s.kernel nodes s.journal

theorem InStep.read_eq {s : System} (h : InStep s) (hkey : s.journal.chosen file = some (m, id))
    {writable : ℕ → Bool} {length : BitVec 64} (hpos : 0 < length.toNat)
    (hle : length.toNat ≤ BUFFER_LENGTH) (hw : ∀ l < length.toNat, writable l = true) :
    call grants s.kernel (.read file (some writable) length) =
      .ok (s.kernel, answer (lastWrite (m, id) s.journal.writes) length.toNat) := by
  obtain ⟨d, nodes, hs, hc⟩ := h
  exact hc.read_eq hs hkey hpos hle hw

/-- Only a write on a file that has chosen `key` enters a message for `key`. -/
theorem Journal.lastWrite_record (j : Journal) {op : Op} (ret : Ret) {key : Minor × BitVec 32}
    (hop : ∀ file buffer length garbage, op = .write file buffer length garbage →
      j.chosen file ≠ some key) :
    lastWrite key (j.record op ret).writes = lastWrite key j.writes := by
  cases op with
  | «open» => rw [Journal.record]; split <;> rfl
  | ioctl => rw [Journal.record]; split <;> rfl
  | read => rfl
  | release => rw [Journal.record]; split <;> rfl
  | write file buffer length garbage =>
    have hne := hop file buffer length garbage rfl
    simp only [Journal.record]
    split
    case h_2 => rfl
    case h_1 key' buffer hkey =>
      split
      · have hk : key' ≠ key := by
          rintro rfl
          exact hne hkey
        rw [lastWrite_snoc, if_neg hk]
      · rfl

/-- In every run of served calls: no call faults; a read returns the last write to the channel that
its file has chosen; and a call on another channel does not change what it returns. -/
theorem read_returns_last_write (hg : ∀ n, grants n = true) {s : System}
    (hs : (servedSlots grants).Reachable s) :
    (∀ op, Served s.journal op → ∃ k' ret, call grants s.kernel op = .ok (k', ret)) ∧
    (∀ file m param writable length, s.journal.files file = some (m, some param) →
      0 < length.toNat → length.toNat ≤ BUFFER_LENGTH → (∀ l < length.toNat, writable l = true) →
      call grants s.kernel (.read file (some writable) length) = .ok (s.kernel,
        answer (lastWrite (m, param.setWidth 32) s.journal.writes) length.toNat)) ∧
    ∀ op t key, (servedSlots grants).step s op t →
      (∀ file buffer length garbage, op = .write file buffer length garbage →
        s.journal.chosen file ≠ some key) →
      lastWrite key t.journal.writes = lastWrite key s.journal.writes := by
  obtain ⟨d, nodes, h, hc⟩ := tracked_of_reachable hs
  have hin : InStep s := ⟨d, nodes, h.toStore, hc⟩
  refine ⟨fun op hop => (hc.follows h.toStore).call_served h hg hop,
    fun file m param writable length hfile hpos hle hw => ?_, fun op t key hstep hop => ?_⟩
  · exact hin.read_eq (by rw [Journal.chosen, hfile]) hpos hle hw
  · obtain ⟨⟨ret, _, hrec⟩, _⟩ := hstep
    rw [hrec]
    exact s.journal.lastWrite_record ret hop

theorem read_returns_last_write_sample : ∃ s, (servedSlots fun _ => true).Reachable s ∧
    call (fun _ => true) s.kernel (.read 0 (some fun _ => true) 128#64) =
      .ok (s.kernel, ⟨2, [65#8, 66#8]⟩) := by
  have hrun : ((boot fun _ => true).bind fun s =>
      Machine.perform (serve fun _ => true) s sampleOps).map
        (fun s => (s.journal.files 0, s.journal.writes)) =
      some (some (5, some 7#64), [((5, 7#32), [65#8, 66#8])]) := by decide +kernel
  obtain ⟨s, hs, hj⟩ := Option.map_eq_some_iff.mp hrun
  obtain ⟨s₀, h₀, hs⟩ := Option.bind_eq_some_iff.mp hs
  obtain ⟨hfile, hwrites⟩ := Prod.mk.inj hj
  have hreach := ((Machine.Run.start (boot_init h₀)).perform (fun _ _ _ h => serve_step h)
    hs).reachable
  refine ⟨s, hreach, ?_⟩
  rw [(read_returns_last_write (fun _ => rfl) hreach).2.1 0 5 7#64 _ _ hfile (by decide) (by decide)
    fun _ _ => rfl, hwrites]
  rfl

end OsCourse.MessageSlot
