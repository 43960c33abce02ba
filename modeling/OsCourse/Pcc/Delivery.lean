import OsCourse.Pcc.Sessions

/-! # How the network splits the stream

A client sends a header and a message; the network hands the stream over in pieces, one
for each `recv`. The server asks twice and takes what it gets, so its answer depends on
where the pieces end.
-/

namespace OsCourse.Pcc
open Foundations

variable {host : Host} {s : Server} {m : List Byte}

/-- The bytes of a message and its header, in the order in which they are sent. -/
def stream (m : List Byte) : List Byte :=
  List.ofFn (store .big (BitVec.ofNat 32 m.length)) ++ m

/-- What the server's memory holds where it has not written: the old bytes of `N_network`, and
what follows a buffer of each size up to the first zero. -/
structure Leftover where
  stale : Word
  beyond : BitVec 32 → List Byte

/-- How many bytes of the stream each `recv` returns. -/
structure Delivery where
  header : ℕ
  message : ℕ
  deriving DecidableEq, Repr

/-- `sizeof(char) * N_host` as a `size_t`. -/
def blockSize (N_host : BitVec 32) : ℕ := (N_host.signExtend 64).toNat

theorem blockSize_eq (N_host : BitVec 32) :
    blockSize N_host = N_host.toNat + if 2 ^ 31 ≤ N_host.toNat then 2 ^ 64 - 2 ^ 32 else 0 := by
  have hN := N_host.isLt
  rw [blockSize, BitVec.toNat_signExtend, BitVec.toNat_setWidth, BitVec.msb_eq_decide,
    Nat.mod_eq_of_lt (by omega)]
  simp

namespace Delivery
variable {mem : Leftover} {d d' : Delivery}

def headerPiece (m : List Byte) (d : Delivery) : List Byte := (stream m).take d.header

def messagePiece (m : List Byte) (d : Delivery) : List Byte :=
  ((stream m).drop d.header).take d.message

/-- The length that the server makes of the header piece. -/
def nHost (mem : Leftover) (m : List Byte) (d : Delivery) : BitVec 32 :=
  load .big (received (d.headerPiece m) mem.stale)

/-- Each piece is part of the stream, no longer than requested, and empty only if nothing was
requested. -/
structure Possible (mem : Leftover) (m : List Byte) (d : Delivery) : Prop where
  header_pos : 0 < d.header
  header_le : d.header ≤ 4
  message_pos : d.nHost mem m ≠ 0#32 → 0 < d.message
  message_le : d.message ≤ (d.nHost mem m).toNat
  available : d.header + d.message ≤ (stream m).length

/-- The stretch of the stream whose characters are counted: the second piece up to its first zero,
and, if it fills the buffer without one, what follows the buffer. -/
def counted (mem : Leftover) (m : List Byte) (d : Delivery) : List Byte :=
  cString (d.messagePiece m ++
    if d.message < (d.nHost mem m).toNat then [] else mem.beyond (d.nHost mem m))

/-- The buffer can be allocated and its string can be counted with an `int`. -/
def Manageable (mem : Leftover) (m : List Byte) (d : Delivery) : Prop :=
  (d.nHost mem m).toNat < 2 ^ 31 ∧ (d.counted mem m).length < 2 ^ 31

instance : Decidable (Manageable mem m d) :=
  inferInstanceAs (Decidable (_ ∧ _))

/-- What the client is sent and what `pcc_total` becomes, if the server gets that far. -/
def serve (host : Host) (s : Server) (mem : Leftover) (m : List Byte) (d : Delivery) :
    Option (Option Word × Counters) :=
  (Machine.perform (step host) s (exchanging (d.headerPiece m) (d.messagePiece m) mem.stale
    (mem.beyond (d.nHost mem m)))).map fun t => (t.exchange.reply.map Prod.fst, t.totals.pccTotal)

theorem Possible.headerPiece_length (h : d.Possible mem m) : (d.headerPiece m).length = d.header := by
  have := h.available
  rw [headerPiece, List.length_take]
  omega

theorem Possible.messagePiece_length (h : d.Possible mem m) :
    (d.messagePiece m).length = d.message := by
  have := h.available
  rw [messagePiece, List.length_take, List.length_drop]
  omega

theorem cString_zeros (l r : List Byte) {n : ℕ} (h : 0 < n) :
    cString (l ++ List.replicate n 0#8 ++ r) = cString l := by
  obtain ⟨n, rfl⟩ := Nat.exists_eq_succ_of_ne_zero (Nat.ne_of_gt h)
  induction l with
  | nil => rfl
  | cons c l ih =>
    by_cases hc : c = 0#8
    · simp [cString, hc]
    · simpa [cString, hc] using ih

/-- The string in the buffer: what was received up to its first zero byte, and where that fills the
buffer without one, what lies behind the buffer. -/
theorem messageFromHome_eq {N_host : BitVec 32} {bytes : List Byte} (hlen : bytes.length ≤ N_host.toNat)
    (beyond : List Byte) : messageFromHome N_host bytes beyond =
      cString (bytes ++ if bytes.length < N_host.toNat then [] else beyond) := by
  rw [messageFromHome]
  by_cases hlt : bytes.length < N_host.toNat
  · rw [if_pos hlt, List.append_nil, cString_zeros _ _ (by omega)]
  · rw [if_neg hlt, show N_host.toNat - bytes.length = 0 by omega]
    simp

theorem Possible.messageFromHome_eq (h : d.Possible mem m) :
    messageFromHome (d.nHost mem m) (d.messagePiece m) (mem.beyond (d.nHost mem m)) =
      d.counted mem m := by
  have hlen := h.messagePiece_length
  rw [Delivery.messageFromHome_eq (hlen ▸ h.message_le), counted, hlen]

theorem perform_io {t : Server} {o : Io} (h : turn host s s.pc o = some t) (as : List Event) :
    Machine.perform (step host) s (.io o :: as) = Machine.perform (step host) t as := by
  rw [Machine.perform, step, h, Option.bind_some]

/-- An `int` extended to a `size_t` stays below `PTRDIFF_MAX` unless it is negative. -/
theorem afterMalloc_true (s : Server) (N_host : BitVec 32) :
    afterMalloc s N_host true =
      goto s (if N_host.toNat < 2 ^ 31 then .recvMessage N_host else .crashed) := by
  have hN := N_host.isLt
  have hsize := blockSize_eq N_host
  rw [blockSize] at hsize
  unfold afterMalloc
  dsimp only
  by_cases h : N_host.toNat < 2 ^ 31
  · rw [if_pos h, if_pos (by rw [hsize, if_neg (by omega)]; exact Or.inr ⟨rfl, by omega⟩)]
  · rw [if_neg h, if_neg (by rw [hsize, if_pos (by omega)]; omega)]

/-- One whole exchange, from the first `recv` to the commit. -/
theorem serve_eq (h : d.Possible mem m) (hpc : s.pc = .recvLength) (hu : Settled s) :
    serve host s mem m d =
      if d.Manageable mem m then
        some (some (store host.order (BitVec.ofNat 32 (printables (d.counted mem m)))),
          addCounts s.totals.pccTotal (d.counted mem m))
      else none := by
  have hlen : (d.headerPiece m).length ≤ 4 := by
    rw [h.headerPiece_length]
    exact h.header_le
  have hbytes : (d.messagePiece m).length ≤ (d.nHost mem m).toNat := by
    rw [h.messagePiece_length]
    exact h.message_le
  have hntohl : ntohl host.order (load host.order (received (d.headerPiece m) mem.stale)) =
      d.nHost mem m := ntohl_load _ _
  rw [serve, exchanging, perform_io (by rw [hpc]; exact if_pos hlen), perform_io rfl, hntohl,
    afterMalloc_true]
  by_cases hsize : (d.nHost mem m).toNat < 2 ^ 31
  · rw [if_pos hsize, perform_io (by exact if_pos hbytes), h.messageFromHome_eq, perform_io rfl,
      countMessage]
    by_cases hshort : (d.counted mem m).length < 2 ^ 31
    · rw [if_pos ⟨hsize, hshort⟩, countChars_eq _ _ hshort]
      dsimp only
      rw [perform_io rfl, perform_io rfl, duplicatePccTotal_one]
      change some (some _, addCounts s.totals.pccTotalTemp _) = _
      rw [hu]
    · rw [if_neg fun hm => hshort hm.2, countChars, if_neg hshort]
      rfl
  · rw [if_neg hsize, if_neg fun hm => hsize hm.1]
    rfl

/-! ## Two deliveries -/

/-- Both deliveries are answered, with the same count and the same totals. -/
def AnsweredAlike (host : Host) (s : Server) (mem : Leftover) (m : List Byte) (d d' : Delivery) :
    Prop :=
  ∃ answer, serve host s mem m d = some answer ∧ serve host s mem m d' = some answer

/-- What a second piece of `k` bytes leaves in the buffer: it is the whole block if none is missing. -/
def filled (mem : Leftover) (m : List Byte) (d : Delivery) (k : ℕ) : List Byte :=
  ((stream m).drop d.header).take k ++
    if k < (d.nHost mem m).toNat then [] else mem.beyond (d.nHost mem m)

/-- Equally many bytes of the length came, and what the longer second piece brings behind the
shorter one is cut off by a zero byte, or is not printable. -/
structure Interchangeable (mem : Leftover) (m : List Byte) (d d' : Delivery) : Prop where
  header : d.header = d'.header
  length : (d.nHost mem m).toNat < 2 ^ 31
  string : max d.message d'.message = (d.nHost mem m).toNat →
    (cString (d.filled mem m (d.nHost mem m).toNat)).length < 2 ^ 31
  surplus : d.message = d'.message ∨
    ∀ c ∈ (cString (d.filled mem m (max d.message d'.message))).drop (min d.message d'.message),
      ¬ Printable c

theorem AnsweredAlike.symm (h : AnsweredAlike host s mem m d d') : AnsweredAlike host s mem m d' d :=
  let ⟨answer, hserve, hserve'⟩ := h
  ⟨answer, hserve', hserve⟩

/-- The length that the server takes depends on the first piece only. -/
theorem nHost_congr (mem : Leftover) (m : List Byte) (h : d.header = d'.header) :
    d.nHost mem m = d'.nHost mem m := by
  rw [nHost, nHost, headerPiece, headerPiece, h]

theorem filled_congr (mem : Leftover) (m : List Byte) (h : d.header = d'.header) :
    d.filled mem m = d'.filled mem m := by
  funext k
  rw [filled, filled, h, nHost_congr mem m h]

theorem Interchangeable.symm (h : Interchangeable mem m d d') : Interchangeable mem m d' d where
  header := h.header.symm
  length := nHost_congr mem m h.header ▸ h.length
  string := by
    rw [max_comm, ← nHost_congr mem m h.header, ← filled_congr mem m h.header]
    exact h.string
  surplus := by
    rw [max_comm, min_comm, ← filled_congr mem m h.header]
    exact h.surplus.imp_left Eq.symm

theorem addCounts_inj {a : Counters} {l l' : List Byte} (hl : l.length < 2 ^ 31)
    (hl' : l'.length < 2 ^ 31) :
    addCounts a l = addCounts a l' ↔ ∀ i, l.count (charAt i) = l'.count (charAt i) := by
  rw [funext_iff]
  refine forall_congr' fun i => ?_
  have h := lt_of_le_of_lt (List.count_le_length (a := charAt i) (l := l)) hl
  have h' := lt_of_le_of_lt (List.count_le_length (a := charAt i) (l := l')) hl'
  rw [addCounts, addCounts, BitVec.add_right_inj, ← BitVec.toNat_inj, BitVec.toNat_ofNat,
    BitVec.toNat_ofNat]
  omega

/-- More of a string counts the same exactly if it adds nothing printable. -/
theorem count_append_iff (l r : List Byte) :
    (∀ i, l.count (charAt i) = (l ++ r).count (charAt i)) ↔ ∀ c ∈ r, ¬ Printable c := by
  have hsum := sum_count r
  have hzero : printables r = 0 ↔ ∀ c ∈ r, ¬ Printable c := by
    simp [printables, List.countP_eq_zero]
  rw [← hzero, ← hsum, Finset.sum_eq_zero_iff]
  simp only [Finset.mem_univ, true_implies, List.count_append, Nat.left_eq_add]

/-- What is counted is the string that the buffer starts with. -/
theorem counted_eq (mem : Leftover) (m : List Byte) (d : Delivery) :
    d.counted mem m = cString (d.filled mem m d.message) := rfl

/-- The string of a longer piece goes on where that of a shorter one ends. -/
theorem filled_append {k k' : ℕ} (hlt : k < k') (hle : k' ≤ (d.nHost mem m).toNat)
    (hav : d.header + k' ≤ (stream m).length) :
    cString (d.filled mem m k') =
      cString (d.filled mem m k) ++ (cString (d.filled mem m k')).drop k := by
  set rest := (stream m).drop d.header with hrest
  have hk : (rest.take k).length = k := by
    rw [List.length_take, hrest, List.length_drop]
    omega
  have hbegin : d.filled mem m k = rest.take k := by
    rw [filled, if_pos (hlt.trans_le hle), List.append_nil]
  have hgoes : d.filled mem m k' = rest.take k ++ ((rest.take k').drop k ++
      if k' < (d.nHost mem m).toNat then [] else mem.beyond (d.nHost mem m)) := by
    have htake : rest.take k = (rest.take k').take k := by rw [List.take_take, min_eq_left hlt.le]
    rw [filled, ← List.append_assoc, htake, List.take_append_drop]
  have htake := take_cString_append (rest.take k) ((rest.take k').drop k ++
    if k' < (d.nHost mem m).toNat then [] else mem.beyond (d.nHost mem m))
  rw [hk, ← hgoes] at htake
  rw [hbegin, ← htake, List.take_append_drop]

theorem length_filled_le {k : ℕ} (hlt : k < (d.nHost mem m).toNat) :
    (cString (d.filled mem m k)).length ≤ k := by
  rw [filled, if_pos hlt, List.append_nil]
  exact (List.takeWhile_prefix _).length_le.trans (List.length_take_le ..)

/-- A longer piece counts the same exactly if what it adds does not count. -/
theorem count_filled_iff {k k' : ℕ} (hle : k ≤ k') (hlast : k' ≤ (d.nHost mem m).toNat)
    (hav : d.header + k' ≤ (stream m).length) :
    (∀ i, (cString (d.filled mem m k)).count (charAt i) =
        (cString (d.filled mem m k')).count (charAt i)) ↔
      k = k' ∨ ∀ c ∈ (cString (d.filled mem m k')).drop k, ¬ Printable c := by
  rcases hle.lt_or_eq with hlt | rfl
  · rw [filled_append hlt hlast hav, count_append_iff, ← filled_append hlt hlast hav]
    exact (or_iff_right hlt.ne).symm
  · exact iff_of_true (fun _ => rfl) (Or.inl rfl)

/-- Two deliveries whose first pieces are the same are answered alike exactly if what only the
longer second piece brings does not count. -/
theorem answeredAlike_iff_of_le (hset : Settled s) (hpc : s.pc = .recvLength)
    (hd : d.Possible mem m) (hd' : d'.Possible mem m) (hle : d.message ≤ d'.message)
    (h : d.header = d'.header) :
    AnsweredAlike host s mem m d d' ↔ Interchangeable mem m d d' := by
  have hN := nHost_congr mem m h
  have hlast : d'.message ≤ (d.nHost mem m).toNat := hN ▸ hd'.message_le
  have hcounted := counted_eq mem m d
  have hcounted' : d'.counted mem m = cString (d.filled mem m d'.message) := by
    rw [counted_eq, filled_congr mem m h]
  have hsame := count_filled_iff hle hlast (h ▸ hd'.available)
  rw [← hcounted, ← hcounted'] at hsame
  have hlong : ∀ {k}, k ≤ (d.nHost mem m).toNat → (k = (d.nHost mem m).toNat →
      (cString (d.filled mem m (d.nHost mem m).toNat)).length < 2 ^ 31) →
      (d.nHost mem m).toNat < 2 ^ 31 → (cString (d.filled mem m k)).length < 2 ^ 31 := by
    intro k hk hwhole hsize
    rcases hk.lt_or_eq with hk | rfl
    · exact (length_filled_le hk).trans_lt (hk.trans hsize)
    · exact hwhole rfl
  rw [AnsweredAlike, serve_eq hd hpc hset, serve_eq hd' hpc hset]
  constructor
  · rintro ⟨answer, hserve, hserve'⟩
    obtain ⟨hman, hanswer⟩ := Option.ite_none_right_eq_some.mp hserve
    obtain ⟨hman', hanswer'⟩ := Option.ite_none_right_eq_some.mp hserve'
    have htotals := (Prod.mk.inj (Option.some.inj (hanswer.trans hanswer'.symm))).2
    rw [addCounts_inj hman.2 hman'.2] at htotals
    refine ⟨h, hman.1, ?_, ?_⟩ <;> rw [max_eq_right hle]
    · intro hwhole
      rw [← hwhole, ← hcounted']
      exact hman'.2
    · rw [min_eq_left hle, ← hcounted']
      exact hsame.mp htotals
  · rintro ⟨_, hsize, hwhole, hsurplus⟩
    rw [max_eq_right hle] at hwhole hsurplus
    rw [min_eq_left hle] at hsurplus
    have hshort := hlong (hle.trans hlast) (fun heq => hwhole (le_antisymm hlast (heq ▸ hle))) hsize
    have hshort' := hlong hlast hwhole hsize
    rw [← hcounted] at hshort
    rw [← hcounted'] at hshort' hsurplus
    have hcounts := hsame.mpr hsurplus
    have htotals := (addCounts_inj (a := s.totals.pccTotal) hshort hshort').mpr hcounts
    rw [if_pos ⟨hsize, hshort⟩, if_pos ⟨hN ▸ hsize, hshort'⟩]
    refine ⟨_, rfl, ?_⟩
    rw [htotals, ← sum_count, ← sum_count, Finset.sum_congr rfl fun i _ => hcounts i]

/-- Deliveries that bring equally much of the length and differ in nothing that counts are answered
alike; and where both bring equally much of the length, no others are. -/
theorem answers_agree_when_interchangeable (mem : Leftover) (h : (server host).Reachable s)
    (hpc : s.pc = .recvLength) (hd : d.Possible mem m) (hd' : d'.Possible mem m) :
    (Interchangeable mem m d d' → AnsweredAlike host s mem m d d') ∧
      (d.header = d'.header →
        (AnsweredAlike host s mem m d d' ↔ Interchangeable mem m d d')) := by
  have hset : Settled s := by
    have := (ledger_reachable h).here
    rw [hpc] at this
    exact Untouched.settled this
  have hiff : d.header = d'.header →
      (AnsweredAlike host s mem m d d' ↔ Interchangeable mem m d d') := by
    intro hheader
    rcases le_total d.message d'.message with hle | hle
    · exact answeredAlike_iff_of_le hset hpc hd hd' hle hheader
    · have hback : AnsweredAlike host s mem m d' d ↔ Interchangeable mem m d' d :=
        answeredAlike_iff_of_le hset hpc hd' hd hle hheader.symm
      exact ⟨fun h => (hback.mp h.symm).symm, fun h => (hback.mpr h.symm).symm⟩
  exact ⟨fun h => (hiff h.header).mpr h, hiff⟩

/-- A server that is about to receive the length from its first client. -/
theorem exists_waiting (host : Host) : ∃ s, (server host).Reachable s ∧ s.pc = .recvLength := by
  have hrun : (Machine.perform (step host) .start (opening 4)).map Server.pc = some .recvLength :=
    rfl
  obtain ⟨s, hs, hpc⟩ := Option.map_eq_some_iff.mp hrun
  exact ⟨s, (Machine.run_ofFun.mpr hs).reachable, hpc⟩

/-- `A` and a newline: the newline is not counted, so it may come late. -/
theorem answers_agree_when_interchangeable_sample :
    ∃ s, (server ⟨.little, true, false⟩).Reachable s ∧
      AnsweredAlike ⟨.little, true, false⟩ s ⟨fun _ => 0#8, fun _ => []⟩ [65#8, 10#8]
        ⟨4, 1⟩ ⟨4, 2⟩ := by
  obtain ⟨s, hs, hpc⟩ := exists_waiting ⟨.little, true, false⟩
  refine ⟨s, hs, (answers_agree_when_interchangeable _ hs hpc ?_ ?_).1 ?_⟩
  · exact ⟨by decide, by decide, by decide, by decide, by decide⟩
  · exact ⟨by decide, by decide, by decide, by decide, by decide⟩
  · exact ⟨rfl, by decide, fun _ => by decide, Or.inr (by decide)⟩

/-- `AB` in one piece or in two: the client is told 2 or 1. -/
theorem answers_disagree :
    ¬ ∀ (s : Server) (mem : Leftover) (m : List Byte) (d d' : Delivery),
      (server ⟨.little, true, false⟩).Reachable s → s.pc = .recvLength → d.Possible mem m →
      d'.Possible mem m → AnsweredAlike ⟨.little, true, false⟩ s mem m d d' := by
  intro h
  obtain ⟨s, hs, hpc⟩ := exists_waiting ⟨.little, true, false⟩
  have hset : Settled s := by
    have := (ledger_reachable hs).here
    rw [hpc] at this
    exact Untouched.settled this
  have hd : Possible ⟨fun _ => 0#8, fun _ => []⟩ [65#8, 66#8] ⟨4, 2⟩ :=
    ⟨by decide, by decide, by decide, by decide, by decide⟩
  have hd' : Possible ⟨fun _ => 0#8, fun _ => []⟩ [65#8, 66#8] ⟨4, 1⟩ :=
    ⟨by decide, by decide, by decide, by decide, by decide⟩
  obtain ⟨answer, hserve, hserve'⟩ := h s _ _ _ _ hs hpc hd hd'
  have heq := hserve.trans hserve'.symm
  rw [serve_eq hd hpc hset, serve_eq hd' hpc hset, if_pos (by decide), if_pos (by decide),
    Option.some.injEq, Prod.mk.injEq, Option.some.injEq] at heq
  exact absurd heq.1 (by decide)

end Delivery
end OsCourse.Pcc
