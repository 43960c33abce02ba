import OsCourse.Pcc.Client
import OsCourse.Pcc.Delivery

/-! # The two numbers of an exchange

The client sends a length in network order and the server keeps it in an `int`; the server
sends a count in its own order and the client prints what it receives. So the length arrives
if it fits into an `int`, and the count if the two hosts agree on the order of its bytes.
-/

namespace OsCourse.Pcc
open Foundations

variable {host : Host} {s : Server} {o o' : ByteOrder}

/-! ## The length -/

/-- The bytes that the client sends for the size of its file. -/
def lengthHeader (o : ByteOrder) (size : BitVec 32) : List Byte := List.ofFn (store o (htonl o size))

theorem client_lengthHeader {file : List Byte} {malloc : Option (List Byte)} {sent : Sent}
    (h : client o file malloc = .ok sent) :
    List.ofFn sent.header = lengthHeader o (BitVec.ofNat 32 file.length) := by
  cases malloc with
  | none => cases h
  | some reserved =>
    rw [client] at h
    obtain ⟨memory, _, h⟩ := bind_eq_ok h
    obtain ⟨n, _, h⟩ := bind_eq_ok h
    rw [← Except.ok.inj h, lengthHeader]

/-- What `ntohl` makes of the header, on whatever host. -/
theorem ntohl_lengthHeader (o : ByteOrder) (size : BitVec 32) (stale : Word) :
    ntohl host.order (load host.order (received (lengthHeader o size) stale)) = size := by
  rw [lengthHeader, received_ofFn, ntohl_load, htonl_header]

theorem blockSize_eq_toNat_iff (N_host : BitVec 32) :
    blockSize N_host = N_host.toNat ↔ N_host.toNat < 2 ^ 31 := by
  rw [blockSize_eq]
  split <;> omega

/-- The size that the server passes to `malloc`, `memset` and `recv` is the length that the client has
sent exactly if that is below `2 ^ 31`; from there on the server crashes. -/
theorem length_arrives_iff (hpc : s.pc = .recvLength) (o : ByteOrder) (L : BitVec 32)
    (stale : Word) :
    ((∃ t N_network, step host s (.io (.recvLength (.ok (lengthHeader o L)) stale)) = some t ∧
      t.pc = .malloc N_network ∧ blockSize (ntohl host.order N_network) = L.toNat) ↔
      L.toNat < 2 ^ 31) ∧
    (Machine.perform (step host) s [.io (.recvLength (.ok (lengthHeader o L)) stale),
      .io (.malloc true)]).map Server.pc =
        some (if L.toNat < 2 ^ 31 then .recvMessage L else .crashed) := by
  have hstep : step host s (.io (.recvLength (.ok (lengthHeader o L)) stale)) =
      some (goto { s with exchange := { s.exchange with length := some (.ok (lengthHeader o L)) } }
        (.malloc (load host.order (received (lengthHeader o L) stale)))) := by
    rw [step, hpc]
    rfl
  constructor
  · rw [← blockSize_eq_toNat_iff]
    constructor
    · rintro ⟨t, N_network, ht, hN, hsize⟩
      obtain rfl := Option.some.inj (hstep.symm.trans ht)
      rw [← Pc.malloc.inj hN, ntohl_lengthHeader] at hsize
      exact hsize
    · intro hsize
      exact ⟨_, _, hstep, rfl, by rw [ntohl_lengthHeader, hsize]⟩
  · rw [Machine.perform, hstep, Option.bind_some, Delivery.perform_io rfl, ntohl_lengthHeader,
      Delivery.afterMalloc_true]
    rfl

theorem length_arrives_iff_sample : ∃ s, (server sampleHost).Reachable s ∧ s.pc = .recvLength ∧
    ∃ t N_network, step sampleHost s (.io (.recvLength (.ok (lengthHeader .big 3#32)) fun _ => 0#8)) =
      some t ∧ t.pc = .malloc N_network ∧ blockSize (ntohl sampleHost.order N_network) = 3 := by
  obtain ⟨s, hs, hpc⟩ := Delivery.exists_waiting sampleHost
  exact ⟨s, hs, hpc, (length_arrives_iff hpc .big 3#32 _).1.mpr (by decide)⟩

/-- Of the length `2 ^ 31` the server makes a block of nearly `2 ^ 64` bytes. -/
theorem length_not_arrived : ∃ s t N_network, (server sampleHost).Reachable s ∧
    step sampleHost s (.io (.recvLength (.ok (lengthHeader .little 0x80000000#32)) fun _ => 0#8)) =
      some t ∧ t.pc = .malloc N_network ∧
    blockSize (ntohl sampleHost.order N_network) = 18446744071562067968 := by
  obtain ⟨s, hs, hpc⟩ := Delivery.exists_waiting sampleHost
  have hstep : step sampleHost s (.io (.recvLength
      (.ok (lengthHeader .little 0x80000000#32)) fun _ => 0#8)) =
      some (goto { s with exchange := { s.exchange with
        length := some (.ok (lengthHeader .little 0x80000000#32)) } } (.malloc 0x80#32)) := by
    rw [step, hpc]
    rfl
  exact ⟨s, _, _, hs, hstep, rfl, by decide⟩

/-! ## The count -/

/-- How the client ends: what it prints, if anything, and its exit status. -/
structure Outcome where
  printed : Option (BitVec 32)
  status : ℤ

/-- The client from its `recv` into `C` on. -/
def receiveCount (o : ByteOrder) (res : Received) (C : Word) : Outcome :=
  match res with
  | .ok bytes => ⟨some (load o (received bytes C)), 0⟩
  | .error errno =>
    match classify errno with
    | .nonFatal => ⟨none, 0⟩
    | .partOfFlow => ⟨some (load o C), 0⟩
    | .fatal => ⟨none, 1⟩

/-- The bytes of a word are the same from both of its ends. -/
def Palindromic (v : BitVec 32) : Prop := store .little v = store .big v

instance (v : BitVec 32) : Decidable (Palindromic v) := inferInstanceAs (Decidable (_ = _))

theorem store_injective (o : ByteOrder) : Function.Injective (store o) := by
  intro v w h
  rw [← load_store o v, h, load_store]

theorem load_store_iff (v : BitVec 32) : load o (store o' v) = v ↔ o = o' ∨ Palindromic v := by
  by_cases ho : o = o'
  · subst ho
    simp [load_store]
  · rw [← (store_injective o).eq_iff, store_load]
    simp only [ho, false_or, Palindromic]
    cases o with
    | little =>
      cases o' with
      | little => exact absurd rfl ho
      | big => exact eq_comm
    | big =>
      cases o' with
      | little => exact Iff.rfl
      | big => exact absurd rfl ho

/-- The client prints the count that the server has sent exactly if the two hosts have the same byte
order, or the bytes of the count are the same from both ends. -/
theorem count_arrives_iff {message : List Byte} {chars_count : BitVec 32}
    (hpc : s.pc = .send message chars_count) (o : ByteOrder) (stale : Word) :
    (∃ t C, step host s (.io (.send (.ok 4))) = some t ∧ t.exchange.reply = some (C, .ok 4) ∧
      (receiveCount o (.ok (List.ofFn C)) stale).printed = some chars_count) ↔
    o = host.order ∨ Palindromic chars_count := by
  have hstep : step host s (.io (.send (.ok 4))) =
      some (afterSend s message chars_count (.ok 4) host) := by
    rw [step, hpc]
    rfl
  have hreply := (afterSend_reply s message chars_count (.ok 4) host).1
  rw [← load_store_iff]
  constructor
  · rintro ⟨t, C, ht, hC, hprinted⟩
    obtain rfl := Option.some.inj (hstep.symm.trans ht)
    obtain ⟨rfl, -⟩ := Prod.mk.inj (Option.some.inj (hreply.symm.trans hC))
    rw [receiveCount, received_ofFn] at hprinted
    exact Option.some.inj hprinted
  · intro hload
    refine ⟨_, _, hstep, hreply, ?_⟩
    rw [receiveCount, received_ofFn, hload]

/-- A server that is about to send the count of a message of one character. -/
theorem exists_counted : ∃ s, (server sampleHost).Reachable s ∧ s.pc = .send [65#8] 1#32 := by
  have hrun : (Machine.perform (step sampleHost) .start (receiving [0#8, 0#8, 0#8, 1#8] ++
      [.io (.recvMessage (.ok [65#8]) []), .io .tau])).map Server.pc = some (.send [65#8] 1#32) := by
    decide +kernel
  obtain ⟨s, hs, hpc⟩ := Option.map_eq_some_iff.mp hrun
  exact ⟨s, (Machine.run_ofFun.mpr hs).reachable, hpc⟩

/-- A big-endian client prints 16777216 for the count 1 of a little-endian server. -/
theorem count_not_arrived : ∃ s t C, (server sampleHost).Reachable s ∧ s.pc = .send [65#8] 1#32 ∧
    step sampleHost s (.io (.send (.ok 4))) = some t ∧ t.exchange.reply = some (C, .ok 4) ∧
    (receiveCount .big (.ok (List.ofFn C)) fun _ => 0#8).printed = some 16777216#32 := by
  obtain ⟨s, hs, hpc⟩ := exists_counted
  refine ⟨s, _, _, hs, hpc, ?_, (afterSend_reply s [65#8] 1#32 (.ok 4) sampleHost).1, by decide⟩
  rw [step, hpc]
  rfl

theorem count_arrives_iff_sample : ∃ s, (server sampleHost).Reachable s ∧
    ∃ t C, step sampleHost s (.io (.send (.ok 4))) = some t ∧ t.exchange.reply = some (C, .ok 4) ∧
      (receiveCount .little (.ok (List.ofFn C)) fun _ => 0#8).printed = some 1#32 := by
  obtain ⟨s, hs, hpc⟩ := exists_counted
  exact ⟨s, hs, (count_arrives_iff hpc .little _).mpr (Or.inl rfl)⟩

end OsCourse.Pcc
