import OsCourse.Pcc.Accounts

/-! # What the clients are told

In every run of the service, whatever fails: each client is counted at most once, with a string that
the server has found in the buffer with that client's bytes, and what it is told is the count of that
string.
-/

namespace OsCourse.Pcc
open Foundations

variable {o : ByteOrder} {file : List Byte}

/-! ## What a client says and hears -/

/-- Bytes that a client with `file` may have sent. -/
def Said (o : ByteOrder) (file l : List Byte) : Prop :=
  ∃ header message, l = header ++ message ∧
    header <+: lengthHeader o (BitVec.ofNat 32 file.length) ∧
    (message = [] ∨ ∃ block sent, client o file block = .ok sent ∧ message <+: sent.message)

def SaidAt (o : ByteOrder) (file l : List Byte) : ClientPc → Prop
  | .connect | .sendSize => l = []
  | .malloc | .undefined _ => l <+: lengthHeader o (BitVec.ofNat 32 file.length)
  | .sendMessage message => l <+: lengthHeader o (BitVec.ofNat 32 file.length) ∧
    ∃ block sent, client o file block = .ok sent ∧ message = sent.message
  | .recv _ | .exited _ => Said o file l

structure Peer.Consistent (o : ByteOrder) (file : List Byte) (x : Peer) : Prop where
  said : SaidAt o file x.toServer.sent x.pc
  quiet : (∀ outcome, x.pc ≠ .exited outcome) → x.toClient.arrived = []
  printed : ∀ outcome C, x.pc = .exited outcome → outcome.printed = some C →
    ∃ stale, C = load o (received x.toClient.arrived stale)

theorem said_of_header {l : List Byte} (h : l <+: lengthHeader o (BitVec.ofNat 32 file.length)) :
    Said o file l := ⟨l, [], (List.append_nil l).symm, h, Or.inl rfl⟩

theorem SaidAt.said {l : List Byte} {pc : ClientPc} (h : SaidAt o file l pc) : Said o file l := by
  cases pc with
  | connect | sendSize =>
    rw [show l = [] from h]
    exact said_of_header (List.nil_prefix ..)
  | malloc | undefined => exact said_of_header h
  | sendMessage => exact said_of_header h.1
  | recv | exited => exact h

theorem Peer.consistent_start : Peer.start.Consistent o file := ⟨rfl, fun _ => rfl, nofun⟩

/-- A client that ends without printing. -/
theorem Peer.consistent_silent {x : Peer} (h : Said o file x.toServer.sent) (status : ℤ) :
    ({ x with pc := .exited ⟨none, status⟩ } : Peer).Consistent o file :=
  ⟨h, fun hne => absurd rfl (hne _), by rintro _ C ⟨⟩ ⟨⟩⟩

theorem Peer.consistent_sendSize {x : Peer} (hsaid : x.toServer.sent = [])
    (hquiet : x.toClient.arrived = []) (res : Except ℤ ℕ) :
    (x.send (lengthHeader o (BitVec.ofNat 32 file.length)) res (.exited ⟨none, 0⟩) .malloc).Consistent
      o file := by
  have hnil : x.toServer.sent <+: lengthHeader o (BitVec.ofNat 32 file.length) := by
    rw [hsaid]
    exact List.nil_prefix
  rcases x.send_cases (lengthHeader o (BitVec.ofNat 32 file.length)) res (.exited ⟨none, 0⟩)
    .malloc with ⟨n, _, heq⟩ | ⟨errno, pc, _, rfl | rfl | rfl, heq⟩ <;> rw [heq]
  · refine ⟨?_, fun _ => hquiet, nofun⟩
    rw [Fifo.sent_send, hsaid]
    exact List.take_prefix ..
  · exact consistent_silent (said_of_header hnil) 0
  · exact ⟨hnil, fun _ => hquiet, nofun⟩
  · exact consistent_silent (said_of_header hnil) 1

theorem Peer.consistent_sendMessage {x : Peer} {message : List Byte}
    (hsaid : SaidAt o file x.toServer.sent (.sendMessage message)) (hquiet : x.toClient.arrived = [])
    (res : Except ℤ ℕ) : (x.send message res (.recv true) (.recv false)).Consistent o file := by
  rcases x.send_cases message res (.recv true) (.recv false) with
    ⟨n, _, heq⟩ | ⟨errno, pc, _, rfl | rfl | rfl, heq⟩ <;> rw [heq]
  · obtain ⟨hheader, block, sent, hsent, rfl⟩ := hsaid
    refine ⟨⟨x.toServer.sent, sent.message.take n, Fifo.sent_send .., hheader, Or.inr ?_⟩,
      fun _ => hquiet, nofun⟩
    exact ⟨block, sent, hsent, List.take_prefix ..⟩
  · exact ⟨hsaid.said, fun _ => hquiet, nofun⟩
  · exact ⟨hsaid.said, fun _ => hquiet, nofun⟩
  · exact consistent_silent hsaid.said 1

theorem Peer.Consistent.move {x x' : Peer} {io : ClientIo} (h : x.Consistent o file)
    (hx : x.Move o file x.pc io x') : x'.Consistent o file := by
  have hsaid := h.said
  have hquiet := h.quiet
  generalize x.pc = pc at hx hsaid hquiet
  cases hx with
  | connect => exact ⟨hsaid, fun _ => hquiet nofun, nofun⟩
  | refused => exact consistent_silent hsaid.said 1
  | sendSize => exact consistent_sendSize hsaid (hquiet nofun) _
  | malloc hsent => exact ⟨⟨hsaid, _, _, hsent, rfl⟩, fun _ => hquiet nofun, nofun⟩
  | undefined => exact ⟨hsaid, fun _ => hquiet nofun, nofun⟩
  | sendMessage => exact consistent_sendMessage hsaid (hquiet nofun) _
  | @recv n C hn =>
    refine ⟨hsaid, fun hne => absurd rfl (hne _), ?_⟩
    rintro _ _ ⟨⟩ ⟨⟩
    refine ⟨C, ?_⟩
    rw [Fifo.arrived_recv, hquiet nofun, List.nil_append]
  | @recvFails closed errno C =>
    refine ⟨hsaid, fun hne => absurd rfl (hne _), ?_⟩
    rintro _ _ ⟨⟩ hprinted
    refine ⟨C, ?_⟩
    rw [hquiet nofun]
    rw [receiveCount] at hprinted
    cases hclass : classify errno <;> rw [hclass] at hprinted <;> cases hprinted
    rfl

/-! ## What the server counts -/

/-- The string `m` is one that the server may find for a client of which it has taken the bytes `l`:
the first ones overwrite an old length, and the next ones are at most as many as the new length. The
string is these next ones up to their first zero byte. Only where they fill the buffer without one it
goes on behind the buffer, with bytes that the client has not sent. -/
def CountedFrom (l m : List Byte) : Prop :=
  ∃ header message stale beyond, l = header ++ message ∧ header.length ≤ 4 ∧
    message.length ≤ (load .big (received header stale)).toNat ∧
    m = cString (message ++
      if message.length < (load .big (received header stale)).toNat then [] else beyond)

namespace Service
variable {ι : Type} [DecidableEq ι] {host : Host} {order : ι → ByteOrder} {file : ι → List Byte}
  {c : Service ι}

theorem reads_service : Reads (service host order file)
    (fun _ l N_host => l.length ≤ 4 ∧ ∃ stale, N_host = load .big (Pcc.received l stale))
    (fun _ => CountedFrom) where
  recvLength c i res stale c' _ _ _ _ _ hlen := ⟨hlen, stale, rfl⟩
  recvMessage c i res beyond c' N_host _ _ _ _ hlength hlen := by
    obtain ⟨hlength, stale, rfl⟩ := hlength
    exact ⟨_, _, stale, beyond, rfl, hlength, hlen, Delivery.messageFromHome_eq hlen beyond⟩

/-- The clients `is` have been counted, each with its string. -/
structure Accounted (host : Host) (order : ι → ByteOrder) (file : ι → List Byte) (c : Service ι)
    (is : List ι) (string : ι → List Byte) : Prop where
  nodup : is.Nodup
  total : ∀ k, c.server.totals.pccTotal k =
    BitVec.ofNat 32 (is.map fun i => (string i).count (charAt k)).sum
  counted : ∀ i ∈ is, CountedFrom (c.peers i).toServer.arrived (string i)
  said : ∀ i, Said (order i) (file i) (c.peers i).toServer.sent
  told : ∀ i, (c.peers i).toClient.sent ≠ [] →
    (i ∈ is ∨ c.session = some i ∧ c.server.pc.Committing) ∧
      ∃ n, (c.peers i).toClient.sent = (replyTo host (string i)).take n
  printed : ∀ i outcome C, (c.peers i).pc = .exited outcome → outcome.printed = some C →
    (c.peers i).toClient.arrived.length = 4 →
    C = load (order i) (store host.order (BitVec.ofNat 32 (printables (string i)))) ∧
      (order i = host.order → C = BitVec.ofNat 32 (printables (string i)))

/-- Four bytes of an answer are the answer. -/
theorem arrived_eq_replyTo {x : Peer} {m : List Byte} {n : ℕ}
    (hsent : x.toClient.sent = (replyTo host m).take n) (hlen : x.toClient.arrived.length = 4) :
    x.toClient.arrived = replyTo host m := by
  have hbegin : x.toClient.arrived <+: replyTo host m :=
    (hsent ▸ x.toClient.arrived_prefix).trans (List.take_prefix ..)
  exact hbegin.eq_of_length (by rw [hlen, replyTo, List.length_ofFn])

theorem sent_ne_nil {x : Peer} (hlen : x.toClient.arrived.length = 4) : x.toClient.sent ≠ [] := by
  intro hnil
  have hbegin := x.toClient.arrived_prefix
  rw [hnil, List.prefix_nil] at hbegin
  rw [hbegin] at hlen
  cases hlen

/-- The totals are sums over different clients, of strings that start with what each of them has sent,
and each client that has an answer is one of these clients and is told the count of its own string,
in the server's order of bytes. -/
theorem every_client_accounted (h : (service host order file).Reachable c) :
    ∃ is string, c.Accounted host order file is string := by
  obtain ⟨is, string, horderly⟩ := runs_service.orderly reads_service h
  have hclients : ∀ i, (c.peers i).Consistent (order i) (file i) := by
    refine runs_service.peers (fun _ => Peer.consistent_start) (fun _ _ _ _ _ hmove hi => hi.move hmove)
      (fun i x _ hi => ⟨hi.said, hi.quiet, hi.printed⟩) (fun i x n hi => ?_)
      (fun i x l hi => ⟨hi.said, hi.quiet, hi.printed⟩) h
    exact ⟨by rw [Fifo.sent_recv]; exact hi.said, hi.quiet, hi.printed⟩
  refine ⟨is, string, horderly.nodup, fun k => ?_, horderly.read, fun i => (hclients i).said.said,
    horderly.told, fun i outcome C hpc hC hlen => ?_⟩
  · rw [(ledger_reachable (runs_service.server h)).total, horderly.total]
  · obtain ⟨stale, rfl⟩ := (hclients i).printed outcome C hpc hC
    obtain ⟨_, n, hsent⟩ := horderly.told i (sent_ne_nil hlen)
    rw [arrived_eq_replyTo hsent hlen, replyTo, received_ofFn]
    refine ⟨rfl, fun horder => ?_⟩
    rw [horder, load_store]

/-- A client with a file of `n` ordinary bytes that goes through, until it waits for its answer. -/
def sampleRequest (i : ι) (n : ℕ) : List (Act ι) :=
  [.client i (.connect true), .client i (.send (.ok 4)), .client i (.malloc (some [7#8])),
    .client i (.send (.ok n))]

/-- The turn of the server with it. -/
def sampleTurn (i : ι) (n : ℕ) : List (Act ι) :=
  [.tau, .tau, .accept i 4, .tau, .tau, .tau, .tau, .recvLength (.ok 4) fun _ => 0#8, .malloc true,
    .recvMessage (.ok n) [], .tau, .send (.ok 4), .tau, .tau, .tau]

def sampleFile : Fin 2 → List Byte := ![[65#8, 66#8], [67#8, 126#8, 1#8]]

/-- Two requests of which the second one is served, while its client waits for the answer. -/
def sampleRun : List (Act (Fin 2)) :=
  sampleRequest 0 2 ++ sampleRequest 1 3 ++ sampleTurn 1 3

theorem every_client_accounted_sample : ∃ c : Service (Fin 2),
    (service sampleHost (fun _ => .big) sampleFile).Reachable c ∧
      c.server.committed = [([67#8, 126#8, 1#8], 2#32)] ∧
      ∃ is string, c.Accounted sampleHost (fun _ => .big) sampleFile is string := by
  have hrun : (Machine.perform (step sampleHost (fun _ => .big) sampleFile) .start sampleRun).map
      (fun c => c.server.committed) = some [([67#8, 126#8, 1#8], 2#32)] := by
    decide +kernel
  obtain ⟨c, hc, hcommitted⟩ := Option.map_eq_some_iff.mp hrun
  have hreach := (Machine.run_ofFun.mpr hc).reachable
  exact ⟨c, hreach, hcommitted, every_client_accounted hreach⟩

end Service
end OsCourse.Pcc
