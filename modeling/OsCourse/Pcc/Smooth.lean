import OsCourse.Pcc.Answers
import OsCourse.Pcc.ReadLoop

/-! # When nothing fails

The runs in which no call fails, every call moves all of its bytes, and the byte behind a buffer of the
server is a zero byte. `SIGINT` may come at any time, and makes `accept` fail. A client stores a byte
behind the block that it has asked for, so its block must be larger than that. Where the files are ones
that a client can send and the hosts agree on the order of bytes, every client gets the count of its
file.
-/

namespace OsCourse.Pcc
open Foundations

variable {ι : Type}

/-- How many bytes the client passes to its next `send`. -/
def Peer.sending (x : Peer) : ℕ :=
  match x.pc with
  | .sendMessage message => message.length
  | _ => 4

/-- The call of a client moves all the bytes that it is about, and `malloc` has reserved more than it was
asked for. -/
def Peer.Smooth (x : Peer) : ClientIo → Prop
  | .connect _ => True
  | .send res => res = .ok x.sending
  | .malloc block => ∃ reserved ∈ block, reserved ≠ []
  | .recv res _ => res = .ok 4 ∧ 4 ≤ x.toClient.pending.length

instance (x : Peer) : DecidablePred x.Smooth
  | .connect _ => inferInstanceAs (Decidable True)
  | .send _ => inferInstanceAs (Decidable (_ = _))
  | .malloc block => inferInstanceAs (Decidable (∃ reserved ∈ block, reserved ≠ []))
  | .recv _ _ => inferInstanceAs (Decidable (_ ∧ _))

namespace Service

/-- How many bytes the server asks for in its next `recv`. -/
def requested (c : Service ι) : ℕ :=
  match c.server.pc with
  | .recvMessage N_host => N_host.toNat
  | _ => 4

/-- The bytes that the server asks for have come. A `recv` of no bytes waits for one all the same. -/
def Complete (c : Service ι) (res : Except ℤ ℕ) : Prop :=
  res = .ok c.requested ∧ ∃ i ∈ c.session, max 1 c.requested ≤ (c.peers i).toServer.pending.length

def Smooth (c : Service ι) : Act ι → Prop
  | .sigint | .accept _ _ | .tau => True
  | .acceptFails _ => c.server.sigint = true
  | .malloc ok => ok = true
  | .recvLength res _ => c.Complete res
  | .recvMessage res beyond => c.Complete res ∧ beyond = []
  | .send res => res = .ok 4
  | .client i o => (c.peers i).Smooth o

instance (c : Service ι) (res : Except ℤ ℕ) : Decidable (c.Complete res) :=
  inferInstanceAs (Decidable (_ ∧ ∃ i ∈ _, _))

instance (c : Service ι) : DecidablePred c.Smooth
  | .sigint | .accept _ _ | .tau => inferInstanceAs (Decidable True)
  | .acceptFails _ | .malloc _ => inferInstanceAs (Decidable (_ = true))
  | .recvLength _ _ => inferInstanceAs (Decidable (Complete ..))
  | .recvMessage _ _ => inferInstanceAs (Decidable (_ ∧ _))
  | .send _ => inferInstanceAs (Decidable (_ = _))
  | .client i o => inferInstanceAs (Decidable ((c.peers i).Smooth o))

end Service

/-- The smooth runs of the service. -/
def smoothService [DecidableEq ι] (host : Host) (order : ι → ByteOrder) (file : ι → List Byte) :
    Machine (Service ι) (Act ι) := (service host order file).guarded fun c a _ => c.Smooth a

/-- A file that a client sends as it is. -/
structure Sendable (file : List Byte) : Prop where
  ordinary : ∀ c ∈ file, Ordinary c
  length : file.length < 2 ^ 31

/-! ## A client -/

/-- What a client sends in all. -/
def request (o : ByteOrder) (file : List Byte) : List Byte :=
  lengthHeader o (BitVec.ofNat 32 file.length) ++ file

/-- What is known of a client that no call has failed. -/
def FluentAt (o : ByteOrder) (file : List Byte) (x : Peer) : ClientPc → Prop
  | .connect => x.link = .apart ∧ x.toServer.sent = []
  | .sendSize => x.toServer.sent = []
  | .malloc => x.toServer.sent = lengthHeader o (BitVec.ofNat 32 file.length)
  | .sendMessage message =>
    message = file ∧ x.toServer.sent = lengthHeader o (BitVec.ofNat 32 file.length)
  | .recv closed => closed = false ∧ x.toServer.sent = request o file
  | .exited outcome => x.link = .apart ∧ x.toServer.sent = [] ∧ outcome = ⟨none, 1⟩ ∨
    x.toServer.sent = request o file ∧
      ∃ C, x.toClient.arrived = List.ofFn C ∧ outcome = ⟨some (load o C), 0⟩
  | .undefined _ => False

structure Peer.Fluent (o : ByteOrder) (file : List Byte) (x : Peer) : Prop where
  here : FluentAt o file x x.pc
  quiet : (∀ outcome, x.pc ≠ .exited outcome) → x.toClient.arrived = []

variable {o : ByteOrder} {file : List Byte}

theorem length_lengthHeader (o : ByteOrder) (size : BitVec 32) : (lengthHeader o size).length = 4 := by
  rw [lengthHeader, List.length_ofFn]

theorem FluentAt.sent_prefix {x : Peer} {pc : ClientPc} (h : FluentAt o file x pc) :
    x.toServer.sent <+: request o file := by
  have hheader : lengthHeader o (BitVec.ofNat 32 file.length) <+: request o file :=
    List.prefix_append ..
  cases pc with
  | connect => rw [h.2]; exact List.nil_prefix
  | sendSize => rw [show x.toServer.sent = [] from h]; exact List.nil_prefix
  | malloc => rw [show x.toServer.sent = _ from h]; exact hheader
  | sendMessage => rw [h.2]; exact hheader
  | recv => rw [h.2]
  | exited =>
    rcases h with ⟨_, hsent, _⟩ | ⟨hsent, _⟩ <;> rw [hsent]
    exact List.nil_prefix
  | undefined => exact absurd h id

theorem FluentAt.congr {x y : Peer} {pc : ClientPc} (h : FluentAt o file x pc)
    (hsent : y.toServer.sent = x.toServer.sent) (harrived : y.toClient.arrived = x.toClient.arrived)
    (hlink : x.link = .apart → y.link = .apart) : FluentAt o file y pc := by
  cases pc with
  | connect => exact ⟨hlink h.1, hsent.trans h.2⟩
  | sendSize | malloc => exact hsent.trans h
  | sendMessage | recv => exact ⟨h.1, hsent.trans h.2⟩
  | exited =>
    refine h.imp (fun h => ⟨hlink h.1, hsent.trans h.2.1, h.2.2⟩) fun h => ⟨hsent.trans h.1, ?_⟩
    rw [harrived]
    exact h.2
  | undefined => exact h

theorem Peer.fluent_start : Peer.start.Fluent o file := ⟨⟨rfl, rfl⟩, fun _ => rfl⟩

theorem ofFn_received {bytes : List Byte} (h : bytes.length = 4) (stale : Word) :
    List.ofFn (received bytes stale) = bytes := by
  match bytes, h with
  | [_, _, _, _], _ => rfl

theorem client_of_sendable (hfile : Sendable file) {block : Option (List Byte)}
    (hblock : ∃ reserved, block = some reserved ∧ reserved ≠ []) :
    ∃ sent, client o file block = .ok sent ∧ sent.message = file := by
  obtain ⟨reserved, rfl, hne⟩ := hblock
  have hlength := hfile.length
  obtain ⟨sent, hsent, hmessage, _⟩ :=
    sendsFile_of_ordinary (o := o) (by omega) hfile.ordinary hne
  exact ⟨sent, hsent, hmessage⟩

theorem Peer.Fluent.move {x x' : Peer} {io : ClientIo} (h : x.Fluent o file) (hfile : Sendable file)
    (hsmooth : x.Smooth io) (hx : x.Move o file x.pc io x') : x'.Fluent o file := by
  have hhere := h.here
  have hquiet := h.quiet
  generalize hpc : x.pc = pc at hx hhere hquiet
  cases hx with
  | connect => exact ⟨hhere.2, fun _ => hquiet nofun⟩
  | refused => exact ⟨Or.inl ⟨hhere.1, hhere.2, rfl⟩, fun hne => absurd rfl (hne _)⟩
  | @sendSize res =>
    rw [Peer.Smooth, Peer.sending, hpc] at hsmooth
    obtain rfl := hsmooth
    refine ⟨?_, fun _ => hquiet nofun⟩
    change (x.toServer.send _).sent = _
    rw [Fifo.sent_send, show x.toServer.sent = [] from hhere, List.nil_append,
      List.take_of_length_le (length_lengthHeader ..).le]
  | malloc hsent =>
    obtain ⟨sent, hsent', hmessage⟩ := client_of_sendable (o := o) hfile hsmooth
    obtain rfl := Except.ok.inj (hsent'.symm.trans hsent)
    exact ⟨⟨hmessage, hhere⟩, fun _ => hquiet nofun⟩
  | undefined hu =>
    obtain ⟨sent, hsent, _⟩ := client_of_sendable (o := o) hfile hsmooth
    rw [hsent] at hu
    cases hu
  | @sendMessage message res =>
    rw [Peer.Smooth, Peer.sending, hpc] at hsmooth
    obtain rfl := hsmooth
    obtain ⟨rfl, hsent⟩ := hhere
    refine ⟨⟨rfl, ?_⟩, fun _ => hquiet nofun⟩
    change (x.toServer.send _).sent = _
    rw [Fifo.sent_send, hsent, List.take_length, request]
  | @recv n C hn =>
    obtain ⟨hres, hpending⟩ := hsmooth
    obtain rfl := Except.ok.inj hres
    have hlen : (x.toClient.pending.take 4).length = 4 := by
      rw [List.length_take]
      omega
    refine ⟨Or.inr ⟨hhere.2, received (x.toClient.pending.take 4) C, ?_, rfl⟩,
      fun hne => absurd rfl (hne _)⟩
    rw [Fifo.arrived_recv, hquiet nofun, List.nil_append, ofFn_received hlen]
  | recvFails => cases hsmooth.1

/-! ## The server -/

/-- What a smooth run keeps away from: a failed `accept` without a signal, and errors. -/
def SafeAt (sigint : Bool) : Pc → Prop
  | .mask connected_socket | .check connected_socket => 0 ≤ connected_socket ∨ sigint = true
  | .enter connected_socket | .testSocket connected_socket => 0 ≤ connected_socket
  | .leave ending | .unmask ending => ending = .committed
  | .returned code | .exited code => code = 0 ∧ sigint = true
  | .undo | .undefined _ | .crashed | .killed => False
  | _ => True

/-- The client of the session waits for its answer. -/
def Pc.Unanswered : Pc → Prop
  | .mask _ | .check _ | .enter _ | .testSocket _ | .recvLength | .malloc _ | .recvMessage _
  | .count _ | .send _ _ => True
  | _ => False

structure Calm (v : ι → Seen) (session : Option ι) (s : Server) : Prop where
  safe : SafeAt s.sigint s.pc
  answered : ∀ i, (v i).accepted = true →
    s.sigint = true ∨ (v i).replied.length = 4 ∨ session = some i ∧ s.pc.Unanswered

section
variable {host : Host} {v : ι → Seen} {session : Option ι} {s t : Server}

theorem arriveSigint_sigint (h : s.sigint = true) : (arriveSigint s).sigint = true := by
  unfold arriveSigint SignalMask.arrive
  cases s.signal.blocked
  · simp [sigintHandler, h]
  · exact h

theorem unmaskSigint_sigint (h : s.sigint = true) (ending : Ending) :
    (unmaskSigint s ending).sigint = true := by
  unfold unmaskSigint SignalMask.unblock
  cases s.signal.pending
  · exact h
  · simp [sigintHandler, h]

theorem SafeAt.mono {a b : Bool} {pc : Pc} (h : SafeAt a pc) (hab : a = true → b = true) :
    SafeAt b pc := by
  cases pc with
  | mask | check => exact h.imp_right hab
  | returned | exited => exact h.imp_right hab
  | _ => exact h

theorem Calm.move (h : Calm v session s) (hsig : s.sigint = true → t.sigint = true)
    (hsafe : SafeAt t.sigint t.pc) (hpc : s.pc.Unanswered → t.sigint = true ∨ t.pc.Unanswered) :
    Calm v session t := by
  refine ⟨hsafe, fun i hi => ?_⟩
  rcases h.answered i hi with hi | hi | ⟨hsession, hi⟩
  · exact Or.inl (hsig hi)
  · exact Or.inr (Or.inl hi)
  · exact (hpc hi).imp_right fun hi => Or.inr ⟨hsession, hi⟩

theorem Calm.sigint (h : Calm v session s) (hs : step host s .sigint = some t) :
    Calm v session t := by
  obtain ⟨_, ⟨⟩⟩ := Option.ite_none_right_eq_some.mp hs
  have hpc := (arriveSigint_ledger s).1
  refine h.move arriveSigint_sigint ?_ ?_
  · rw [hpc]
    exact h.safe.mono arriveSigint_sigint
  · rw [hpc]
    exact Or.inr

/-- The steps of the server on its own, if it can count the string. -/
theorem Calm.tau (h : Calm v session s) (hcount : ∀ m, s.pc = .count m → m.length < 2 ^ 31)
    (hs : step host s (.io .tau) = some t) : Calm v session t := by
  have hsafe := h.safe
  have hmove := h.move (t := t)
  rw [step] at hs
  generalize s.pc = pc at hs hsafe hmove hcount
  cases turn_move hs with
  | test =>
    have hpc : SafeAt s.sigint (if s.sigint then .returned 0 else .clear) := by
      cases s.sigint with
      | true => exact ⟨rfl, rfl⟩
      | false => trivial
    exact hmove id hpc False.elim
  | clear => exact hmove id trivial False.elim
  | mask => exact hmove id hsafe fun _ => Or.inr trivial
  | @check connected_socket =>
    have hpc : SafeAt s.sigint (if s.sigint then .returned 0 else .enter connected_socket) ∧
        (s.sigint = true ∨
          (if s.sigint then Pc.returned 0 else .enter connected_socket).Unanswered) := by
      cases hsig : s.sigint with
      | true => exact ⟨⟨rfl, rfl⟩, Or.inl rfl⟩
      | false => exact ⟨hsafe.resolve_right (by simp [hsig]), Or.inr trivial⟩
    exact hmove id hpc.1 fun _ => hpc.2
  | enter => exact hmove id hsafe fun _ => Or.inr trivial
  | @testSocket connected_socket =>
    rw [if_neg (not_lt.mpr hsafe)] at hmove ⊢
    exact hmove id trivial fun _ => Or.inr trivial
  | @count m =>
    rw [countMessage, countChars_eq _ _ (hcount m rfl)] at hmove ⊢
    exact hmove id trivial fun _ => Or.inr trivial
  | undo => exact absurd hsafe id
  | commit => exact hmove id rfl False.elim
  | leave => exact hmove id hsafe False.elim
  | @unmask ending =>
    obtain rfl := hsafe
    have hpc := (unmaskSigint_ledger s .committed).1
    refine hmove (fun hsig => unmaskSigint_sigint hsig _) ?_ False.elim
    rw [hpc]
    trivial
  | print => exact hmove id hsafe False.elim
  | abort hcode => exact absurd hsafe.1 hcode

theorem Calm.malloc (h : Calm v session s)
    (hsize : ∀ N_network, s.pc = .malloc N_network → (ntohl host.order N_network).toNat < 2 ^ 31)
    (hs : step host s (.io (.malloc true)) = some t) : Calm v session t := by
  have hmove := h.move (t := t)
  rw [step] at hs
  generalize s.pc = pc at hs hmove hsize
  cases turn_move hs with
  | malloc =>
    rw [Delivery.afterMalloc_true, if_pos (hsize _ rfl)] at hmove ⊢
    exact hmove id trivial fun _ => Or.inr trivial

theorem onError_sigint (s : Server) (errno : ℤ) (dropped flow : Pc) :
    (onError s errno dropped flow).sigint = s.sigint := by
  obtain ⟨pc, heq, _⟩ := onError_eq s errno dropped flow
  rw [heq]
  rfl

theorem io_sigint {o : Io} (hs : step host s (.io o) = some t) (h : s.sigint = true) :
    t.sigint = true := by
  rw [step] at hs
  generalize s.pc = pc at hs
  cases turn_move hs with
  | @recvLength res _ _ hs =>
    cases res with
    | ok bytes =>
      obtain ⟨_, ⟨⟩⟩ := Option.ite_none_right_eq_some.mp hs
      exact h
    | error errno =>
      cases hs
      exact (onError_sigint ..).trans h
  | malloc =>
    unfold afterMalloc
    dsimp only
    split_ifs <;> exact h
  | @recvMessage _ res _ _ hs =>
    cases res with
    | ok bytes =>
      obtain ⟨_, ⟨⟩⟩ := Option.ite_none_right_eq_some.mp hs
      exact h
    | error errno =>
      cases hs
      exact (onError_sigint ..).trans h
  | count =>
    unfold countMessage
    split <;> exact h
  | @send m chars_count res =>
    cases res with
    | ok n => exact h
    | error errno =>
      obtain ⟨pc, heq, _⟩ := afterSend_error s m chars_count errno host
      rw [heq]
      exact h
  | unmask => exact unmaskSigint_sigint h _
  | _ => exact h

variable [DecidableEq ι] {i : ι} {x : Seen}

/-- What is known of one client changes, while no other one waits for its answer. -/
theorem Calm.set (h : Calm v session s) (hsig : s.sigint = true → t.sigint = true)
    (hsafe : SafeAt t.sigint t.pc) {session' : Option ι}
    (hother : ∀ j ≠ i, session = some j → ¬ s.pc.Unanswered)
    (hx : x.replied.length = 4 ∨ session' = some i ∧ t.pc.Unanswered) :
    Calm (Function.update v i x) session' t := by
  refine ⟨hsafe, fun j hj => ?_⟩
  by_cases hji : j = i
  · subst hji
    rw [Function.update_self]
    exact Or.inr hx
  · rw [Function.update_of_ne hji] at hj ⊢
    rcases h.answered j hj with hj | hj | ⟨hsession, hj⟩
    · exact Or.inl (hsig hj)
    · exact Or.inr (Or.inl hj)
    · exact absurd hj (hother j hji hsession)

/-- What is known of the client of the session changes. -/
theorem Calm.advance (h : Calm v session s) (hi : session = some i)
    (hsig : s.sigint = true → t.sigint = true) (hsafe : SafeAt t.sigint t.pc)
    (hx : x.replied.length = 4 ∨ t.pc.Unanswered) : Calm (Function.update v i x) session t := by
  refine h.set hsig hsafe (fun j hj hsession => ?_) (hx.imp_right fun hpc => ⟨hi, hpc⟩)
  exact absurd (Option.some.inj (hsession.symm.trans hi)) hj

end

/-! ## The service -/

namespace Service
variable [DecidableEq ι] {host : Host} {order : ι → ByteOrder} {file : ι → List Byte} {c : Service ι}

theorem runs_smoothService : Runs host order file (smoothService host order file) :=
  ⟨fun _ h => h, fun _ _ _ h => step_move h.1⟩

theorem fluent_reachable (hfile : ∀ i, Sendable (file i))
    (h : (smoothService host order file).Reachable c) :
    ∀ i, (c.peers i).Fluent (order i) (file i) := by
  refine runs_smoothService.peers (P := fun i x => x.Fluent (order i) (file i))
    (fun _ => Peer.fluent_start) (fun c i o x hs hmove hi => hi.move (hfile i) hs.2 hmove)
    (fun i x hlink hi => ⟨hi.here.congr rfl rfl fun hx => ?_, hi.quiet⟩)
    (fun i x n hi => ⟨hi.here.congr (Fifo.sent_recv ..) rfl id, hi.quiet⟩)
    (fun i x l hi => ⟨hi.here, hi.quiet⟩) h
  rw [hlink] at hx
  cases hx

theorem take_eq_take_of_le {l r : List Byte} {n : ℕ} (h : l <+: r) (hn : n ≤ l.length) :
    l.take n = r.take n := by
  obtain ⟨t, rfl⟩ := h
  exact (List.take_append_of_le_length hn).symm

theorem messageFromHome_sendable {file : List Byte} (hfile : Sendable file) :
    messageFromHome (BitVec.ofNat 32 file.length) file [] = file := by
  have hlength := hfile.length
  have hN : file.length = (BitVec.ofNat 32 file.length).toNat := by
    rw [BitVec.toNat_ofNat, Nat.mod_eq_of_lt (by omega)]
  rw [messageFromHome_whole hN, List.append_nil, cString_whole fun h => (hfile.ordinary _ h).1 rfl]

/-- What the server takes in a smooth run: a whole header, and the whole file behind it. -/
theorem reads_smoothService (hfile : ∀ i, Sendable (file i)) :
    Reads (smoothService host order file)
      (fun i l N_host => l = lengthHeader (order i) (BitVec.ofNat 32 (file i).length) ∧
        N_host = BitVec.ofNat 32 (file i).length)
      (fun i l m => l = request (order i) (file i) ∧ m = file i) where
  recvLength c i res stale c' hc hs hi hpc harrived _ := by
    obtain ⟨_, rfl, i', hi', hpending⟩ := hs
    obtain rfl := Option.some.inj (hi.symm.trans hi')
    replace hpending := (le_max_right ..).trans hpending
    rw [show c.requested = 4 by rw [requested, hpc]] at hpending ⊢
    have hbegin := (fluent_reachable hfile hc i).here.sent_prefix
    rw [Fifo.sent, harrived, List.nil_append] at hbegin
    have hheader : (c.peers i).toServer.pending.take 4 =
        lengthHeader (order i) (BitVec.ofNat 32 (file i).length) := by
      rw [take_eq_take_of_le hbegin hpending, request, List.take_left' (length_lengthHeader ..)]
    refine ⟨hheader, ?_⟩
    change load .big (Pcc.received ((c.peers i).toServer.pending.take 4) stale) = _
    rw [hheader, lengthHeader, received_ofFn, htonl_header]
  recvMessage c i res beyond c' N_host hc hs hi hpc hlength _ := by
    obtain ⟨_, ⟨rfl, i', hi', hpending⟩, rfl⟩ := hs
    obtain rfl := Option.some.inj (hi.symm.trans hi')
    replace hpending := (le_max_right ..).trans hpending
    rw [show c.requested = N_host.toNat by rw [requested, hpc]] at hpending ⊢
    obtain ⟨harrived, rfl⟩ := hlength
    have hlength := (hfile i).length
    have hbegin := (fluent_reachable hfile hc i).here.sent_prefix
    rw [Fifo.sent, harrived, request, List.prefix_append_right_inj] at hbegin
    have hmessage : (c.peers i).toServer.pending.take (BitVec.ofNat 32 (file i).length).toNat =
        file i := by
      rw [take_eq_take_of_le hbegin hpending, BitVec.toNat_ofNat, Nat.mod_eq_of_lt (by omega),
        List.take_length]
    change _ ++ (c.peers i).toServer.pending.take _ = _ ∧
      messageFromHome _ ((c.peers i).toServer.pending.take _) [] = _
    rw [hmessage, harrived, messageFromHome_sendable (hfile i)]
    exact ⟨rfl, rfl⟩

theorem calm_reachable (hfile : ∀ i, Sendable (file i))
    (h : (smoothService host order file).Reachable c) :
    Calm (fun i => (c.peers i).seen) c.session c.server := by
  obtain ⟨as, h⟩ := h
  refine h.history_invariant
    (I := fun _ c => Calm (fun i => (c.peers i).seen) c.session c.server) (fun c hc => ?_)
    fun as c a c' hrun hi hs => ?_
  · rw [runs_smoothService.init c hc]
    exact ⟨trivial, nofun⟩
  obtain ⟨is, string, horderly⟩ :=
    runs_smoothService.orderly (reads_smoothService hfile) hrun.reachable
  cases runs_smoothService.step c a c' hs with
  | sigint h => exact hi.sigint h
  | tau h =>
    refine hi.tau (fun m hpc => ?_) h
    rw [hpc] at horderly
    obtain ⟨i, _, ⟨_, rfl⟩, _⟩ := horderly.exists_here trivial
    exact (hfile i).length
  | malloc h =>
    obtain rfl := hs.2
    refine hi.malloc (fun N_network hpc => ?_) h
    rw [hpc] at horderly
    obtain ⟨i, _, ⟨_, hN⟩, _⟩ := horderly.exists_here trivial
    have hlength := (hfile i).length
    rw [hN, BitVec.toNat_ofNat, Nat.mod_eq_of_lt (by omega)]
    exact hlength
  | accept hsocket hlink h =>
    obtain ⟨hpc, hpc', _⟩ := accept_leads h
    rw [setPeer, seen_update]
    refine hi.set (io_sigint h) ?_ (fun _ _ _ => ?_) (Or.inr ⟨rfl, ?_⟩)
    · rw [hpc']
      exact Or.inl hsocket
    · rw [hpc]
      exact id
    · rw [hpc']
      trivial
  | acceptFails hsocket h =>
    have hsig := io_sigint h hs.2
    refine ⟨?_, fun _ _ => Or.inl hsig⟩
    rw [(accept_leads h).2.1]
    exact Or.inr hsig
  | recvLength hsession h =>
    obtain ⟨_, rfl, _⟩ := hs
    obtain ⟨_, _, ⟨hpc', _⟩ | ⟨_, _, herror, _⟩⟩ := recvLength_leads h
    · rw [setPeer, seen_update, seen_handedOver]
      exact hi.advance hsession (io_sigint h) (by rw [hpc']; trivial)
        (Or.inr (by rw [hpc']; trivial))
    · cases herror
  | recvMessage hsession h =>
    obtain ⟨_, ⟨rfl, _⟩, _⟩ := hs
    obtain ⟨_, _, _, ⟨hpc', _⟩ | ⟨_, _, herror, _⟩⟩ := recvMessage_leads h
    · rw [setPeer, seen_update, seen_handedOver]
      exact hi.advance hsession (io_sigint h) (by rw [hpc']; trivial)
        (Or.inr (by rw [hpc']; trivial))
    · cases herror
  | send hsession h =>
    obtain rfl := hs.2
    obtain ⟨_, _, hpc, _, ⟨hpc', n, hreplied, hn⟩ | ⟨_, herror, _⟩⟩ := send_leads h
    · obtain rfl := hn 4 rfl
      rw [hpc] at horderly
      have hnone := (horderly.here _ hsession).2.1
      rw [setPeer, seen_update, seen_told]
      refine hi.advance hsession (io_sigint h) (by rw [hpc']; trivial) (Or.inl ?_)
      rw [Seen.reply, hnone, hreplied, List.nil_append, List.length_take, List.length_ofFn]
      rfl
    · cases herror
  | client h =>
    rw [setPeer, seen_update, (Peer.turn_move h).seen
      (runs_smoothService.unconnected hrun.reachable _), Function.update_eq_self]
    exact hi

/-- What is known of the clients in a smooth run. -/
abbrev SmoothlyOrderly (host : Host) (order : ι → ByteOrder) (file : ι → List Byte) (c : Service ι)
    (is : List ι) (string : ι → List Byte) : Prop :=
  Orderly host (fun i l N_host => l = lengthHeader (order i) (BitVec.ofNat 32 (file i).length) ∧
      N_host = BitVec.ofNat 32 (file i).length)
    (fun i l m => l = request (order i) (file i) ∧ m = file i) c.session
    (fun i => (c.peers i).seen) c.server.pc c.server.committed is string

theorem smoothlyOrderly_total {is : List ι} {string : ι → List Byte}
    (horderly : SmoothlyOrderly host order file c is string)
    (h : (smoothService host order file).Reachable c) (k : Fin NUM_OF_CHARACTERS) :
    c.server.totals.pccTotal k =
      BitVec.ofNat 32 (is.map fun i => (file i).count (charAt k)).sum := by
  rw [(ledger_reachable (runs_smoothService.server h)).total, horderly.total]
  refine congrArg (fun l => BitVec.ofNat 32 (List.sum l)) (List.map_congr_left fun i hi => ?_)
  rw [(horderly.read i hi).2]

/-- A client that has ended has been refused, or has been told the count of its file. -/
theorem exited_cases (horder : ∀ i, order i = host.order) (hfile : ∀ i, Sendable (file i))
    (h : (smoothService host order file).Reachable c) {is : List ι} {string : ι → List Byte}
    (horderly : SmoothlyOrderly host order file c is string) {i : ι} {outcome : Outcome}
    (hpc : (c.peers i).pc = .exited outcome) :
    (c.peers i).link = .apart ∧ outcome = ⟨none, 1⟩ ∨
      outcome = ⟨some (BitVec.ofNat 32 (printables (file i))), 0⟩ ∧
        (i ∈ is ∨ c.session = some i ∧ c.server.pc.Committing) := by
  have hhere := (fluent_reachable hfile h i).here
  rw [hpc] at hhere
  obtain ⟨hapart, _, rfl⟩ | ⟨_, C, harrived, rfl⟩ := hhere
  · exact Or.inl ⟨hapart, rfl⟩
  have hlen : (c.peers i).toClient.arrived.length = 4 := by rw [harrived, List.length_ofFn]
  obtain ⟨hcounted, n, hsent⟩ := horderly.told i (sent_ne_nil hlen)
  have hstring : string i = file i := by
    rcases hcounted with hi | ⟨hi, hcommitting⟩
    · exact (horderly.read i hi).2
    · have hcommit := horderly.here i hi
      cases hpc : c.server.pc with
      | commit m chars_count =>
        rw [hpc] at hcommit
        exact hcommit.2.trans hcommit.1.2
      | _ => rw [hpc] at hcommitting; cases hcommitting
  have hC := arrived_eq_replyTo hsent hlen
  rw [harrived, replyTo, hstring] at hC
  rw [List.ofFn_injective hC, horder, load_store]
  exact Or.inr ⟨rfl, hcounted⟩

/-- In a smooth run every client that is answered prints the count of its own file and is counted once,
with that file; nothing else is counted, the server ends with one line for each character, and neither
the server nor a client goes wrong. -/
theorem each_client_gets_its_count (horder : ∀ i, order i = host.order)
    (hfile : ∀ i, Sendable (file i)) (h : (smoothService host order file).Reachable c) :
    ∃ is : List ι, is.Nodup ∧
      (∀ k, c.server.totals.pccTotal k =
        BitVec.ofNat 32 (is.map fun i => (file i).count (charAt k)).sum) ∧
      (∀ i outcome, (c.peers i).pc = .exited outcome →
        (c.peers i).link = .apart ∧ outcome = ⟨none, 1⟩ ∨
          outcome = ⟨some (BitVec.ofNat 32 (printables (file i))), 0⟩ ∧
            (i ∈ is ∨ c.session = some i ∧ c.server.pc.Committing)) ∧
      (c.server.pc = .exited 0 → c.server.printed = some (List.ofFn fun k : Fin 95 =>
        (((charAt k).toNat : ℤ), BitVec.ofNat 32 (is.map fun i => (file i).count (charAt k)).sum))) ∧
      (c.server.printed ≠ none → c.server.pc = .exited 0) ∧
      (c.server.pc.alive = true ∨ c.server.pc = .exited 0) ∧
      ∀ i u, (c.peers i).pc ≠ .undefined u := by
  obtain ⟨is, string, horderly⟩ := runs_smoothService.orderly (reads_smoothService hfile) h
  have hsafe := (calm_reachable hfile h).safe
  have hledger := ledger_reachable (runs_smoothService.server h)
  refine ⟨is, horderly.nodup, smoothlyOrderly_total horderly h,
    fun i outcome => exited_cases horder hfile h horderly, fun hpc => ?_, fun hprinted => ?_, ?_,
    fun i u hpc => ?_⟩
  · rw [hledger.exits hpc, printChars_eq, funext (smoothlyOrderly_total horderly h)]
    rfl
  · obtain ⟨lines, hlines⟩ := Option.ne_none_iff_exists'.mp hprinted
    exact hledger.printed lines hlines
  · cases hpc : c.server.pc with
    | exited code =>
      rw [hpc] at hsafe
      exact Or.inr (congrArg Pc.exited hsafe.1)
    | undefined | crashed | killed => rw [hpc] at hsafe; cases hsafe
    | _ => exact Or.inl rfl
  · have hhere := (fluent_reachable hfile h i).here
    rw [hpc] at hhere
    exact hhere

theorem sampleFile_sendable : ∀ i, Sendable (sampleFile i) := by
  intro i
  fin_cases i
  · exact ⟨by decide, by decide⟩
  · exact ⟨by decide, by decide⟩

/-- The second of two clients is served, and a signal ends the service before the first one is. -/
theorem each_client_gets_its_count_sample : ∃ c : Service (Fin 2),
    (smoothService sampleHost (fun _ => .little) sampleFile).Reachable c ∧
      c.server.pc = .exited 0 ∧ (c.peers 1).pc = .exited ⟨some 2#32, 0⟩ ∧
      ∃ is : List (Fin 2), is.Nodup ∧ 1 ∈ is ∧ ∀ k, c.server.totals.pccTotal k =
        BitVec.ofNat 32 (is.map fun i => (sampleFile i).count (charAt k)).sum := by
  have hrun : (Machine.perform (fun c a => if c.Smooth a then step sampleHost (fun _ => .little)
      sampleFile c a else none) .start
      (sampleRun ++ [.client 1 (.recv (.ok 4) fun _ => 9#8), .sigint, .tau, .tau])).map
        (fun c => (c.server.pc, (c.peers 1).pc)) = some (.exited 0, .exited ⟨some 2#32, 0⟩) := by
    decide +kernel
  obtain ⟨c, hc, hpcs⟩ := Option.map_eq_some_iff.mp hrun
  obtain ⟨hpc, hpc1⟩ := Prod.mk.inj hpcs
  have hreach : (smoothService sampleHost (fun _ => .little) sampleFile).Reachable c :=
    (Machine.run_guarded_ofFun.mpr hc).reachable
  obtain ⟨is, hnodup, htotal, hends, _⟩ :=
    each_client_gets_its_count (fun _ => rfl) sampleFile_sendable hreach
  refine ⟨c, hreach, hpc, hpc1, is, hnodup, ?_, htotal⟩
  rcases hends 1 _ hpc1 with ⟨_, houtcome⟩ | ⟨_, hi | ⟨_, hcommitting⟩⟩
  · cases houtcome
  · exact hi
  · rw [hpc] at hcommitting
    cases hcommitting

end Service
end OsCourse.Pcc
