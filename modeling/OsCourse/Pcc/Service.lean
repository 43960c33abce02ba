import OsCourse.Foundations.Fifo
import OsCourse.Pcc.Numbers

/-! # The server and its clients

`pcc_server.c` together with any number of processes of `pcc_client.c`, each with a file of its
own, over a network that hands on what is sent in pieces of any lengths and at any time, and
may fail in any call.
-/

namespace OsCourse.Pcc
open Foundations

/-! ## A client -/

def EBADF : ℤ := 9

deriving instance DecidableEq for Outcome

/-- The call of `main` that a client is at. -/
inductive ClientPc where
  | connect
  | sendSize
  | malloc
  | sendMessage (message_from_file : List Byte)
  | recv (closed : Bool)
  | exited (outcome : Outcome)
  | undefined (u : Undefined)
  deriving DecidableEq

inductive Link where
  | apart
  | waiting
  | accepted
  deriving DecidableEq

/-- A client and its connection. -/
structure Peer where
  pc : ClientPc
  link : Link
  toServer : Fifo Byte
  toClient : Fifo Byte

def Peer.start : Peer := ⟨.connect, .apart, .empty, .empty⟩

/-- What the environment answers to a call; `recv` also reveals the old bytes of `C`. -/
inductive ClientIo where
  | connect (ok : Bool)
  | send (res : Except ℤ ℕ)
  | malloc (block : Option (List Byte))
  | recv (res : Except ℤ ℕ) (stale : Word)

/-- A `send` of the client, which goes on with `next` if it does not fail. -/
def Peer.send (x : Peer) (bytes : List Byte) (res : Except ℤ ℕ) (dropped next : ClientPc) : Peer :=
  match res with
  | .ok n => { x with pc := next, toServer := x.toServer.send (bytes.take n) }
  | .error errno =>
    match classify errno with
    | .nonFatal => { x with pc := dropped }
    | .partOfFlow => { x with pc := next }
    | .fatal => { x with pc := .exited ⟨none, 1⟩ }

/-- The `recv` of the client. A socket that it has closed cannot receive. -/
def Peer.recv (o : ByteOrder) (x : Peer) (closed : Bool) (C : Word) : Except ℤ ℕ → Option Peer
  | .ok n =>
    if closed = false ∧ n ≤ 4 then
      some { x with
        pc := .exited (receiveCount o (.ok (x.toClient.pending.take n)) C)
        toClient := x.toClient.recv n }
    else none
  | .error errno =>
    if closed = true → errno = EBADF then
      some { x with pc := .exited (receiveCount o (.error errno) C) }
    else none

/-- One call of a client with `file`. The errors of the second `send` do not end `main`. -/
def Peer.turn (o : ByteOrder) (file : List Byte) (x : Peer) : ClientPc → ClientIo → Option Peer
  | .connect, .connect ok =>
    some (if ok then { x with pc := .sendSize, link := .waiting }
      else { x with pc := .exited ⟨none, 1⟩ })
  | .sendSize, .send res =>
    some (x.send (lengthHeader o (BitVec.ofNat 32 file.length)) res (.exited ⟨none, 0⟩) .malloc)
  | .malloc, .malloc block =>
    match client o file block with
    | .ok sent => some { x with pc := .sendMessage sent.message }
    | .error u => some { x with pc := .undefined u }
  | .sendMessage message, .send res => some (x.send message res (.recv true) (.recv false))
  | .recv closed, .recv res C => x.recv o closed C res
  | _, _ => none

/-! ## The service -/

/-- `session` is the client behind the `connected_socket` of the server. -/
structure Service (ι : Type) where
  server : Server
  session : Option ι
  peers : ι → Peer

inductive Act (ι : Type) where
  | sigint
  | accept (i : ι) (connected_socket : ℤ)
  | acceptFails (connected_socket : ℤ)
  | tau
  | malloc (ok : Bool)
  | recvLength (res : Except ℤ ℕ) (stale : Word)
  | recvMessage (res : Except ℤ ℕ) (beyond : List Byte)
  | send (res : Except ℤ ℕ)
  | client (i : ι) (o : ClientIo)

variable {ι : Type} [DecidableEq ι]

namespace Service

def start : Service ι := ⟨.start, none, fun _ => .start⟩

/-- What a `recv` of the server returns for so many bytes. -/
def received (x : Peer) (res : Except ℤ ℕ) : Received := res.map x.toServer.pending.take

def handedOver (x : Peer) : Except ℤ ℕ → Peer
  | .ok n => { x with toServer := x.toServer.recv n }
  | .error _ => x

def setPeer (c : Service ι) (t : Server) (i : ι) (x : Peer) : Service ι :=
  { c with server := t, peers := Function.update c.peers i x }

variable (host : Host) (order : ι → ByteOrder) (file : ι → List Byte)

/-- A `recv` of the server from the client of its session. -/
def recv (c : Service ι) (res : Except ℤ ℕ) (o : Received → Io) : Option (Service ι) := do
  let i ← c.session
  let t ← Pcc.step host c.server (.io (o (received (c.peers i) res)))
  some (c.setPeer t i (handedOver (c.peers i) res))

/-- The bytes of a reply that have been sent. -/
def replied (t : Server) : List Byte :=
  match t.exchange.reply with
  | some (w, .ok n) => (List.ofFn w).take n
  | _ => []

def told (x : Peer) (t : Server) : Peer := { x with toClient := x.toClient.send (replied t) }

def step (c : Service ι) : Act ι → Option (Service ι)
  | .sigint => (Pcc.step host c.server .sigint).map ({ c with server := · })
  | .accept i connected_socket =>
    let x := c.peers i
    if 0 ≤ connected_socket ∧ x.link = .waiting then
      (Pcc.step host c.server (.io (.accept connected_socket))).map fun t =>
        { c.setPeer t i { x with link := .accepted } with session := some i }
    else none
  | .acceptFails connected_socket =>
    if connected_socket < 0 then
      (Pcc.step host c.server (.io (.accept connected_socket))).map fun t =>
        { c with server := t, session := none }
    else none
  | .tau => (Pcc.step host c.server (.io .tau)).map ({ c with server := · })
  | .malloc ok => (Pcc.step host c.server (.io (.malloc ok))).map ({ c with server := · })
  | .recvLength res stale => c.recv host res fun received => .recvLength received stale
  | .recvMessage res beyond => c.recv host res fun received => .recvMessage received beyond
  | .send res => do
    let i ← c.session
    let t ← Pcc.step host c.server (.io (.send res))
    some (c.setPeer t i (told (c.peers i) t))
  | .client i o =>
    let x := c.peers i
    (x.turn (order i) (file i) x.pc o).map (c.setPeer c.server i)

end Service

/-- The server and its clients, with the byte orders and the files of the clients. -/
def service (host : Host) (order : ι → ByteOrder) (file : ι → List Byte) :
    Machine (Service ι) (Act ι) := .ofFun .start (Service.step host order file)

/-! ## What a client can do -/

/-- The calls of a client at each point of `main`. -/
inductive Peer.Move (o : ByteOrder) (file : List Byte) (x : Peer) : ClientPc → ClientIo → Peer → Prop
  | connect : Move o file x .connect (.connect true) { x with pc := .sendSize, link := .waiting }
  | refused : Move o file x .connect (.connect false) { x with pc := .exited ⟨none, 1⟩ }
  | sendSize {res : Except ℤ ℕ} : Move o file x .sendSize (.send res)
      (x.send (lengthHeader o (BitVec.ofNat 32 file.length)) res (.exited ⟨none, 0⟩) .malloc)
  | malloc {block : Option (List Byte)} {sent : Sent} (h : client o file block = .ok sent) :
      Move o file x .malloc (.malloc block) { x with pc := .sendMessage sent.message }
  | undefined {block : Option (List Byte)} {u : Undefined} (h : client o file block = .error u) :
      Move o file x .malloc (.malloc block) { x with pc := .undefined u }
  | sendMessage {message : List Byte} {res : Except ℤ ℕ} :
      Move o file x (.sendMessage message) (.send res) (x.send message res (.recv true) (.recv false))
  | recv {n : ℕ} {C : Word} (h : n ≤ 4) : Move o file x (.recv false) (.recv (.ok n) C) { x with
      pc := .exited (receiveCount o (.ok (x.toClient.pending.take n)) C)
      toClient := x.toClient.recv n }
  | recvFails {closed : Bool} {errno : ℤ} {C : Word} (h : closed = true → errno = EBADF) :
      Move o file x (.recv closed) (.recv (.error errno) C)
        { x with pc := .exited (receiveCount o (.error errno) C) }

theorem Peer.turn_move {o : ByteOrder} {file : List Byte} {x x' : Peer} {pc : ClientPc} {io : ClientIo}
    (h : x.turn o file pc io = some x') : x.Move o file pc io x' := by
  cases pc <;> cases io <;> try cases h
  case connect.connect ok => cases ok <;> constructor
  case malloc.malloc block =>
    rw [Peer.turn] at h
    split at h
    · rename_i sent hsent
      cases h
      exact .malloc hsent
    · rename_i u hu
      cases h
      exact .undefined hu
  case recv.recv closed res C =>
    cases res with
    | ok n =>
      rw [Peer.turn, Peer.recv, Option.ite_none_right_eq_some] at h
      obtain ⟨⟨rfl, hn⟩, ⟨⟩⟩ := h
      exact .recv hn
    | error errno =>
      rw [Peer.turn, Peer.recv, Option.ite_none_right_eq_some] at h
      obtain ⟨hn, ⟨⟩⟩ := h
      exact .recvFails hn
  all_goals constructor

theorem Peer.send_cases (x : Peer) (bytes : List Byte) (res : Except ℤ ℕ) (dropped next : ClientPc) :
    (∃ n, res = .ok n ∧ x.send bytes res dropped next =
        { x with pc := next, toServer := x.toServer.send (bytes.take n) }) ∨
      ∃ errno pc, res = .error errno ∧ (pc = dropped ∨ pc = next ∨ pc = .exited ⟨none, 1⟩) ∧
        x.send bytes res dropped next = { x with pc := pc } := by
  cases res with
  | ok n => exact Or.inl ⟨n, rfl, rfl⟩
  | error errno =>
    refine Or.inr ⟨errno, ?_⟩
    rw [Peer.send]
    cases classify errno with
    | nonFatal => exact ⟨_, rfl, Or.inl rfl, rfl⟩
    | partOfFlow => exact ⟨_, rfl, Or.inr (Or.inl rfl), rfl⟩
    | fatal => exact ⟨_, rfl, Or.inr (Or.inr rfl), rfl⟩

/-! ## What the service can do -/

namespace Service
variable {host : Host} {order : ι → ByteOrder} {file : ι → List Byte}

/-- The steps of the service: those of the server alone, those of the server with a client, and those
of a client. -/
inductive Move (host : Host) (order : ι → ByteOrder) (file : ι → List Byte) (c : Service ι) :
    Act ι → Service ι → Prop
  | sigint {t : Server} (h : Pcc.step host c.server .sigint = some t) :
      Move host order file c .sigint { c with server := t }
  | tau {t : Server} (h : Pcc.step host c.server (.io .tau) = some t) :
      Move host order file c .tau { c with server := t }
  | malloc {ok : Bool} {t : Server} (h : Pcc.step host c.server (.io (.malloc ok)) = some t) :
      Move host order file c (.malloc ok) { c with server := t }
  | accept {i : ι} {connected_socket : ℤ} {t : Server} (hsocket : 0 ≤ connected_socket)
      (hlink : (c.peers i).link = .waiting)
      (h : Pcc.step host c.server (.io (.accept connected_socket)) = some t) :
      Move host order file c (.accept i connected_socket)
        { c.setPeer t i { c.peers i with link := .accepted } with session := some i }
  | acceptFails {connected_socket : ℤ} {t : Server} (hsocket : connected_socket < 0)
      (h : Pcc.step host c.server (.io (.accept connected_socket)) = some t) :
      Move host order file c (.acceptFails connected_socket) { c with server := t, session := none }
  | recvLength {i : ι} {res : Except ℤ ℕ} {stale : Word} {t : Server} (hi : c.session = some i)
      (h : Pcc.step host c.server (.io (.recvLength (received (c.peers i) res) stale)) = some t) :
      Move host order file c (.recvLength res stale) (c.setPeer t i (handedOver (c.peers i) res))
  | recvMessage {i : ι} {res : Except ℤ ℕ} {beyond : List Byte} {t : Server} (hi : c.session = some i)
      (h : Pcc.step host c.server (.io (.recvMessage (received (c.peers i) res) beyond)) = some t) :
      Move host order file c (.recvMessage res beyond) (c.setPeer t i (handedOver (c.peers i) res))
  | send {i : ι} {res : Except ℤ ℕ} {t : Server} (hi : c.session = some i)
      (h : Pcc.step host c.server (.io (.send res)) = some t) :
      Move host order file c (.send res) (c.setPeer t i (told (c.peers i) t))
  | client {i : ι} {o : ClientIo} {x : Peer}
      (h : (c.peers i).turn (order i) (file i) (c.peers i).pc o = some x) :
      Move host order file c (.client i o) (c.setPeer c.server i x)

theorem step_move {c c' : Service ι} {a : Act ι} (h : step host order file c a = some c') :
    Move host order file c a c' := by
  cases a with
  | sigint | tau | malloc ok =>
    obtain ⟨t, ht, rfl⟩ := Option.map_eq_some_iff.mp h
    constructor
    exact ht
  | accept i connected_socket =>
    obtain ⟨⟨hsocket, hlink⟩, h⟩ := Option.ite_none_right_eq_some.mp h
    obtain ⟨t, ht, rfl⟩ := Option.map_eq_some_iff.mp h
    exact .accept hsocket hlink ht
  | acceptFails connected_socket =>
    obtain ⟨hsocket, h⟩ := Option.ite_none_right_eq_some.mp h
    obtain ⟨t, ht, rfl⟩ := Option.map_eq_some_iff.mp h
    exact .acceptFails hsocket ht
  | recvLength res stale =>
    obtain ⟨i, hi, h⟩ := Option.bind_eq_some_iff.mp h
    obtain ⟨t, ht, ⟨⟩⟩ := Option.bind_eq_some_iff.mp h
    exact .recvLength hi ht
  | recvMessage res beyond =>
    obtain ⟨i, hi, h⟩ := Option.bind_eq_some_iff.mp h
    obtain ⟨t, ht, ⟨⟩⟩ := Option.bind_eq_some_iff.mp h
    exact .recvMessage hi ht
  | send res =>
    obtain ⟨i, hi, h⟩ := Option.bind_eq_some_iff.mp h
    obtain ⟨t, ht, ⟨⟩⟩ := Option.bind_eq_some_iff.mp h
    exact .send hi ht
  | client i o =>
    obtain ⟨x, hx, rfl⟩ := Option.map_eq_some_iff.mp h
    exact .client hx

/-- The server takes steps of its own, whatever the clients do. -/
theorem Move.server {c c' : Service ι} {a : Act ι} (h : Move host order file c a c') :
    c'.server = c.server ∨ ∃ e, Pcc.step host c.server e = some c'.server := by
  cases h with
  | client => exact Or.inl rfl
  | _ => exact Or.inr ⟨_, by assumption⟩

/-! ## Runs -/

/-- `M` takes steps of the service only, but perhaps not all of them. -/
structure Runs (host : Host) (order : ι → ByteOrder) (file : ι → List Byte)
    (M : Machine (Service ι) (Act ι)) : Prop where
  init : ∀ c, M.init c → c = .start
  step : ∀ c a c', M.step c a c' → Move host order file c a c'

theorem runs_service : Runs host order file (service host order file) :=
  ⟨fun _ h => h, fun _ _ _ h => step_move h⟩

variable {M : Machine (Service ι) (Act ι)} {c : Service ι}

theorem Runs.server (hM : Runs host order file M) (h : M.Reachable c) :
    (Pcc.server host).Reachable c.server := by
  refine h.invariant (I := fun c => (Pcc.server host).Reachable c.server) (fun c hc => ?_)
    fun c a c' hi hs => ?_
  · rw [hM.init c hc]
    exact ⟨[], .start rfl⟩
  · rcases (hM.step c a c' hs).server with heq | ⟨e, he⟩
    · rwa [heq]
    · exact hi.step he

/-- What a client keeps in its own calls, and in what the server does to its connection, is kept. -/
theorem Runs.peers (hM : Runs host order file M) {P : ι → Peer → Prop} (h₀ : ∀ i, P i .start)
    (hturn : ∀ c i o x, M.step c (.client i o) (c.setPeer c.server i x) →
      (c.peers i).Move (order i) (file i) (c.peers i).pc o x → P i (c.peers i) → P i x)
    (haccept : ∀ i x, x.link = .waiting → P i x → P i { x with link := .accepted })
    (hrecv : ∀ i x n, P i x → P i { x with toServer := x.toServer.recv n })
    (hsend : ∀ i x l, P i x → P i { x with toClient := x.toClient.send l })
    (h : M.Reachable c) : ∀ i, P i (c.peers i) := by
  refine h.invariant (I := fun c => ∀ i, P i (c.peers i)) (fun c hc i => ?_) fun c a c' hi hs => ?_
  · rw [hM.init c hc]
    exact h₀ i
  have hset : ∀ {i x}, P i x → ∀ j, P j (Function.update c.peers i x j) := fun {i x} hx j => by
    by_cases hj : j = i
    · subst hj
      rwa [Function.update_self]
    · rw [Function.update_of_ne hj]
      exact hi j
  have hover : ∀ {i} res, P i (handedOver (c.peers i) res) := fun {i} res => by
    cases res with
    | ok n => exact hrecv i _ n (hi i)
    | error errno => exact hi i
  cases hM.step c a c' hs with
  | sigint | tau | malloc | acceptFails => exact hi
  | accept hsocket hlink => exact hset (haccept _ _ hlink (hi _))
  | recvLength | recvMessage => exact hset (hover _)
  | send => exact hset (hsend _ _ _ (hi _))
  | client h => exact hset (hturn c _ _ _ hs (Peer.turn_move h) (hi _))

end Service

end OsCourse.Pcc
