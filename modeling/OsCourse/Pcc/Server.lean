import OsCourse.Foundations.Machine
import OsCourse.Foundations.SignalMask
import OsCourse.Pcc.Counting

/-! # The message loop of `pcc_server.c`

`message_loop`, the handler and the end of `main` as a machine that takes one step
for each statement that reads or writes shared data or calls the system. `SIGINT`
may arrive between any two steps; what the system calls return is the
environment's choice.
-/

namespace OsCourse.Pcc
open Foundations

/-- What the program sees of the machine it runs on, and the action for `SIGPIPE` that it was started
with, which it leaves alone. -/
structure Host where
  order : ByteOrder
  signedChar : Bool
  ignoresSigpipe : Bool

/-! ## Errors of the socket calls -/

def SIGINT : ℤ := 2
def EINTR : ℤ := 4
def EPIPE : ℤ := 32
def ECONNRESET : ℤ := 104
def ETIMEDOUT : ℤ := 110

inductive ErrnoClass where
  | nonFatal
  | partOfFlow
  | fatal
  deriving DecidableEq, Repr

/-- The three branches after a failed `recv` or `send`. -/
def classify (errno : ℤ) : ErrnoClass :=
  if errno = EPIPE ∨ errno = ETIMEDOUT ∨ errno = ECONNRESET then .nonFatal
  else if errno = SIGINT ∨ errno = EINTR then .partOfFlow
  else .fatal

/-! ## States -/

/-- How a session ends: after `duplicate_pcc_total(1)`, by `continue` or by `return 1`. -/
inductive Ending where
  | committed
  | dropped
  | fatal
  deriving DecidableEq, Repr

/-- The statement that is executed next, with the locals that it still needs. -/
inductive Pc where
  | test
  | clear
  | accept
  | mask (connected_socket : ℤ)
  | check (connected_socket : ℤ)
  | enter (connected_socket : ℤ)
  | testSocket (connected_socket : ℤ)
  | recvLength
  | malloc (N_network : BitVec 32)
  | recvMessage (N_host : BitVec 32)
  | count (message_from_home : List Byte)
  | send (message_from_home : List Byte) (chars_count : BitVec 32)
  | undo
  | commit (message_from_home : List Byte) (chars_count : BitVec 32)
  | leave (ending : Ending)
  | unmask (ending : Ending)
  | returned (code : ℤ)
  | exited (code : ℤ)
  | undefined (u : Undefined)
  | crashed
  | killed
  deriving DecidableEq, Repr

/-- What one `recv` returned: an `errno`, or the bytes that it stored. -/
abbrev Received := Except ℤ (List Byte)

/-- The exchange with the client of the last `accept`, and the totals just before it. -/
structure Exchange where
  before : Totals
  length : Option Received
  message : Option Received
  reply : Option (Word × Except ℤ ℕ)

def Exchange.start (t : Totals) : Exchange := ⟨t, none, none, none⟩

/-- The server. The fields from `exchange` on are history and steer nothing. -/
structure Server where
  pc : Pc
  totals : Totals
  sigint : Bool
  client_flow : Bool
  signal : SignalMask
  printed : Option (List (ℤ × BitVec 32))
  exchange : Exchange
  committed : List (List Byte × BitVec 32)
  accepted : ℕ
  arrived : Option ℕ
  handled : List (Bool × Pc)

def Totals.zero : Totals := ⟨fun _ => 0#32, fun _ => 0#32⟩

/-- `message_loop` is about to start and the handler is installed. -/
def Server.start : Server where
  pc := .test
  totals := .zero
  sigint := false
  client_flow := false
  signal := .clear
  printed := none
  exchange := .start .zero
  committed := []
  accepted := 0
  arrived := none
  handled := []

/-- `sigint_handler`. -/
def sigintHandler (s : Server) : Server :=
  { s with
    sigint := if s.client_flow then s.sigint else true
    handled := s.handled ++ [(s.client_flow, s.pc)] }

/-- The process still runs. -/
def Pc.alive : Pc → Bool
  | .exited _ | .undefined _ | .crashed | .killed => false
  | _ => true

/-- `SIGINT` arrives; the history keeps how many clients had been accepted by the first one. -/
def arriveSigint (s : Server) : Server :=
  let (signal, s) := s.signal.arrive sigintHandler s
  { s with signal, arrived := s.arrived <|> some s.accepted }

/-! ## Steps -/

/-- What the environment answers to one step. `recv` also reveals memory that the program did
not write: the old bytes of `N_network`, and what lies behind the message buffer up to the
first zero. -/
inductive Io where
  | tau
  | accept (connected_socket : ℤ)
  | recvLength (res : Received) (stale : Word)
  | malloc (ok : Bool)
  | recvMessage (res : Received) (beyond : List Byte)
  | send (res : Except ℤ ℕ)

inductive Event where
  | sigint
  | io (o : Io)

def goto (s : Server) (pc : Pc) : Server := { s with pc }

/-- A failed call leaves the session or goes on with `flow`. -/
def onError (s : Server) (errno : ℤ) (dropped flow : Pc) : Server :=
  match classify errno with
  | .nonFatal => goto s dropped
  | .partOfFlow => goto s flow
  | .fatal => goto s (.leave .fatal)

/-- The string in the zeroed buffer of `N_host` bytes after `bytes` were received into it. -/
def messageFromHome (N_host : BitVec 32) (bytes beyond : List Byte) : List Byte :=
  cString (bytes ++ List.replicate (N_host.toNat - bytes.length) 0#8 ++ beyond)

def afterRecvLength (s : Server) (res : Received) (stale : Word) (host : Host) : Option Server :=
  let s := { s with exchange := { s.exchange with length := some res } }
  match res with
  | .ok bytes =>
    if bytes.length ≤ 4 then some (goto s (.malloc (load host.order (received bytes stale))))
    else none
  | .error errno => some (onError s errno (.leave .dropped) (.malloc (load host.order stale)))

/-- `malloc` and `memset` of `sizeof(char) * N_host` bytes. The size is a `size_t`, so the `int`
is extended with its sign, and a block beyond `PTRDIFF_MAX` is never granted. -/
def afterMalloc (s : Server) (N_host : BitVec 32) (ok : Bool) : Server :=
  let size := (N_host.signExtend 64).toNat
  if size = 0 ∨ (ok ∧ size < 2 ^ 63) then goto s (.recvMessage N_host) else goto s .crashed

def afterRecvMessage (s : Server) (N_host : BitVec 32) (res : Received) (beyond : List Byte) :
    Option Server :=
  let s := { s with exchange := { s.exchange with message := some res } }
  match res with
  | .ok bytes =>
    if bytes.length ≤ N_host.toNat then some (goto s (.count (messageFromHome N_host bytes beyond)))
    else none
  | .error errno =>
    some (onError s errno (.leave .dropped) (.count (messageFromHome N_host [] beyond)))

def countMessage (s : Server) (message : List Byte) (host : Host) : Server :=
  match countChars host.signedChar s.totals.pccTotalTemp message with
  | .ok (temp, chars_count) =>
    goto { s with totals := { s.totals with pccTotalTemp := temp } } (.send message chars_count)
  | .error u => goto s (.undefined u)

/-- The reply. On a connection that is broken, `send` raises `SIGPIPE` and only returns where that is
ignored. -/
def afterSend (s : Server) (message : List Byte) (chars_count : BitVec 32) (res : Except ℤ ℕ)
    (host : Host) : Server :=
  let s := { s with exchange :=
    { s.exchange with reply := some (store host.order chars_count, res) } }
  match res with
  | .ok _ => goto s (.commit message chars_count)
  | .error errno =>
    if errno = EPIPE ∧ host.ignoresSigpipe = false then goto s .killed
    else onError s errno .undo (.commit message chars_count)

/-- `sigprocmask(SIG_UNBLOCK, …)` and the end of the turn. -/
def unmaskSigint (s : Server) (ending : Ending) : Server :=
  let (signal, s) := s.signal.unblock sigintHandler s
  { s with signal, pc := if ending = .fatal then .returned 1 else .test }

/-- One step of the program. -/
def turn (host : Host) (s : Server) : Pc → Io → Option Server
  | .test, .tau => some (goto s (if s.sigint then .returned 0 else .clear))
  | .clear, .tau => some { s with client_flow := false, pc := .accept }
  | .accept, .accept connected_socket =>
    some { s with
      pc := .mask connected_socket
      exchange := .start s.totals
      accepted := if connected_socket < 0 then s.accepted else s.accepted + 1 }
  | .mask connected_socket, .tau =>
    some { s with signal := s.signal.block, pc := .check connected_socket }
  | .check connected_socket, .tau =>
    some (goto s (if s.sigint then .returned 0 else .enter connected_socket))
  | .enter connected_socket, .tau =>
    some { s with client_flow := true, pc := .testSocket connected_socket }
  | .testSocket connected_socket, .tau =>
    some (goto s (if connected_socket < 0 then .leave .fatal else .recvLength))
  | .recvLength, .recvLength res stale => afterRecvLength s res stale host
  | .malloc N_network, .malloc ok => some (afterMalloc s (ntohl host.order N_network) ok)
  | .recvMessage N_host, .recvMessage res beyond => afterRecvMessage s N_host res beyond
  | .count message, .tau => some (countMessage s message host)
  | .send message chars_count, .send res => some (afterSend s message chars_count res host)
  | .undo, .tau =>
    some (goto { s with totals := duplicatePccTotal 0 s.totals } (.leave .dropped))
  | .commit message chars_count, .tau =>
    some (goto { s with
      totals := duplicatePccTotal 1 s.totals
      committed := s.committed ++ [(message, chars_count)] } (.leave .committed))
  | .leave ending, .tau => some { s with client_flow := false, pc := .unmask ending }
  | .unmask ending, .tau => some (unmaskSigint s ending)
  | .returned code, .tau =>
    if code = 0 then
      some { s with printed := some (printChars s.totals.pccTotal), pc := .exited 0 }
    else some (goto s (.exited 1))
  | _, _ => none

def step (host : Host) (s : Server) : Event → Option Server
  | .sigint => if s.pc.alive then some (arriveSigint s) else none
  | .io o => turn host s s.pc o

/-- The server from the start of `message_loop`. -/
def server (host : Host) : Machine Server Event := .ofFun .start (step host)

/-! ## What a turn can do -/

/-- The moves of the server, from each point of the loop. -/
inductive Move (host : Host) (s : Server) : Pc → Io → Server → Prop
  | test : Move host s .test .tau (goto s (if s.sigint then .returned 0 else .clear))
  | clear : Move host s .clear .tau { s with client_flow := false, pc := .accept }
  | accept {connected_socket : ℤ} :
      Move host s .accept (.accept connected_socket) { s with
        pc := .mask connected_socket
        exchange := .start s.totals
        accepted := if connected_socket < 0 then s.accepted else s.accepted + 1 }
  | mask {connected_socket : ℤ} : Move host s (.mask connected_socket) .tau
      { s with signal := s.signal.block, pc := .check connected_socket }
  | check {connected_socket : ℤ} : Move host s (.check connected_socket) .tau
      (goto s (if s.sigint then .returned 0 else .enter connected_socket))
  | enter {connected_socket : ℤ} : Move host s (.enter connected_socket) .tau
      { s with client_flow := true, pc := .testSocket connected_socket }
  | testSocket {connected_socket : ℤ} : Move host s (.testSocket connected_socket) .tau
      (goto s (if connected_socket < 0 then .leave .fatal else .recvLength))
  | recvLength {res : Received} {stale : Word} {t : Server}
      (h : afterRecvLength s res stale host = some t) :
      Move host s .recvLength (.recvLength res stale) t
  | malloc {N_network : BitVec 32} {ok : Bool} : Move host s (.malloc N_network) (.malloc ok)
      (afterMalloc s (ntohl host.order N_network) ok)
  | recvMessage {N_host : BitVec 32} {res : Received} {beyond : List Byte} {t : Server}
      (h : afterRecvMessage s N_host res beyond = some t) :
      Move host s (.recvMessage N_host) (.recvMessage res beyond) t
  | count {message : List Byte} : Move host s (.count message) .tau (countMessage s message host)
  | send {message : List Byte} {chars_count : BitVec 32} {res : Except ℤ ℕ} :
      Move host s (.send message chars_count) (.send res) (afterSend s message chars_count res host)
  | undo : Move host s .undo .tau
      (goto { s with totals := duplicatePccTotal 0 s.totals } (.leave .dropped))
  | commit {message : List Byte} {chars_count : BitVec 32} :
      Move host s (.commit message chars_count) .tau (goto { s with
        totals := duplicatePccTotal 1 s.totals
        committed := s.committed ++ [(message, chars_count)] } (.leave .committed))
  | leave {ending : Ending} : Move host s (.leave ending) .tau
      { s with client_flow := false, pc := .unmask ending }
  | unmask {ending : Ending} : Move host s (.unmask ending) .tau (unmaskSigint s ending)
  | print : Move host s (.returned 0) .tau
      { s with printed := some (printChars s.totals.pccTotal), pc := .exited 0 }
  | abort {code : ℤ} (hcode : code ≠ 0) : Move host s (.returned code) .tau (goto s (.exited 1))

/-- Every turn is a move. -/
theorem turn_move {host : Host} {s t : Server} {pc : Pc} {o : Io} (hs : turn host s pc o = some t) :
    Move host s pc o t := by
  cases pc <;> cases o <;> try cases hs
  case recvLength.recvLength => exact .recvLength hs
  case recvMessage.recvMessage => exact .recvMessage hs
  case returned.tau code =>
    by_cases hcode : code = 0
    · subst hcode
      cases hs
      exact .print
    · rw [turn, if_neg hcode] at hs
      cases hs
      exact .abort hcode
  all_goals constructor

/-! ## The stages of an undisturbed session -/

/-- From the loop condition to the first `recv`. -/
def opening (connected_socket : ℤ) : List Event :=
  [.io .tau, .io .tau, .io (.accept connected_socket), .io .tau, .io .tau, .io .tau, .io .tau]

/-- From the first `recv` to `duplicate_pcc_total(1)`. -/
def exchanging (header message : List Byte) (stale : Word) (beyond : List Byte) : List Event :=
  [.io (.recvLength (.ok header) stale), .io (.malloc true), .io (.recvMessage (.ok message) beyond),
    .io .tau, .io (.send (.ok 4)), .io .tau]

/-- From there to the loop condition. -/
def closing : List Event := [.io .tau, .io .tau]

end OsCourse.Pcc
