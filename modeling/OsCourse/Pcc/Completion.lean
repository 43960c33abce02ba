import OsCourse.Foundations.Census
import OsCourse.Pcc.Smooth

/-! # How the service comes to an end

Every step of the server and of a client uses up some of what is left for it to do, and only a signal
comes for nothing. Where no call fails, the service without a signal stops for want of clients only.
-/

namespace OsCourse.Pcc
open Foundations

/-! ## What is left to do -/

/-- The steps of a client from here on; a connection that has not been accepted also owes those of a
session. -/
def ClientPc.potential : ClientPc → ℕ
  | .connect => 20
  | .sendSize => 4
  | .malloc => 3
  | .sendMessage _ => 2
  | .recv _ => 1
  | .exited _ | .undefined _ => 0

def Peer.potential (x : Peer) : ℕ := x.pc.potential + if x.link = .waiting then 15 else 0

/-- The steps of the server from here on if no client is accepted any more. -/
def Pc.potential : Pc → ℕ
  | .mask connected_socket => if connected_socket < 0 then 7 else 22
  | .check connected_socket => if connected_socket < 0 then 6 else 21
  | .enter connected_socket => if connected_socket < 0 then 5 else 20
  | .testSocket connected_socket => if connected_socket < 0 then 4 else 19
  | .recvLength => 18
  | .malloc _ => 17
  | .recvMessage _ => 16
  | .count _ => 15
  | .send _ _ => 14
  | .undo | .commit _ _ => 13
  | .leave ending => if ending = .fatal then 3 else 12
  | .unmask ending => if ending = .fatal then 2 else 11
  | .test => 10
  | .clear => 9
  | .accept => 8
  | .returned _ => 1
  | .exited _ | .undefined _ | .crashed | .killed => 0

/-- What an accepted connection brings. -/
def Io.brings : Io → ℕ
  | .accept connected_socket => if connected_socket < 0 then 0 else 15
  | _ => 0

variable {host : Host} {s t : Server} {o : ByteOrder} {file : List Byte}

theorem onError_potential (s : Server) (errno : ℤ) {dropped flow : Pc} {n : ℕ}
    (hdropped : dropped.potential < n) (hflow : flow.potential < n) (hn : 3 < n) :
    (onError s errno dropped flow).pc.potential < n := by
  obtain ⟨pc, heq, ⟨rfl, _⟩ | ⟨rfl, _⟩ | ⟨rfl, _⟩⟩ := onError_eq s errno dropped flow <;> rw [heq]
  · exact hdropped
  · exact hflow
  · exact hn

theorem io_potential {a : Io} (hs : step host s (.io a) = some t) :
    t.pc.potential < s.pc.potential + a.brings := by
  rw [step] at hs
  generalize s.pc = pc at hs
  cases turn_move hs with
  | test =>
    have hpc : (if s.sigint then Pc.returned 0 else .clear).potential < 10 := by
      split <;> decide
    exact hpc
  | @check connected_socket =>
    have hpc : (if s.sigint then Pc.returned 0 else .enter connected_socket).potential <
        if connected_socket < 0 then 6 else 21 := by
      split_ifs with hsig hsocket hsocket <;> simp [Pc.potential, hsocket]
    exact hpc
  | @accept connected_socket =>
    have hpc : (if connected_socket < 0 then 7 else 22) <
        8 + if connected_socket < 0 then 0 else 15 := by
      split_ifs <;> decide
    exact hpc
  | @mask connected_socket =>
    have hpc : (if connected_socket < 0 then 6 else 21) < if connected_socket < 0 then 7 else 22 := by
      split_ifs <;> decide
    exact hpc
  | @enter connected_socket =>
    have hpc : (if connected_socket < 0 then 4 else 19) < if connected_socket < 0 then 5 else 20 := by
      split_ifs <;> decide
    exact hpc
  | @testSocket connected_socket =>
    have hpc : (if connected_socket < 0 then Pc.leave .fatal else .recvLength).potential <
        if connected_socket < 0 then 4 else 19 := by
      split_ifs <;> decide
    exact hpc
  | @recvLength res _ _ hs =>
    cases res with
    | ok bytes =>
      obtain ⟨_, ⟨⟩⟩ := Option.ite_none_right_eq_some.mp hs
      exact Nat.lt_add_one 17
    | error errno =>
      cases hs
      exact onError_potential (n := 18) _ _ (by decide) (Nat.lt_add_one 17) (by decide)
  | malloc =>
    unfold afterMalloc
    dsimp only
    split_ifs
    · exact Nat.lt_add_one 16
    · exact Nat.zero_lt_succ 16
  | @recvMessage _ res _ _ hs =>
    cases res with
    | ok bytes =>
      obtain ⟨_, ⟨⟩⟩ := Option.ite_none_right_eq_some.mp hs
      exact Nat.lt_add_one 15
    | error errno =>
      cases hs
      exact onError_potential (n := 16) _ _ (by decide) (Nat.lt_add_one 15) (by decide)
  | count =>
    unfold countMessage
    split
    · exact Nat.lt_add_one 14
    · exact Nat.zero_lt_succ 14
  | @send m chars_count res =>
    cases res with
    | ok n => exact Nat.lt_add_one 13
    | error errno =>
      obtain ⟨pc, heq, ⟨rfl, _⟩ | ⟨rfl, _⟩ | ⟨rfl, _⟩ | ⟨rfl, _⟩⟩ :=
        afterSend_error s m chars_count errno host <;> rw [heq]
      · exact Nat.zero_lt_succ 13
      · exact Nat.lt_add_one 13
      · exact Nat.lt_add_one 13
      · exact (by decide : 3 < 14)
  | @leave ending =>
    have hpc : (Pc.unmask ending).potential < (Pc.leave ending).potential := by
      cases ending <;> decide
    exact hpc
  | @unmask ending =>
    rw [(unmaskSigint_ledger s ending).1]
    cases ending <;> decide
  | clear => exact Nat.lt_add_one 8
  | undo | commit => exact Nat.lt_add_one 12
  | print | abort => exact Nat.lt_add_one 0

theorem Peer.Move.potential {x x' : Peer} {io : ClientIo} (h : x.Move o file x.pc io x') :
    x'.potential < x.potential := by
  have hsend : ∀ bytes res {dropped next : ClientPc} {n : ℕ}, dropped.potential < n →
      next.potential < n → x.pc.potential = n →
      (x.send bytes res dropped next).potential < x.potential := by
    intro bytes res dropped next n hdropped hnext hn
    rcases x.send_cases bytes res dropped next with ⟨_, _, heq⟩ | ⟨_, pc, _, hpc, heq⟩ <;>
      rw [heq, Peer.potential, Peer.potential, hn]
    · exact Nat.add_lt_add_right hnext _
    · refine Nat.add_lt_add_right ?_ _
      rcases hpc with rfl | rfl | rfl
      · exact hdropped
      · exact hnext
      · exact Nat.zero_lt_of_lt hnext
  generalize hpc : x.pc = pc at h
  have hx : x.potential = pc.potential + if x.link = .waiting then 15 else 0 := by
    rw [Peer.potential, hpc]
  cases h with
  | connect =>
    rw [hx]
    exact Nat.lt_add_right _ (by decide : 19 < 20)
  | sendSize => exact hsend _ _ (by decide) (by decide) (congrArg ClientPc.potential hpc)
  | sendMessage => exact hsend _ _ (Nat.lt_add_one 1) (Nat.lt_add_one 1) (congrArg ClientPc.potential hpc)
  | _ =>
    rw [hx]
    exact Nat.add_lt_add_right (by first | exact Nat.lt_add_one _ | exact Nat.zero_lt_succ _) _

def Act.isSigint {ι : Type} : Act ι → Bool
  | .sigint => true
  | _ => false

theorem sum_sigints {ι : Type} (as : List (Act ι)) :
    (as.map fun a => if a.isSigint then 1 else 0).sum = as.countP Act.isSigint := by
  induction as with
  | nil => rfl
  | cons a as ih => rw [List.map_cons, List.sum_cons, ih, List.countP_cons, Nat.add_comm]

namespace Service
variable {ι : Type} {order : ι → ByteOrder} {file : ι → List Byte} {c c' : Service ι} {a : Act ι}

section
variable [Fintype ι]

def potential (c : Service ι) : ℕ := c.server.pc.potential + ∑ i, (c.peers i).potential

theorem potential_start : (start : Service ι).potential = 20 * Fintype.card ι + 10 := by
  have hsum : ∑ _i : ι, Peer.start.potential = Fintype.card ι * 20 := by
    rw [Finset.sum_const, Finset.card_univ, smul_eq_mul]
    rfl
  rw [potential, start, hsum, Nat.add_comm, Nat.mul_comm]
  rfl

variable [DecidableEq ι]

theorem potential_setPeer (c : Service ι) (t : Server) (i : ι) (x : Peer) :
    (c.setPeer t i x).potential + c.server.pc.potential + (c.peers i).potential =
      c.potential + t.pc.potential + x.potential := by
  have hsum := sum_update Peer.potential c.peers i x
  rw [potential, potential, setPeer]
  dsimp only
  omega

theorem handedOver_potential (x : Peer) (res : Except ℤ ℕ) :
    (handedOver x res).potential = x.potential := by
  cases res <;> rfl

/-- Every step but a signal spends some of the potential. -/
theorem Move.potential (h : Move host order file c a c') :
    c'.potential < c.potential + if a.isSigint then 1 else 0 := by
  cases h with
  | @sigint t h =>
    obtain ⟨_, ⟨⟩⟩ := Option.ite_none_right_eq_some.mp h
    rw [Service.potential, (arriveSigint_ledger c.server).1]
    exact Nat.lt_add_one _
  | @tau t h | @malloc ok t h =>
    have hspent : t.pc.potential < c.server.pc.potential := io_potential h
    exact Nat.add_lt_add_right hspent _
  | @acceptFails connected_socket t hsocket h =>
    have hspent := io_potential h
    rw [Io.brings, if_pos hsocket] at hspent
    exact Nat.add_lt_add_right hspent _
  | @accept i connected_socket t hsocket hlink h =>
    have hspent := io_potential h
    rw [Io.brings, if_neg (not_lt.mpr hsocket)] at hspent
    have hx : (c.peers i).potential =
        ({ c.peers i with link := .accepted } : Peer).potential + 15 := by
      rw [Peer.potential, hlink]
      rfl
    have hset := potential_setPeer c t i { c.peers i with link := .accepted }
    change (c.setPeer t i { c.peers i with link := .accepted }).potential < c.potential + 0
    omega
  | @recvLength i res stale t hi h | @recvMessage i res beyond t hi h =>
    have hspent : t.pc.potential < c.server.pc.potential := io_potential h
    have hset := potential_setPeer c t i (handedOver (c.peers i) res)
    rw [handedOver_potential] at hset
    change (c.setPeer t i (handedOver (c.peers i) res)).potential < c.potential + 0
    omega
  | @send i res t hi h =>
    have hspent : t.pc.potential < c.server.pc.potential := io_potential h
    have hset := potential_setPeer c t i (told (c.peers i) t)
    have hx : (told (c.peers i) t).potential = (c.peers i).potential := rfl
    change (c.setPeer t i (told (c.peers i) t)).potential < c.potential + 0
    omega
  | @client i o x h =>
    have hspent := (Peer.turn_move h).potential
    have hset := potential_setPeer c c.server i x
    change (c.setPeer c.server i x).potential < c.potential + 0
    omega

/-- Whatever fails, a run has at most twenty steps for each client, ten for the end of the server and
one for each signal. -/
theorem every_service_halts {as : List (Act ι)} (h : (service host order file).Run as c) :
    as.length ≤ 20 * Fintype.card ι + 10 + as.countP Act.isSigint := by
  have hlen := h.length_le (b := 20 * Fintype.card ι + 10) potential
    (fun a => if a.isSigint then 1 else 0) (fun c hc => ?_) fun c a c' hs => (step_move hs).potential
  · rw [sum_sigints] at hlen
    exact (Nat.le_add_right ..).trans hlen
  · rw [show c = start from hc, potential_start]

end

theorem every_service_halts_sample : ∃ c : Service (Fin 2),
    (service sampleHost (fun _ => .big) sampleFile).Run (sampleRun ++ [.sigint]) c ∧
      (sampleRun ++ [Act.sigint]).length ≤ 20 * Fintype.card (Fin 2) + 10 + 1 := by
  have hrun : (Machine.perform (step sampleHost (fun _ => .big) sampleFile) .start
      (sampleRun ++ [.sigint])).isSome = true := by
    decide +kernel
  obtain ⟨c, hc⟩ := Option.isSome_iff_exists.mp hrun
  have hc : (service sampleHost (fun _ => .big) sampleFile).Run _ c := Machine.run_ofFun.mpr hc
  exact ⟨c, hc, every_service_halts hc⟩

/-! ## When the service stops -/

variable [DecidableEq ι]

theorem send_link (x : Peer) (bytes : List Byte) (res : Except ℤ ℕ) (dropped next : ClientPc) :
    (x.send bytes res dropped next).link = x.link := by
  rcases x.send_cases bytes res dropped next with ⟨_, _, heq⟩ | ⟨_, _, _, _, heq⟩ <;> rw [heq]

/-- A client that is neither at its start nor at its end has a connection. -/
theorem Runs.connected {M : Machine (Service ι) (Act ι)} (hM : Runs host order file M)
    (h : M.Reachable c) : ∀ i, (c.peers i).link = .apart →
      (c.peers i).pc = .connect ∨ ∃ outcome, (c.peers i).pc = .exited outcome := by
  refine hM.peers (P := fun _ x => x.link = .apart → x.pc = .connect ∨ ∃ outcome, x.pc = .exited outcome)
    (fun _ _ => Or.inl rfl) (fun c i o x _ hmove hi hlink => ?_) (fun _ _ _ _ => nofun)
    (fun _ _ _ hx => hx) (fun _ _ _ hx => hx) h
  generalize (c.peers i).pc = pc at hmove hi
  cases hmove with
  | connect => cases hlink
  | refused => exact Or.inr ⟨_, rfl⟩
  | sendSize | sendMessage =>
    rw [send_link] at hlink
    rcases hi hlink with h | ⟨_, h⟩ <;> cases h
  | _ => rcases hi hlink with h | ⟨_, h⟩ <;> cases h

theorem client_goes_on (hfile : ∀ i, Sendable (file i))
    (h : (smoothService host order file).Reachable c) {i : ι}
    (hpc : ∀ outcome, (c.peers i).pc ≠ .exited outcome)
    (hrecv : ∀ closed, (c.peers i).pc = .recv closed → 4 ≤ (c.peers i).toClient.pending.length) :
    ∃ o c', (smoothService host order file).step c (.client i o) c' := by
  have hhere := (fluent_reachable hfile h i).here
  have hturn : ∀ o, (c.peers i).Smooth o →
      (∃ x, (c.peers i).turn (order i) (file i) (c.peers i).pc o = some x) →
      ∃ o c', (smoothService host order file).step c (.client i o) c' := by
    rintro o ho ⟨x, hx⟩
    exact ⟨o, _, Option.map_eq_some_iff.mpr ⟨x, hx, rfl⟩, ho⟩
  cases hx : (c.peers i).pc with
  | connect => exact hturn (.connect true) trivial ⟨_, by rw [hx]; rfl⟩
  | sendSize =>
    exact hturn (.send (.ok 4)) (by rw [Peer.Smooth, Peer.sending, hx]) ⟨_, by rw [hx]; rfl⟩
  | malloc =>
    have hblock : ∃ reserved, some [0#8] = some reserved ∧ reserved ≠ ([] : List Byte) :=
      ⟨[0#8], rfl, by decide⟩
    obtain ⟨sent, hsent, _⟩ := client_of_sendable (o := order i) (hfile i) hblock
    exact hturn (.malloc (some [0#8])) hblock ⟨_, by rw [hx, Peer.turn, hsent]⟩
  | sendMessage message =>
    exact hturn (.send (.ok message.length)) (by rw [Peer.Smooth, Peer.sending, hx])
      ⟨_, by rw [hx]; rfl⟩
  | recv closed =>
    rw [hx] at hhere
    obtain ⟨rfl, _⟩ := hhere
    refine hturn (.recv (.ok 4) fun _ => 0#8) ⟨rfl, hrecv false hx⟩ ?_
    rw [hx, Peer.turn, Peer.recv, if_pos ⟨rfl, le_rfl⟩]
    exact ⟨_, rfl⟩
  | exited outcome => exact absurd hx (hpc outcome)
  | undefined u =>
    rw [hx] at hhere
    cases hhere

/-- Only a signal is left. -/
def Stuck (host : Host) (order : ι → ByteOrder) (file : ι → List Byte) (c : Service ι) : Prop :=
  ∀ a c', (smoothService host order file).step c a c' → a = .sigint

/-- A client with a connection has sent all when it cannot go on. -/
theorem Stuck.sent (hstuck : Stuck host order file c) (hfile : ∀ i, Sendable (file i))
    (h : (smoothService host order file).Reachable c) {i : ι} (hlink : (c.peers i).link ≠ .apart) :
    (c.peers i).toServer.sent = request (order i) (file i) := by
  have hhere := (fluent_reachable hfile h i).here
  have hnot : ¬ ∃ o c', (smoothService host order file).step c (.client i o) c' := by
    rintro ⟨o, c', hs⟩
    cases hstuck _ _ hs
  cases hpc : (c.peers i).pc with
  | recv closed =>
    rw [hpc] at hhere
    exact hhere.2
  | exited outcome =>
    rw [hpc] at hhere
    exact (hhere.resolve_left fun h => hlink h.1).1
  | _ => exact absurd (client_goes_on hfile h (by rw [hpc]; nofun) (by rw [hpc]; nofun)) hnot

/-- The connection of the session has brought all that its client sends. -/
theorem Stuck.session_sent (hstuck : Stuck host order file c) (hfile : ∀ i, Sendable (file i))
    (h : (smoothService host order file).Reachable c) {i : ι} (hi : c.session = some i) :
    (c.peers i).toServer.sent = request (order i) (file i) := by
  obtain ⟨is, string, horderly⟩ := runs_smoothService.orderly (reads_smoothService hfile) h
  refine hstuck.sent hfile h fun happart => ?_
  have hmet := horderly.met i hi
  rw [Peer.seen, happart] at hmet
  cases hmet

theorem Stuck.not_recvLength (hstuck : Stuck host order file c) (hfile : ∀ i, Sendable (file i))
    (h : (smoothService host order file).Reachable c) : c.server.pc ≠ .recvLength := by
  intro hpc
  obtain ⟨is, string, horderly⟩ := runs_smoothService.orderly (reads_smoothService hfile) h
  rw [hpc] at horderly
  obtain ⟨i, hi, harrived, _⟩ := horderly.exists_here trivial
  have hsent := hstuck.session_sent hfile h hi
  rw [Fifo.sent, show (c.peers i).toServer.arrived = [] from harrived, List.nil_append] at hsent
  have hrequested : c.requested = 4 := by rw [requested, hpc]
  have hcomplete : c.Complete (.ok 4) := by
    refine ⟨by rw [hrequested], i, hi, ?_⟩
    rw [hrequested, hsent, request, List.length_append, length_lengthHeader]
    exact Nat.le_add_right 4 _
  have hs : ∃ t, Pcc.step host c.server (.io (.recvLength (received (c.peers i) (.ok 4))
      fun _ => 0#8)) = some t := by
    rw [Pcc.step, hpc]
    exact ⟨_, if_pos (List.length_take_le ..)⟩
  obtain ⟨t, ht⟩ := hs
  cases hstuck (.recvLength (.ok 4) fun _ => 0#8) _
    ⟨Option.bind_eq_some_iff.mpr ⟨i, hi, Option.bind_eq_some_iff.mpr ⟨t, ht, rfl⟩⟩, hcomplete⟩

/-- The `recv` of a message that is not empty returns. -/
theorem Stuck.not_recvMessage (hstuck : Stuck host order file c) (hfile : ∀ i, Sendable (file i))
    (hsome : ∀ i, file i ≠ []) (h : (smoothService host order file).Reachable c)
    (N_host : BitVec 32) : c.server.pc ≠ .recvMessage N_host := by
  intro hpc
  obtain ⟨is, string, horderly⟩ := runs_smoothService.orderly (reads_smoothService hfile) h
  rw [hpc] at horderly
  obtain ⟨i, hi, ⟨harrived, hN⟩, _⟩ := horderly.exists_here trivial
  have hsent := hstuck.session_sent hfile h hi
  rw [Fifo.sent, show (c.peers i).toServer.arrived = _ from harrived, request,
    List.append_cancel_left_eq] at hsent
  have hrequested : c.requested = N_host.toNat := by rw [requested, hpc]
  have hcomplete : c.Complete (.ok N_host.toNat) := by
    refine ⟨by rw [hrequested], i, hi, ?_⟩
    rw [hrequested, hsent, hN, BitVec.toNat_ofNat]
    exact max_le (List.length_pos_iff.mpr (hsome i)) (Nat.mod_le ..)
  have hs : ∃ t, Pcc.step host c.server (.io (.recvMessage
      (received (c.peers i) (.ok N_host.toNat)) [])) = some t := by
    rw [Pcc.step, hpc]
    exact ⟨_, if_pos (List.length_take_le ..)⟩
  obtain ⟨t, ht⟩ := hs
  cases hstuck (.recvMessage (.ok N_host.toNat) []) _
    ⟨Option.bind_eq_some_iff.mpr ⟨i, hi, Option.bind_eq_some_iff.mpr ⟨t, ht, rfl⟩⟩, hcomplete, rfl⟩

theorem Stuck.accept (hstuck : Stuck host order file c) (hfile : ∀ i, Sendable (file i))
    (hsome : ∀ i, file i ≠ []) (h : (smoothService host order file).Reachable c)
    (hsig : c.server.sigint = false) : c.server.pc = .accept := by
  have hsafe := (calm_reachable hfile h).safe
  have htau : ∀ t, Pcc.step host c.server (.io .tau) = some t → False := by
    intro t ht
    cases hstuck .tau { c with server := t } ⟨Option.map_eq_some_iff.mpr ⟨t, ht, rfl⟩, trivial⟩
  cases hpc : c.server.pc with
  | accept => rfl
  | test | clear | mask | check | enter | testSocket | count | commit | leave | unmask =>
    exact absurd (by rw [Pcc.step, hpc]; rfl) (htau _)
  | malloc N_network =>
    have hs : (smoothService host order file).step c (.malloc true) _ :=
      ⟨Option.map_eq_some_iff.mpr ⟨_, by rw [Pcc.step, hpc]; rfl, rfl⟩, rfl⟩
    cases hstuck _ _ hs
  | recvLength => exact absurd hpc (hstuck.not_recvLength hfile h)
  | recvMessage N_host => exact absurd hpc (hstuck.not_recvMessage hfile hsome h N_host)
  | send m chars_count =>
    obtain ⟨is, string, horderly⟩ := runs_smoothService.orderly (reads_smoothService hfile) h
    rw [hpc] at horderly
    obtain ⟨i, hi, _⟩ := horderly.exists_here trivial
    have hs : ∃ t, Pcc.step host c.server (.io (.send (.ok 4))) = some t := by
      rw [Pcc.step, hpc]
      exact ⟨_, rfl⟩
    obtain ⟨t, ht⟩ := hs
    cases hstuck (.send (.ok 4)) _
      ⟨Option.bind_eq_some_iff.mpr ⟨i, hi, Option.bind_eq_some_iff.mpr ⟨t, ht, rfl⟩⟩, rfl⟩
  | undo | undefined | crashed | killed => rw [hpc] at hsafe; cases hsafe
  | returned | exited =>
    rw [hpc] at hsafe
    rw [hsig] at hsafe
    cases hsafe.2

/-- With the server back at `accept`, every client has come to its end. -/
theorem Stuck.exited (hstuck : Stuck host order file c) (hfile : ∀ i, Sendable (file i))
    (hsome : ∀ i, file i ≠ []) (h : (smoothService host order file).Reachable c)
    (hsig : c.server.sigint = false) (i : ι) :
    ∃ outcome, (c.peers i).pc = .exited outcome := by
  have haccept := hstuck.accept hfile hsome h hsig
  have hcalm := calm_reachable hfile h
  by_contra hrunning
  suffices hrecv : ∀ closed, (c.peers i).pc = .recv closed →
      4 ≤ (c.peers i).toClient.pending.length by
    obtain ⟨o, c', hs⟩ := client_goes_on hfile h (fun outcome hpc => hrunning ⟨outcome, hpc⟩) hrecv
    cases hstuck _ _ hs
  intro closed hpc
  have hlink : (c.peers i).link = .accepted := by
    cases hlink : (c.peers i).link with
    | apart =>
      rcases runs_smoothService.connected h i hlink with hconnect | ⟨outcome, houtcome⟩
      · rw [hpc] at hconnect
        cases hconnect
      · exact absurd ⟨outcome, houtcome⟩ hrunning
    | waiting =>
      have hs : ∃ t, Pcc.step host c.server (.io (.accept 4)) = some t := by
        rw [Pcc.step, haccept]
        exact ⟨_, rfl⟩
      obtain ⟨t, ht⟩ := hs
      have haccepts : Service.step host order file c (.accept i 4) =
          some { c.setPeer t i { c.peers i with link := .accepted } with session := some i } :=
        (if_pos ⟨by decide, hlink⟩).trans (by rw [ht]; rfl)
      cases hstuck _ _ ⟨haccepts, trivial⟩
    | accepted => rfl
  rcases hcalm.answered i (by rw [Peer.seen, hlink]; rfl) with hi | hlen | ⟨_, hi⟩
  · rw [hsig] at hi
    cases hi
  · have hquiet := (fluent_reachable hfile h i).quiet fun outcome houtcome =>
      hrunning ⟨outcome, houtcome⟩
    rw [Peer.seen, Fifo.sent, hquiet, List.nil_append] at hlen
    exact hlen.ge
  · rw [haccept] at hi
    cases hi

/-- A smooth run that only a signal could continue has served every client that has connected, and the
totals are the sums over their files. No file may be empty: the server would wait for a byte of it, and
its client for the answer. -/
theorem stuck_only_when_served (horder : ∀ i, order i = host.order) (hfile : ∀ i, Sendable (file i))
    (hsome : ∀ i, file i ≠ []) (h : (smoothService host order file).Reachable c)
    (hsig : c.server.sigint = false)
    (hstuck : ∀ a c', (smoothService host order file).step c a c' → a = .sigint) :
    c.server.pc = .accept ∧
      (∀ i, (c.peers i).link = .apart ∧ (c.peers i).pc = .exited ⟨none, 1⟩ ∨
        (c.peers i).link = .accepted ∧
          (c.peers i).pc = .exited ⟨some (BitVec.ofNat 32 (printables (file i))), 0⟩) ∧
      ∃ is : List ι, is.Nodup ∧ (∀ i, i ∈ is ↔ (c.peers i).link = .accepted) ∧
        ∀ k, c.server.totals.pccTotal k =
          BitVec.ofNat 32 (is.map fun i => (file i).count (charAt k)).sum := by
  have hstuck : Stuck host order file c := hstuck
  have haccept := hstuck.accept hfile hsome h hsig
  obtain ⟨is, string, horderly⟩ := runs_smoothService.orderly (reads_smoothService hfile) h
  have hends : ∀ i, (c.peers i).link = .apart ∧ (c.peers i).pc = .exited ⟨none, 1⟩ ∨
      i ∈ is ∧ (c.peers i).pc = .exited ⟨some (BitVec.ofNat 32 (printables (file i))), 0⟩ := by
    intro i
    obtain ⟨outcome, hpc⟩ := hstuck.exited hfile hsome h hsig i
    refine (exited_cases horder hfile h horderly hpc).imp ?_ ?_
    · rintro ⟨hlink, rfl⟩
      exact ⟨hlink, hpc⟩
    · rintro ⟨rfl, hi | ⟨_, hcommitting⟩⟩
      · exact ⟨hi, hpc⟩
      · rw [haccept] at hcommitting
        cases hcommitting
  have haccepted : ∀ i ∈ is, (c.peers i).link = .accepted := fun i hi =>
    of_decide_eq_true (horderly.accepted i hi)
  refine ⟨haccept, fun i => (hends i).imp_right fun hi => ⟨haccepted i hi.1, hi.2⟩, is,
    horderly.nodup, fun i => ⟨haccepted i, fun hlink => ?_⟩, smoothlyOrderly_total horderly h⟩
  rcases hends i with ⟨happart, _⟩ | ⟨hi, _⟩
  · rw [hlink] at happart
    cases happart
  · exact hi

/-- Where no client is left, only a signal is left. -/
theorem stuck_of_served (hpc : c.server.pc = .accept) (hsig : c.server.sigint = false)
    (hlink : ∀ i, (c.peers i).link ≠ .waiting)
    (hends : ∀ i, ∃ outcome, (c.peers i).pc = .exited outcome) : Stuck host order file c := by
  rintro a c' ⟨hs, hsmooth⟩
  have hnone : ∀ {o t}, Pcc.step host c.server (.io o) = some t → ∃ connected_socket,
      o = .accept connected_socket := by
    intro o t h
    rw [Pcc.step, hpc] at h
    cases turn_move h with
    | accept => exact ⟨_, rfl⟩
  cases step_move hs with
  | sigint => rfl
  | tau h | malloc h | recvLength _ h | recvMessage _ h | send _ h =>
    obtain ⟨_, ⟨⟩⟩ := hnone h
  | accept _ hwaiting => exact absurd hwaiting (hlink _)
  | acceptFails =>
    rw [Smooth, hsig] at hsmooth
    cases hsmooth
  | @client i _ _ h =>
    obtain ⟨outcome, hpc⟩ := hends i
    rw [hpc] at h
    cases Peer.turn_move h

/-- One client is refused and the other one is served. -/
theorem stuck_only_when_served_sample : ∃ c : Service (Fin 2),
    (smoothService sampleHost (fun _ => .little) sampleFile).Reachable c ∧
      ∃ is : List (Fin 2), is.Nodup ∧ (∀ i, i ∈ is ↔ (c.peers i).link = .accepted) ∧
        ∀ k, c.server.totals.pccTotal k =
          BitVec.ofNat 32 (is.map fun i => (sampleFile i).count (charAt k)).sum := by
  have hrun : (Machine.perform (fun c a => if c.Smooth a then step sampleHost (fun _ => .little)
      sampleFile c a else none) .start (sampleRequest 1 3 ++ sampleTurn 1 3 ++
        [.client 0 (.connect false), .client 1 (.recv (.ok 4) fun _ => 9#8), .tau, .tau])).map
        (fun c => (c.server.pc, c.server.sigint, (c.peers 0).link, (c.peers 1).link,
          (c.peers 0).pc, (c.peers 1).pc)) = some (.accept, false, .apart, .accepted,
            .exited ⟨none, 1⟩, .exited ⟨some 2#32, 0⟩) := by
    decide +kernel
  obtain ⟨c, hc, hend⟩ := Option.map_eq_some_iff.mp hrun
  simp only [Prod.mk.injEq] at hend
  obtain ⟨hpc, hsig, hlink0, hlink1, hpc0, hpc1⟩ := hend
  have hreach : (smoothService sampleHost (fun _ => .little) sampleFile).Reachable c :=
    (Machine.run_guarded_ofFun.mpr hc).reachable
  refine ⟨c, hreach, (stuck_only_when_served (fun _ => rfl) sampleFile_sendable (by decide) hreach hsig
    (stuck_of_served hpc hsig (fun i => ?_) fun i => ?_)).2.2⟩
  · fin_cases i
    · exact fun h => by cases hlink0.symm.trans h
    · exact fun h => by cases hlink1.symm.trans h
  · fin_cases i
    · exact ⟨_, hpc0⟩
    · exact ⟨_, hpc1⟩

end Service
end OsCourse.Pcc
