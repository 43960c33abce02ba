import OsCourse.Pcc.Ledger

/-! # When a session counts

A session may change the totals only if the length, the whole message and the reply
went through. The program does not see that a `recv` came short or was interrupted, so
this holds of the runs in which no session depends on it, and of no others.
-/

namespace OsCourse.Pcc
open Foundations

variable {host : Host} {s t : Server}

/-- The length that a four-byte header announces. -/
def announced (header : List Byte) : ℕ := (load .big (received header fun _ => 0#8)).toNat

/-- The four bytes of the length and all bytes of the message came. -/
def Exchange.allReceived (x : Exchange) : Bool :=
  match x.length, x.message with
  | some (.ok header), some (.ok message) =>
    header.length == 4 && message.length == announced header
  | _, _ => false

def Exchange.replied (x : Exchange) : Bool :=
  match x.reply with
  | some (_, .ok _) => true
  | _ => false

def Exchange.complete (x : Exchange) : Bool := x.allReceived && x.replied

/-- No session is under way that has not ended one way or the other. -/
def Pc.sessionOver : Pc → Bool
  | .leave _ | .unmask _ | .returned _ | .exited _ | .test | .clear | .accept => true
  | _ => false

/-- The server goes on with the length that it received. -/
def LengthReceived (host : Host) (s : Server) (N_network : BitVec 32) : Prop :=
  ∃ header, s.exchange.length = some (.ok header) ∧ header.length = 4 ∧
    (ntohl host.order N_network).toNat = announced header

/-- No session ends the server by a signal; only a complete session changes the totals, any other leaves
both arrays as they were. -/
structure Respects (host : Host) (s : Server) : Prop where
  survives : s.pc ≠ .killed
  length : ∀ N_network, s.pc = .malloc N_network → LengthReceived host s N_network
  total : s.exchange.complete = false → s.totals.pccTotal = s.exchange.before.pccTotal
  afterwards : s.exchange.complete = false → s.pc.sessionOver = true → s.totals = s.exchange.before

/-- The step is not one in which a short or interrupted `recv` goes unnoticed: the length comes
whole or the session ends, and where printable characters have been counted the reply fails
for good, or goes out after the whole message came. Nor does the reply raise a `SIGPIPE`. -/
def undisturbed (host : Host) (s : Server) : Event → Bool
  | .io (.recvLength (.ok header) _) => header.length == 4
  | .io (.recvLength (.error errno) _) => classify errno != .partOfFlow
  | .io (.send res) =>
    match s.pc, res with
    | .send message _, .ok _ => printables message == 0 || s.exchange.allReceived
    | .send message _, .error errno =>
      (printables message == 0 || classify errno == .nonFatal) &&
        (errno != EPIPE || host.ignoresSigpipe)
    | _, _ => true
  | _ => true

/-- The runs of undisturbed host steps. -/
def undisturbedServer (host : Host) : Machine Server Event :=
  (server host).guarded fun s e _ => undisturbed host s e = true

/-! ## Undisturbed runs -/

/-- What an undisturbed run knows at each point beyond the ledger. -/
def FairAt (host : Host) (s : Server) : Pc → Prop
  | .malloc N_network => LengthReceived host s N_network
  | .commit message _ => s.exchange.complete = true ∨ printables message = 0
  | .mask _ | .check _ | .enter _ | .testSocket _ | .recvLength | .recvMessage _ | .count _
  | .send _ _ | .undo | .leave .dropped | .unmask .dropped => True
  | .killed => False
  | _ => s.exchange.complete = true ∨ s.totals = s.exchange.before

theorem FairAt.congr {pc : Pc} (h : FairAt host s pc) (ht : t.totals = s.totals)
    (he : t.exchange = s.exchange) : FairAt host t pc := by
  unfold FairAt LengthReceived at *
  rw [ht, he]
  exact h

theorem Untouched.fair (h : Untouched s) : s.exchange.complete = true ∨ s.totals = s.exchange.before :=
  Or.inr h.2.symm

/-- The ledger and what is known at a point are enough there. -/
theorem Ledger.respects (h : Ledger s) (hf : FairAt host s s.pc) : Respects host s := by
  have hh := h.here
  have hcase : (s.exchange.complete = true ∨ s.totals = s.exchange.before) ∨
      s.totals.pccTotal = s.exchange.before.pccTotal ∧ s.pc.sessionOver = false := by
    generalize s.pc = pc at hh hf
    cases pc with
    | mask | check | enter | testSocket | recvLength | malloc | recvMessage | count =>
      exact Or.inl (Untouched.fair hh)
    | send message chars_count => exact Or.inr ⟨by rw [hh.1], rfl⟩
    | undo => exact Or.inr ⟨by rw [hh], rfl⟩
    | killed => exact absurd hf id
    | commit message chars_count => exact Or.inr ⟨by rw [hh.1], rfl⟩
    | leave ending =>
      cases ending with
      | dropped => exact Or.inl (Untouched.fair hh)
      | committed | fatal => exact Or.inl hf
    | unmask ending =>
      cases ending with
      | dropped => exact Or.inl (Untouched.fair hh)
      | committed | fatal => exact Or.inl hf
    | _ => exact Or.inl hf
  refine ⟨fun hpc => by rw [hpc] at hf; exact hf, fun N_network hpc => by rw [hpc] at hf; exact hf,
    ?_, ?_⟩
  · intro hc
    rcases hcase with (hc' | he) | ⟨he, _⟩
    · rw [hc] at hc'
      cases hc'
    · rw [he]
    · exact he
  · intro hc ho
    rcases hcase with (hc' | he) | ⟨_, ho'⟩
    · rw [hc] at hc'
      cases hc'
    · exact he
    · rw [ho] at ho'
      cases ho'

/-- A counted string without printable characters has not changed anything. -/
theorem Counted.untouched {message : List Byte} {chars_count : BitVec 32}
    (h : Counted s message chars_count) (hp : printables message = 0) : Untouched s := by
  obtain ⟨hu, ht, _, hlen⟩ := h
  rw [(addCounts_eq_self_iff hlen _).mpr hp] at ht
  exact ⟨ht, by rw [hu]; exact congrArg (Totals.mk · s.totals.pccTotal) ht.symm⟩

theorem ntohl_received {header : List Byte} (h : header.length = 4) (stale : Word) :
    (ntohl host.order (load host.order (received header stale))).toNat = announced header := by
  rw [ntohl_load, announced, received_of_length h stale]

theorem fair_recvLength (hu : Untouched s) {res : Received} {stale : Word}
    (hg : undisturbed host s (.io (.recvLength res stale)) = true)
    (hs : afterRecvLength s res stale host = some t) : FairAt host t t.pc := by
  cases res with
  | ok header =>
    have h4 : header.length = 4 := by simpa [undisturbed] using hg
    simp only [afterRecvLength, Option.ite_none_right_eq_some, Option.some.injEq] at hs
    rw [← hs.2]
    exact ⟨header, rfl, h4, ntohl_received h4 stale⟩
  | error errno =>
    have hne : classify errno ≠ .partOfFlow := by simpa [undisturbed] using hg
    cases hs
    obtain ⟨pc, heq, ⟨rfl, _⟩ | ⟨_, hc⟩ | ⟨rfl, _⟩⟩ := onError_eq
      { s with exchange := { s.exchange with length := some (.error errno) } } errno
      (.leave .dropped) (.malloc (load host.order stale))
    · rw [heq]; trivial
    · exact absurd hc hne
    · rw [heq]; exact Or.inr hu.2.symm

theorem fair_recvMessage (hu : Untouched s) {N_host : BitVec 32} {res : Received}
    {beyond : List Byte} (hs : afterRecvMessage s N_host res beyond = some t) :
    FairAt host t t.pc := by
  cases res with
  | ok bytes =>
    simp only [afterRecvMessage, Option.ite_none_right_eq_some, Option.some.injEq] at hs
    rw [← hs.2]
    trivial
  | error errno =>
    cases hs
    obtain ⟨pc, heq, ⟨rfl, _⟩ | ⟨rfl, _⟩ | ⟨rfl, _⟩⟩ := onError_eq
      { s with exchange := { s.exchange with message := some (.error errno) } } errno
      (.leave .dropped) (.count (messageFromHome N_host [] beyond))
    · rw [heq]; trivial
    · rw [heq]; trivial
    · rw [heq]; exact Or.inr hu.2.symm

theorem fair_send {message : List Byte} {chars_count : BitVec 32}
    (hpc : s.pc = .send message chars_count) (hc : Counted s message chars_count)
    {res : Except ℤ ℕ} (hg : undisturbed host s (.io (.send res)) = true) :
    FairAt host (afterSend s message chars_count res host)
      (afterSend s message chars_count res host).pc := by
  cases res with
  | ok n =>
    simp only [undisturbed, hpc, Bool.or_eq_true, beq_iff_eq] at hg
    rcases hg with hp | hr
    · exact Or.inr hp
    · refine Or.inl ?_
      simpa [afterSend, goto, Exchange.complete, Exchange.replied, Exchange.allReceived] using hr
  | error errno =>
    simp only [undisturbed, hpc, Bool.and_eq_true, Bool.or_eq_true, beq_iff_eq, bne_iff_ne] at hg
    obtain ⟨hg, hpipe⟩ := hg
    obtain ⟨pc, heq, ⟨_, herrno, hignores⟩ | ⟨rfl, _⟩ | ⟨rfl, hclass⟩ | ⟨rfl, hclass⟩⟩ :=
      afterSend_error s message chars_count errno host <;> rw [heq]
    · exact absurd hignores (by simp [hpipe.resolve_left fun hne => hne herrno])
    · trivial
    · exact Or.inr (hg.resolve_right (by simp [hclass]))
    · have hp := hg.resolve_right (by simp [hclass])
      exact Or.inr (hc.untouched hp).2.symm

/-- `duplicate_pcc_total(1)` changes nothing where nothing was counted. -/
theorem Counted.duplicated {message : List Byte} {chars_count : BitVec 32}
    (h : Counted s message chars_count) (hp : printables message = 0) :
    duplicatePccTotal 1 s.totals = s.exchange.before := by
  obtain ⟨hset, he⟩ := h.untouched hp
  rw [duplicatePccTotal_one, he, show s.totals.pccTotalTemp = s.totals.pccTotal from hset]
  exact congrArg (Totals.mk · s.totals.pccTotal) hset.symm

theorem fair_turn (hl : Ledger s) (hf : FairAt host s s.pc) {o : Io}
    (hg : undisturbed host s (.io o) = true) (hs : turn host s s.pc o = some t) :
    FairAt host t t.pc := by
  have hh := hl.here
  generalize hpc : s.pc = pc at hs hf hh
  cases turn_move hs with
  | test =>
    refine FairAt.congr (s := s) ?_ rfl rfl
    cases s.sigint <;> exact hf
  | clear => exact hf
  | accept | mask | enter | undo => trivial
  | check =>
    refine FairAt.congr (s := s) ?_ rfl rfl
    cases s.sigint with
    | true => exact Untouched.fair hh
    | false => trivial
  | testSocket =>
    refine FairAt.congr (s := s) ?_ rfl rfl
    rw [goto_pc]
    split_ifs
    · exact Untouched.fair hh
    · trivial
  | recvLength hs => exact fair_recvLength hh hg hs
  | malloc =>
    unfold afterMalloc
    dsimp only
    split_ifs
    · trivial
    · exact Untouched.fair hh
  | recvMessage hs => exact fair_recvMessage hh hs
  | count =>
    unfold countMessage
    split
    · trivial
    · exact Untouched.fair hh
  | send => exact fair_send hpc hh hg
  | commit =>
    rcases hf with hc | hp
    · exact Or.inl hc
    · right
      change duplicatePccTotal 1 s.totals = s.exchange.before
      exact Counted.duplicated hh hp
  | @leave ending => cases ending <;> exact hf
  | @unmask ending =>
    obtain ⟨hpc', ht, he, _, _⟩ := unmaskSigint_ledger s ending
    refine FairAt.congr (s := s) ?_ ht he
    rw [hpc']
    cases ending with
    | committed => exact hf
    | dropped => exact Untouched.fair hh
    | fatal => exact hf
  | print | abort => exact hf

theorem fair_reachable (h : (undisturbedServer host).Reachable s) :
    Ledger s ∧ FairAt host s s.pc := by
  refine h.invariant (I := fun s => Ledger s ∧ FairAt host s s.pc) ?_ ?_
  · rintro s rfl
    exact ⟨ledger_start, Or.inr rfl⟩
  · rintro s a t ⟨hl, hf⟩ ⟨hs, hg⟩
    cases a with
    | sigint =>
      simp only [server, Machine.ofFun, step, Option.ite_none_right_eq_some,
        Option.some.injEq] at hs
      obtain ⟨hpc, ht, he, _, _⟩ := arriveSigint_ledger s
      rw [← hs.2, hpc]
      exact ⟨hl.arriveSigint, hf.congr ht he⟩
    | io o => exact ⟨hl.turn hs, fair_turn hl hf hg hs⟩

/-! ## Disturbed steps -/

/-- A length that came short or was interrupted is used as if it had been received. -/
theorem disturbed_length {res : Received} {stale : Word} (hpc : s.pc = .recvLength)
    (hg : undisturbed host s (.io (.recvLength res stale)) = false)
    (hs : turn host s s.pc (.recvLength res stale) = some t) : ¬ Respects host t := by
  rw [hpc] at hs
  intro hr
  cases res with
  | ok header =>
    simp only [turn, afterRecvLength, Option.ite_none_right_eq_some, Option.some.injEq] at hs
    obtain ⟨_, rfl⟩ := hs
    obtain ⟨header', he, h4, _⟩ := hr.length _ rfl
    obtain rfl : header = header' := by simpa [goto] using he
    simp [undisturbed, h4] at hg
  | error errno =>
    have hc : classify errno = .partOfFlow := by simpa [undisturbed] using hg
    simp only [turn, afterRecvLength, onError, hc, Option.some.injEq] at hs
    subst hs
    obtain ⟨header', he, _⟩ := hr.length _ rfl
    simp [goto] at he

/-- A session that is not complete has changed an array and is over. -/
theorem Respects.not_of_changed (hc : t.exchange.complete = false) (ho : t.pc.sessionOver = true)
    (hne : t.totals.pccTotalTemp ≠ t.exchange.before.pccTotalTemp) : ¬ Respects host t :=
  fun hr => hne (by rw [hr.afterwards hc ho])

/-- A session whose characters are counted although it is not complete ends by changing an
array: at once, or with the next step. -/
theorem disturbed_reply (hl : Ledger s) {message : List Byte} {chars_count : BitVec 32}
    (hpc : s.pc = .send message chars_count) {res : Except ℤ ℕ}
    (hg : undisturbed host s (.io (.send res)) = false)
    (hs : turn host s s.pc (.send res) = some t) :
    ¬ Respects host t ∨ ∃ t', turn host t t.pc .tau = some t' ∧ ¬ Respects host t' := by
  have hh := hl.here
  rw [hpc] at hs hh
  obtain ⟨hu, ht, _, hlen⟩ := hh
  have hne : printables message ≠ 0 → s.totals.pccTotalTemp ≠ s.exchange.before.pccTotalTemp := by
    intro hp heq
    rw [hu, ht] at heq
    exact hp ((addCounts_eq_self_iff hlen _).mp heq)
  cases hs
  cases res with
  | ok n =>
    simp only [undisturbed, hpc, Bool.or_eq_false_iff, beq_eq_false_iff_ne] at hg
    refine Or.inr ⟨_, rfl, Respects.not_of_changed ?_ rfl ?_⟩
    · change (s.exchange.allReceived && true) = false
      rw [hg.2, Bool.false_and]
    · rw [duplicatePccTotal_one]
      exact hne hg.1
  | error errno =>
    simp only [undisturbed, hpc, Bool.and_eq_false_iff, Bool.or_eq_false_iff, beq_eq_false_iff_ne,
      bne_eq_false_iff_eq] at hg
    have hrep : (s.exchange.refused host chars_count errno).complete = false := by
      simp [Exchange.complete, Exchange.replied, Exchange.refused]
    obtain ⟨pc, heq, ⟨rfl, _⟩ | ⟨rfl, hc, hignores⟩ | ⟨rfl, hc⟩ | ⟨rfl, hc⟩⟩ :=
      afterSend_error s message chars_count errno host <;> rw [heq]
    · exact Or.inl fun hr => hr.survives rfl
    · rcases hg with ⟨_, hclass⟩ | ⟨herrno, hno⟩
      · exact absurd hc hclass
      · rw [hignores herrno] at hno
        cases hno
    · refine Or.inr ⟨_, rfl, Respects.not_of_changed hrep rfl ?_⟩
      rw [duplicatePccTotal_one]
      exact hne (hg.resolve_right (by rintro ⟨rfl, _⟩; cases hc)).1
    · refine Or.inl (Respects.not_of_changed hrep rfl ?_)
      exact hne (hg.resolve_right (by rintro ⟨rfl, _⟩; cases hc)).1

/-! ## The law of sessions -/

/-- The law holds along every undisturbed run, and any step that disturbs a run breaks it
there or with the step after. -/
theorem sessions_respected_while_undisturbed (host : Host) :
    (∀ s, (undisturbedServer host).Reachable s → Respects host s) ∧
    ∀ s e t, (server host).Reachable s → step host s e = some t → undisturbed host s e = false →
      ¬ Respects host t ∨ ∃ t', step host t (.io .tau) = some t' ∧ ¬ Respects host t' := by
  refine ⟨fun s h => ?_, fun s e t h hs hg => ?_⟩
  · obtain ⟨hl, hf⟩ := fair_reachable h
    exact hl.respects hf
  · have hl := ledger_reachable h
    cases e with
    | sigint => cases hg
    | io o =>
      cases o with
      | recvLength res stale =>
        refine Or.inl (disturbed_length ?_ hg hs)
        cases hpc : s.pc <;> simp [step, turn, hpc] at hs ⊢
      | send res =>
        cases hpc : s.pc with
        | send message chars_count => exact disturbed_reply hl hpc hg hs
        | _ => simp [step, turn, hpc] at hs
      | _ => cases hg

/-- One byte of a two-byte message is counted and committed. -/
theorem sessions_not_respected :
    ¬ ∀ s, (server ⟨.little, true, false⟩).Reachable s → Respects ⟨.little, true, false⟩ s := by
  intro h
  have hrun : (Machine.perform (step ⟨.little, true, false⟩) .start
      (opening 4 ++ exchanging [0#8, 0#8, 0#8, 2#8] [65#8] (fun _ => 0#8) [])).map (fun s =>
        (s.exchange.complete, s.committed, s.exchange.before.pccTotal 33)) =
      some (false, [([65#8], 1#32)], 0#32) := rfl
  obtain ⟨s, hs, hst⟩ := Option.map_eq_some_iff.mp hrun
  simp only [Prod.mk.injEq] at hst
  obtain ⟨hc, hcommitted, hbefore⟩ := hst
  have hreach := (Machine.run_ofFun.mpr hs).reachable
  have ht := congrFun ((h s hreach).total hc) 33
  rw [(ledger_reachable hreach).total, hcommitted, hbefore] at ht
  cases ht

/-- A client that resets the connection after a length that came whole. -/
theorem sessions_respected_while_undisturbed_sample :
    ∃ s, (undisturbedServer ⟨.little, true, false⟩).Reachable s ∧ s.pc = .leave .dropped ∧
      s.exchange.complete = false ∧ s.totals = s.exchange.before := by
  have hrun : (Machine.perform (fun s e =>
      if undisturbed ⟨.little, true, false⟩ s e then step ⟨.little, true, false⟩ s e else none)
      .start (opening 4 ++ [.io (.recvLength (.ok [0#8, 0#8, 0#8, 2#8]) fun _ => 0#8),
        .io (.malloc true), .io (.recvMessage (.error ECONNRESET) [])])).map
          (fun s => (s.pc, s.exchange.complete)) = some (.leave .dropped, false) := rfl
  obtain ⟨s, hs, hst⟩ := Option.map_eq_some_iff.mp hrun
  simp only [Prod.mk.injEq] at hst
  have hreach : (undisturbedServer ⟨.little, true, false⟩).Reachable s :=
    (Machine.run_guarded_ofFun.mpr hs).reachable
  refine ⟨s, hreach, hst.1, hst.2, ?_⟩
  exact ((sessions_respected_while_undisturbed _).1 s hreach).afterwards hst.2 (by rw [hst.1]; rfl)

end OsCourse.Pcc
