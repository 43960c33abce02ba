import OsCourse.Pcc.Server

/-! # The totals are the committed sessions

What the two arrays hold at every point of the loop. Between sessions they agree;
while a session is counted, `pcc_total_temp` is ahead by its string; every way out of
the session that stays in the loop makes them agree again.
-/

namespace OsCourse.Pcc
open Foundations

variable {host : Host} {s t : Server}

/-! ## Steps leave the ledger alone unless they are about it -/

@[simp] theorem goto_pc (s : Server) (pc : Pc) : (goto s pc).pc = pc := rfl
@[simp] theorem goto_committed (s : Server) (pc : Pc) : (goto s pc).committed = s.committed := rfl

/-- Where a failed call goes. -/
theorem onError_eq (s : Server) (errno : ℤ) (dropped flow : Pc) :
    ∃ pc, onError s errno dropped flow = goto s pc ∧
      (pc = dropped ∧ classify errno = .nonFatal ∨ pc = flow ∧ classify errno = .partOfFlow ∨
        pc = .leave .fatal ∧ classify errno = .fatal) := by
  unfold onError
  cases h : classify errno with
  | nonFatal => exact ⟨_, rfl, Or.inl ⟨rfl, rfl⟩⟩
  | partOfFlow => exact ⟨_, rfl, Or.inr (Or.inl ⟨rfl, rfl⟩)⟩
  | fatal => exact ⟨_, rfl, Or.inr (Or.inr ⟨rfl, rfl⟩)⟩

/-- The exchange after a reply that failed with `errno`. -/
def Exchange.refused (x : Exchange) (host : Host) (chars_count : BitVec 32) (errno : ℤ) : Exchange :=
  { x with reply := some (store host.order chars_count, .error errno) }

/-- Where a failed reply goes. -/
theorem afterSend_error (s : Server) (message : List Byte) (chars_count : BitVec 32) (errno : ℤ)
    (host : Host) :
    ∃ pc, afterSend s message chars_count (.error errno) host =
        { s with pc, exchange := s.exchange.refused host chars_count errno } ∧
      (pc = .killed ∧ errno = EPIPE ∧ host.ignoresSigpipe = false ∨
        pc = .undo ∧ classify errno = .nonFatal ∧ (errno = EPIPE → host.ignoresSigpipe = true) ∨
        pc = .commit message chars_count ∧ classify errno = .partOfFlow ∨
        pc = .leave .fatal ∧ classify errno = .fatal) := by
  rw [afterSend]
  dsimp only
  by_cases hkill : errno = EPIPE ∧ host.ignoresSigpipe = false
  · rw [if_pos hkill]
    exact ⟨_, rfl, Or.inl ⟨rfl, hkill⟩⟩
  · rw [if_neg hkill]
    obtain ⟨pc, heq, hpc⟩ := onError_eq
      { s with exchange := s.exchange.refused host chars_count errno } errno
      .undo (.commit message chars_count)
    refine ⟨pc, heq, Or.inr (hpc.imp_left fun hpc => ⟨hpc.1, hpc.2, fun herrno => ?_⟩)⟩
    exact Bool.eq_true_of_not_eq_false fun hignores => hkill ⟨herrno, hignores⟩

/-- An arrival only touches `sigint`, the signal and the history of signals. -/
theorem arriveSigint_ledger (s : Server) :
    (arriveSigint s).pc = s.pc ∧ (arriveSigint s).totals = s.totals ∧
      (arriveSigint s).exchange = s.exchange ∧ (arriveSigint s).committed = s.committed ∧
      (arriveSigint s).printed = s.printed := by
  unfold arriveSigint SignalMask.arrive
  cases s.signal.blocked <;> exact ⟨rfl, rfl, rfl, rfl, rfl⟩

theorem unmaskSigint_ledger (s : Server) (ending : Ending) :
    (unmaskSigint s ending).pc = (if ending = .fatal then .returned 1 else .test) ∧
      (unmaskSigint s ending).totals = s.totals ∧
      (unmaskSigint s ending).exchange = s.exchange ∧
      (unmaskSigint s ending).committed = s.committed ∧
      (unmaskSigint s ending).printed = s.printed := by
  unfold unmaskSigint SignalMask.unblock
  cases s.signal.pending <;> exact ⟨rfl, rfl, rfl, rfl, rfl⟩

/-! ## The invariant -/

/-- The sum over the committed sessions of the occurrences of each character. -/
def committedCounts (committed : List (List Byte × BitVec 32)) : Counters :=
  fun i => BitVec.ofNat 32 (committed.map fun c => c.1.count (charAt i)).sum

/-- The two arrays agree, also with what they were before the session. -/
def Settled (s : Server) : Prop := s.totals.pccTotalTemp = s.totals.pccTotal

def Untouched (s : Server) : Prop := Settled s ∧ s.exchange.before = s.totals

/-- Only `pcc_total_temp` differs from what the arrays were before the session. -/
def Undoable (s : Server) : Prop :=
  s.exchange.before = ⟨s.totals.pccTotal, s.totals.pccTotal⟩

/-- `pcc_total_temp` is ahead by `message`, whose count is `chars_count`. -/
def Counted (s : Server) (message : List Byte) (chars_count : BitVec 32) : Prop :=
  Undoable s ∧ s.totals.pccTotalTemp = addCounts s.totals.pccTotal message ∧
    chars_count = BitVec.ofNat 32 (printables message) ∧ message.length < 2 ^ 31

/-- What the arrays hold at each point of the program. -/
def LedgerAt (s : Server) : Pc → Prop
  | .test | .clear | .accept | .leave .committed | .unmask .committed => Settled s
  | .mask _ | .check _ | .enter _ | .testSocket _ | .recvLength | .malloc _ | .recvMessage _
  | .count _ | .leave .dropped | .unmask .dropped => Untouched s
  | .send message chars_count | .commit message chars_count => Counted s message chars_count
  | .undo => Undoable s
  | .leave .fatal | .unmask .fatal | .returned _ | .exited _ | .undefined .intOverflow
  | .crashed | .killed => True
  | .undefined .outOfBounds => False

structure Ledger (s : Server) : Prop where
  total : s.totals.pccTotal = committedCounts s.committed
  counts : ∀ c ∈ s.committed, c.2 = BitVec.ofNat 32 (printables c.1)
  here : LedgerAt s s.pc
  printed : ∀ lines, s.printed = some lines → s.pc = .exited 0
  exits : s.pc = .exited 0 → s.printed = some (printChars s.totals.pccTotal)

theorem LedgerAt.congr {pc : Pc} (h : LedgerAt s pc) (ht : t.totals = s.totals)
    (he : t.exchange.before = s.exchange.before) : LedgerAt t pc := by
  unfold LedgerAt Settled Untouched Counted Undoable Settled at *
  rw [ht, he]
  exact h

theorem Untouched.settled (h : Untouched s) : Settled s := h.1

theorem Untouched.undoable (h : Untouched s) : Undoable s := by
  obtain ⟨hs, he⟩ := h
  rw [Undoable, he]
  exact congrArg (Totals.mk · s.totals.pccTotal) hs

/-- Moving on without touching the ledger only has to reach a point that expects the same. -/
theorem Ledger.move (h : Ledger s) (ht : t.totals = s.totals)
    (he : t.exchange.before = s.exchange.before) (hc : t.committed = s.committed)
    (hp : t.printed = none) (hexit : t.pc ≠ .exited 0) (hpc : LedgerAt s t.pc) : Ledger t :=
  ⟨by rw [ht, hc]; exact h.total, by rw [hc]; exact h.counts, hpc.congr ht he,
    by rw [hp]; nofun, fun h => absurd h hexit⟩

theorem committedCounts_snoc (committed : List (List Byte × BitVec 32)) (c : List Byte × BitVec 32) :
    committedCounts (committed ++ [c]) = addCounts (committedCounts committed) c.1 := by
  funext i
  simp [committedCounts, addCounts, BitVec.ofNat_add]

theorem ledger_start : Ledger .start := by
  refine ⟨?_, nofun, rfl, nofun, nofun⟩
  funext i
  simp [Server.start, Totals.zero, committedCounts]

theorem Ledger.arriveSigint (h : Ledger s) : Ledger (arriveSigint s) := by
  obtain ⟨hpc, ht, he, hc, hp⟩ := arriveSigint_ledger s
  refine ⟨by rw [ht, hc]; exact h.total, by rw [hc]; exact h.counts, ?_, ?_, ?_⟩
  · rw [hpc]
    exact h.here.congr ht (by rw [he])
  · rw [hp, hpc]
    exact h.printed
  · rw [hp, hpc, ht]
    exact h.exits

theorem Ledger.not_printed (h : Ledger s) (hpc : ∀ code, s.pc ≠ .exited code) :
    s.printed = none := by
  cases hp : s.printed with
  | none => rfl
  | some lines =>
    exact absurd (h.printed lines hp) (hpc 0)

theorem Ledger.recvLength (h : Ledger s) (hpc : s.pc = .recvLength) {res : Received} {stale : Word}
    (hs : afterRecvLength s res stale host = some t) : Ledger t := by
  have hu : Untouched s := by simpa [hpc, LedgerAt] using h.here
  have hp := h.not_printed (by simp [hpc])
  cases res with
  | ok bytes =>
    simp only [afterRecvLength, Option.ite_none_right_eq_some, Option.some.injEq] at hs
    obtain ⟨_, rfl⟩ := hs
    exact h.move rfl rfl rfl hp nofun hu
  | error errno =>
    simp only [afterRecvLength, Option.some.injEq] at hs
    subst hs
    obtain ⟨pc, heq, ⟨rfl, _⟩ | ⟨rfl, _⟩ | ⟨rfl, _⟩⟩ := onError_eq
      { s with exchange := { s.exchange with length := some (.error errno) } } errno
      (.leave .dropped) (.malloc (load host.order stale))
    · rw [heq]; exact h.move rfl rfl rfl hp nofun hu
    · rw [heq]; exact h.move rfl rfl rfl hp nofun hu
    · rw [heq]; exact h.move rfl rfl rfl hp nofun trivial

theorem Ledger.recvMessage (h : Ledger s) {N_host : BitVec 32} (hpc : s.pc = .recvMessage N_host)
    {res : Received} {beyond : List Byte} (hs : afterRecvMessage s N_host res beyond = some t) :
    Ledger t := by
  have hu : Untouched s := by simpa [hpc, LedgerAt] using h.here
  have hp := h.not_printed (by simp [hpc])
  cases res with
  | ok bytes =>
    simp only [afterRecvMessage, Option.ite_none_right_eq_some, Option.some.injEq] at hs
    obtain ⟨_, rfl⟩ := hs
    exact h.move rfl rfl rfl hp nofun hu
  | error errno =>
    simp only [afterRecvMessage, Option.some.injEq] at hs
    subst hs
    obtain ⟨pc, heq, ⟨rfl, _⟩ | ⟨rfl, _⟩ | ⟨rfl, _⟩⟩ := onError_eq
      { s with exchange := { s.exchange with message := some (.error errno) } } errno
      (.leave .dropped) (.count (messageFromHome N_host [] beyond))
    · rw [heq]; exact h.move rfl rfl rfl hp nofun hu
    · rw [heq]; exact h.move rfl rfl rfl hp nofun hu
    · rw [heq]; exact h.move rfl rfl rfl hp nofun trivial

theorem Ledger.count (h : Ledger s) {message : List Byte} (hpc : s.pc = .count message) :
    Ledger (countMessage s message host) := by
  have hu : Untouched s := by simpa [hpc, LedgerAt] using h.here
  have hp := h.not_printed (by simp [hpc])
  by_cases hlen : message.length < 2 ^ 31
  · rw [countMessage, countChars_eq _ _ hlen]
    refine ⟨h.total, h.counts, ⟨hu.undoable, ?_, rfl, hlen⟩, by simp [goto, hp], fun he => ?_⟩
    · exact congrArg (addCounts · message) hu.settled
    · cases he
  · rw [countMessage, countChars, if_neg hlen]
    exact h.move rfl rfl rfl hp (by simp [goto]) trivial

theorem Ledger.send (h : Ledger s) {message : List Byte} {chars_count : BitVec 32}
    (hpc : s.pc = .send message chars_count) (res : Except ℤ ℕ) :
    Ledger (afterSend s message chars_count res host) := by
  have hc : Counted s message chars_count := by simpa [hpc, LedgerAt] using h.here
  have hp := h.not_printed (by simp [hpc])
  cases res with
  | ok _ => exact h.move rfl rfl rfl hp nofun hc
  | error errno =>
    obtain ⟨pc, heq, ⟨rfl, _⟩ | ⟨rfl, _⟩ | ⟨rfl, _⟩ | ⟨rfl, _⟩⟩ :=
      afterSend_error s message chars_count errno host
    · rw [heq]; exact h.move rfl rfl rfl hp nofun trivial
    · rw [heq]; exact h.move rfl rfl rfl hp nofun hc.1
    · rw [heq]; exact h.move rfl rfl rfl hp nofun hc
    · rw [heq]; exact h.move rfl rfl rfl hp nofun trivial

theorem Ledger.turn (h : Ledger s) {o : Io} (hs : turn host s s.pc o = some t) : Ledger t := by
  have hl := h.here
  generalize hpc : s.pc = pc at hs hl
  have hp : ∀ {pc'}, s.pc = pc' → (∀ code, pc' ≠ .exited code) → s.printed = none := by
    rintro _ rfl
    exact h.not_printed
  cases turn_move hs with
  | test | check =>
    cases hsig : s.sigint with
    | true => exact h.move rfl rfl rfl (hp hpc nofun) nofun trivial
    | false => exact h.move rfl rfl rfl (hp hpc nofun) nofun hl
  | clear | mask | enter => exact h.move rfl rfl rfl (hp hpc nofun) nofun hl
  | accept => exact ⟨h.total, h.counts, ⟨hl, rfl⟩, by simp [hp hpc nofun], nofun⟩
  | @testSocket connected_socket =>
    by_cases hc : connected_socket < 0
    · rw [if_pos hc]
      exact h.move rfl rfl rfl (hp hpc nofun) nofun trivial
    · rw [if_neg hc]
      exact h.move rfl rfl rfl (hp hpc nofun) nofun hl
  | recvLength hs => exact h.recvLength hpc hs
  | malloc =>
    unfold afterMalloc
    dsimp only
    split_ifs
    · exact h.move rfl rfl rfl (hp hpc nofun) nofun hl
    · exact h.move rfl rfl rfl (hp hpc nofun) nofun trivial
  | recvMessage hs => exact h.recvMessage hpc hs
  | count => exact h.count hpc
  | send => exact h.send hpc _
  | undo =>
    rw [duplicatePccTotal_zero]
    exact ⟨h.total, h.counts, ⟨rfl, hl⟩, by simp [goto, hp hpc nofun], nofun⟩
  | commit =>
    rw [duplicatePccTotal_one]
    obtain ⟨_, ht, hc, _⟩ := hl
    refine ⟨?_, ?_, rfl, by simp [goto, hp hpc nofun], nofun⟩
    · change s.totals.pccTotalTemp = _
      rw [ht, h.total, goto_committed, committedCounts_snoc]
    · simp only [goto_committed, List.mem_append, List.mem_singleton]
      rintro c (hm | rfl)
      · exact h.counts c hm
      · exact hc
  | @leave ending =>
    refine h.move rfl rfl rfl (hp hpc nofun) nofun ?_
    cases ending <;> exact hl
  | @unmask ending =>
    obtain ⟨hpc', ht, he, hc, hpr⟩ := unmaskSigint_ledger s ending
    refine h.move ht (by rw [he]) hc (hpr.trans (hp hpc nofun)) ?_ ?_ <;> rw [hpc']
    · split_ifs <;> nofun
    cases ending with
    | committed => exact hl
    | dropped => exact hl.settled
    | fatal => trivial
  | print => exact ⟨h.total, h.counts, trivial, fun _ _ => rfl, fun _ => rfl⟩
  | abort => exact h.move rfl rfl rfl (hp hpc nofun) nofun trivial

theorem ledger_reachable (h : (server host).Reachable s) : Ledger s := by
  refine h.invariant ?_ ?_
  · rintro s rfl
    exact ledger_start
  · intro s a t hi hs
    cases a with
    | sigint =>
      simp only [server, Machine.ofFun, step, Option.ite_none_right_eq_some,
        Option.some.injEq] at hs
      rw [← hs.2]
      exact hi.arriveSigint
    | io o => exact hi.turn hs

/-! ## The sums -/

theorem sum_mod_modEq {ι : Type*} (l : Finset ι) (f : ι → ℕ) (n : ℕ) :
    ∑ i ∈ l, f i % n ≡ ∑ i ∈ l, f i [MOD n] :=
  (Finset.sum_nat_mod l n f).symm

/-- The entries of `pcc_total` add up to the counts of the committed sessions. -/
theorem sum_committedCounts (committed : List (List Byte × BitVec 32))
    (h : ∀ c ∈ committed, c.2 = BitVec.ofNat 32 (printables c.1)) :
    ∑ i, (committedCounts committed i).toNat ≡ (committed.map (·.2.toNat)).sum [MOD 2 ^ 32] := by
  simp only [committedCounts, BitVec.toNat_ofNat]
  refine (sum_mod_modEq _ _ _).trans ?_
  induction committed with
  | nil => simp [Nat.ModEq]
  | cons c committed ih =>
    simp only [List.map_cons, List.sum_cons, Finset.sum_add_distrib, sum_count]
    refine Nat.ModEq.add ?_ (ih fun c hc => h c (List.mem_cons_of_mem _ hc))
    rw [h c List.mem_cons_self, BitVec.toNat_ofNat]
    exact (Nat.mod_modEq _ _).symm

/-- The arrays agree before every `accept`, they hold the committed sessions and nothing of a
dropped one, and no session indexes outside of them. -/
theorem totals_are_committed_sessions (h : (server host).Reachable s) :
    (s.pc = .accept → ∀ i, s.totals.pccTotalTemp i = s.totals.pccTotal i) ∧
    (∀ i, (s.totals.pccTotal i).toNat =
      (s.committed.map fun c => c.1.count (charAt i)).sum % 2 ^ 32) ∧
    (s.pc = .leave .dropped ∨ s.pc = .unmask .dropped → s.totals = s.exchange.before) ∧
    ∑ i, (s.totals.pccTotal i).toNat ≡ (s.committed.map (·.2.toNat)).sum [MOD 2 ^ 32] ∧
    s.pc ≠ .undefined .outOfBounds := by
  have hl := ledger_reachable h
  have hh := hl.here
  refine ⟨?_, ?_, ?_, ?_, ?_⟩
  · intro hpc
    rw [hpc] at hh
    exact fun i => congrFun hh i
  · intro i
    rw [hl.total, committedCounts, BitVec.toNat_ofNat]
  · rintro (hpc | hpc)
    · rw [hpc] at hh
      exact hh.2.symm
    · rw [hpc] at hh
      exact hh.2.symm
  · rw [hl.total]
    exact sum_committedCounts s.committed hl.counts
  · intro hpc
    rw [hpc] at hh
    exact hh

/-- One committed session with the message `A~`, and the next turn up to `accept`. -/
theorem totals_are_committed_sessions_sample :
    ∃ s, (server ⟨.little, true, false⟩).Reachable s ∧ s.pc = .accept ∧ (s.totals.pccTotal 33).toNat = 1 ∧
      ∀ i, s.totals.pccTotalTemp i = s.totals.pccTotal i := by
  have hrun : (Machine.perform (step ⟨.little, true, false⟩) .start
      (opening 4 ++ exchanging [0#8, 0#8, 0#8, 2#8] [65#8, 126#8] (fun _ => 7#8) [] ++
        closing ++ [.io .tau, .io .tau])).map (fun s => (s.pc, s.committed)) =
      some (.accept, [([65#8, 126#8], 2#32)]) := rfl
  obtain ⟨s, hs, hpc⟩ := Option.map_eq_some_iff.mp hrun
  have hreach := (Machine.run_ofFun.mpr hs).reachable
  rw [Prod.mk.injEq] at hpc
  refine ⟨s, hreach, hpc.1, ?_, (totals_are_committed_sessions hreach).1 hpc.1⟩
  rw [(totals_are_committed_sessions hreach).2.1, hpc.2]
  rfl

end OsCourse.Pcc
