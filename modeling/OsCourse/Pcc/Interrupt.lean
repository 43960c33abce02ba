import OsCourse.Pcc.Ledger

/-! # `SIGINT` and the sessions

The invariant that ties `sigint`, `client_flow`, the signal mask and the pending
signal together at every point of the loop, and what follows for the sessions that
are under way or yet to come when a `SIGINT` arrives.
-/

namespace OsCourse.Pcc
open Foundations

variable {host : Host} {s t : Server}

/-! ## Points of the program -/

/-- `client_flow` is 1. -/
def Pc.serving : Pc → Bool
  | .testSocket _ | .recvLength | .malloc _ | .recvMessage _ | .count _ | .send _ _ | .undo
  | .commit _ _ | .leave _ | .undefined _ | .crashed | .killed => true
  | _ => false

/-- The check after `accept` has been passed and the session is not over. -/
def Pc.inSession : Pc → Bool
  | .enter _ => true
  | pc => pc.serving

/-- Between the two calls of `sigprocmask`. -/
def Pc.masked : Pc → Bool
  | .check _ | .unmask _ => true
  | pc => pc.inSession

/-- Between sessions. -/
def Pc.looping : Pc → Bool
  | .test | .clear | .accept | .mask _ => true
  | _ => false

/-- The part of the server that signals depend on. -/
structure Control where
  sigint : Bool
  client_flow : Bool
  signal : SignalMask
  accepted : ℕ
  arrived : Option ℕ
  handled : List (Bool × Pc)

def Server.control (s : Server) : Control where
  sigint := s.sigint
  client_flow := s.client_flow
  signal := s.signal
  accepted := s.accepted
  arrived := s.arrived
  handled := s.handled

/-! ## The invariant -/

structure Disciplined (c : Control) (pc : Pc) : Prop where
  flow : c.client_flow = pc.serving
  masked : pc.masked = true → c.signal.blocked = true
  looping : pc.looping = true → c.signal.blocked = false
  accounted : c.signal.Accounted (c.arrived ≠ none) (c.sigint = true)
  handled : ∀ e ∈ c.handled, e.1 = false ∧ e.2.inSession = false
  heard : c.handled ≠ [] → c.sigint = true
  passed : pc.inSession = true → c.sigint = false
  first : ∀ k, c.arrived = some k → c.sigint = false → c.accepted = k
  returned : pc = .returned 0 ∨ pc = .exited 0 → c.sigint = true

theorem Pc.masked_of_inSession {pc : Pc} (h : pc.inSession = true) : pc.masked = true := by
  cases pc <;> first | exact h | rfl

theorem Pc.inSession_of_serving {pc : Pc} (h : pc.serving = true) : pc.inSession = true := by
  cases pc <;> first | exact h | rfl

theorem Pc.not_looping_of_serving {pc : Pc} (h : pc.serving = true) : pc.looping = false := by
  cases pc <;> first | rfl | cases h

/-- Nothing more is promised at `pc'` than at `pc`, as far as signals go. -/
def Pc.tamer (pc' pc : Pc) : Bool :=
  pc'.serving == pc.serving && (!pc'.masked || pc.masked) && (!pc'.looping || pc.looping) &&
    (!pc'.inSession || pc.inSession)

theorem Disciplined.move {c : Control} {pc pc' : Pc} (h : Disciplined c pc) (ht : pc'.tamer pc = true)
    (hr : pc' = .returned 0 ∨ pc' = .exited 0 → c.sigint = true) : Disciplined c pc' := by
  simp only [Pc.tamer, Bool.and_eq_true, Bool.or_eq_true, Bool.not_eq_true', beq_iff_eq] at ht
  obtain ⟨⟨⟨hs, hm⟩, hl⟩, hi⟩ := ht
  exact { h with
    flow := h.flow.trans hs.symm
    masked := fun hp => h.masked (hm.resolve_left (by simp [hp]))
    looping := fun hp => h.looping (hl.resolve_left (by simp [hp]))
    passed := fun hp => h.passed (hi.resolve_left (by simp [hp]))
    returned := hr }

theorem disciplined_start : Disciplined Server.start.control .test where
  flow := rfl
  masked := nofun
  looping _ := rfl
  accounted := SignalMask.accounted_clear fun h => absurd rfl h
  handled := nofun
  heard h := absurd rfl h
  passed := nofun
  first := nofun
  returned := by rintro (h | h) <;> cases h

/-- While a session is served nothing that signals depend on changes. -/
theorem turn_serving {o : Io} (hs : turn host s s.pc o = some t) (hpc : s.pc.serving = true) :
    (t.control = s.control ∧ t.pc.serving = true) ∨
      ∃ ending, s.pc = .leave ending ∧ t = { s with client_flow := false, pc := .unmask ending } := by
  generalize s.pc = pc at hs hpc
  have herr : ∀ (s : Server) errno {dropped flow : Pc}, dropped.serving = true → flow.serving = true →
      (onError s errno dropped flow).control = s.control ∧
        (onError s errno dropped flow).pc.serving = true := by
    intro s errno dropped flow hd hf
    obtain ⟨pc, heq, ⟨rfl, _⟩ | ⟨rfl, _⟩ | ⟨rfl, _⟩⟩ := onError_eq s errno dropped flow
    · exact ⟨by rw [heq]; rfl, by rw [heq]; exact hd⟩
    · exact ⟨by rw [heq]; rfl, by rw [heq]; exact hf⟩
    · exact ⟨by rw [heq]; rfl, by rw [heq]; rfl⟩
  cases turn_move hs with
  | testSocket => exact Or.inl ⟨rfl, by simp only [goto_pc]; split_ifs <;> rfl⟩
  | @recvLength res _ _ hs =>
    left
    cases res with
    | ok bytes =>
      simp only [afterRecvLength, Option.ite_none_right_eq_some, Option.some.injEq] at hs
      rw [← hs.2]
      exact ⟨rfl, rfl⟩
    | error errno =>
      cases hs
      exact herr _ errno rfl rfl
  | malloc =>
    left
    unfold afterMalloc
    dsimp only
    split_ifs <;> exact ⟨rfl, rfl⟩
  | @recvMessage _ res _ _ hs =>
    left
    cases res with
    | ok bytes =>
      simp only [afterRecvMessage, Option.ite_none_right_eq_some, Option.some.injEq] at hs
      rw [← hs.2]
      exact ⟨rfl, rfl⟩
    | error errno =>
      cases hs
      exact herr _ errno rfl rfl
  | count =>
    left
    unfold countMessage
    split <;> exact ⟨rfl, rfl⟩
  | @send _ _ res =>
    left
    cases res with
    | ok _ => exact ⟨rfl, rfl⟩
    | error errno =>
      obtain ⟨pc, heq, ⟨rfl, _⟩ | ⟨rfl, _⟩ | ⟨rfl, _⟩ | ⟨rfl, _⟩⟩ := afterSend_error s _ _ errno host <;>
        rw [heq] <;> exact ⟨rfl, rfl⟩
  | undo | commit => exact Or.inl ⟨rfl, rfl⟩
  | @leave ending => exact Or.inr ⟨ending, rfl, rfl⟩
  | _ => cases hpc

theorem Pc.serving_of_not_inSession {pc : Pc} (h : pc.inSession = false) : pc.serving = false := by
  cases hs : pc.serving with
  | false => rfl
  | true => rw [Pc.inSession_of_serving hs] at h; cases h

/-- Once `sigint` is set, only the mask has to fit the point that the program is at. -/
theorem Disciplined.of_sigint {c : Control} {pc : Pc} (hsig : c.sigint = true)
    (hflow : c.client_flow = false) (hpc : pc.inSession = false)
    (hmask : pc.masked = true → c.signal.blocked = true)
    (hloop : pc.looping = true → c.signal.blocked = false)
    (hpend : c.signal.pending = true → c.signal.blocked = true)
    (hh : ∀ e ∈ c.handled, e.1 = false ∧ e.2.inSession = false) : Disciplined c pc where
  flow := hflow.trans (Pc.serving_of_not_inSession hpc).symm
  masked := hmask
  looping := hloop
  accounted := ⟨hpend, fun _ => Or.inr hsig⟩
  handled := hh
  heard _ := hsig
  passed hin := by rw [hpc] at hin; cases hin
  first _ _ hno := by rw [hsig] at hno; cases hno
  returned _ := hsig

/-- The handler runs with `client_flow` cleared, outside of a session. -/
theorem Disciplined.handle (h : Disciplined s.control s.pc) (hpc : s.pc.inSession = false) :
    (sigintHandler s).sigint = true ∧ (sigintHandler s).client_flow = false ∧
      ∀ e ∈ (sigintHandler s).handled, e.1 = false ∧ e.2.inSession = false := by
  have hf : s.client_flow = false := h.flow.trans (Pc.serving_of_not_inSession hpc)
  refine ⟨by simp [sigintHandler, hf], hf, ?_⟩
  simp only [sigintHandler, List.mem_append, List.mem_singleton]
  rintro e (he | rfl)
  · exact h.handled e he
  · exact ⟨hf, hpc⟩

theorem arriveSigint_blocked (h : s.signal.blocked = true) :
    arriveSigint s = { s with signal := ⟨true, true⟩, arrived := s.arrived <|> some s.accepted } := by
  rw [arriveSigint, SignalMask.arrive_of_blocked h]

theorem Disciplined.arrive (h : Disciplined s.control s.pc) :
    Disciplined (arriveSigint s).control (arriveSigint s).pc := by
  cases hb : s.signal.blocked with
  | true =>
    rw [arriveSigint_blocked hb]
    refine { h with
      masked := fun _ => rfl
      looping := fun hl => ?_
      accounted := SignalMask.accounted_pending
      first := fun k hk hsig => ?_ }
    · rw [← show s.control.signal.blocked = true from hb]
      exact h.looping hl
    · change (s.arrived <|> some s.accepted) = some k at hk
      cases ha : s.arrived with
      | none =>
        rw [ha] at hk
        exact Option.some.inj hk
      | some j =>
        rw [ha] at hk
        exact h.first k (ha.trans hk) hsig
  | false =>
    have hns : s.pc.inSession = false := by
      cases hin : s.pc.inSession with
      | false => rfl
      | true =>
        have hm := h.masked (Pc.masked_of_inSession hin)
        rw [show s.control.signal.blocked = false from hb] at hm
        cases hm
    obtain ⟨hsig, hf, hh⟩ := h.handle hns
    have harr : arriveSigint s = { sigintHandler s with
        arrived := s.arrived <|> some s.accepted } := by
      rw [arriveSigint, SignalMask.arrive_of_open hb]
      rfl
    rw [harr]
    exact .of_sigint hsig hf hns h.masked h.looping h.accounted.blocked hh

theorem Disciplined.unmask {ending : Ending} (h : Disciplined s.control s.pc)
    (hpc : s.pc = .unmask ending) :
    Disciplined (unmaskSigint s ending).control (unmaskSigint s ending).pc := by
  have hns : s.pc.inSession = false := by rw [hpc]; rfl
  have hflow : s.client_flow = false := h.flow.trans (Pc.serving_of_not_inSession hns)
  have hout : ∀ pc : Pc, pc = (if ending = .fatal then .returned 1 else .test) →
      pc.masked = false ∧ pc.inSession = false ∧ ¬ (pc = .returned 0 ∨ pc = .exited 0) := by
    rintro _ rfl
    split_ifs <;> exact ⟨rfl, rfl, by simp⟩
  obtain ⟨hm, hin, hr⟩ := hout _ (unmaskSigint_ledger s ending).1
  generalize hpc' : (unmaskSigint s ending).pc = pc' at hm hin hr ⊢
  cases hp : s.signal.pending with
  | false =>
    have hc : (unmaskSigint s ending).control = { s.control with signal := .clear } := by
      rw [unmaskSigint, SignalMask.unblock_of_idle hp]
      rfl
    rw [hc]
    exact { h with
      flow := hflow.trans (Pc.serving_of_not_inSession hin).symm
      masked := fun h => by rw [hm] at h; cases h
      looping := fun _ => rfl
      accounted := SignalMask.accounted_clear (h.accounted.handled_of_idle hp)
      passed := fun h => by rw [hin] at h; cases h
      returned := fun h => absurd h hr }
  | true =>
    obtain ⟨hsig, hf, hh⟩ := h.handle hns
    have hc : (unmaskSigint s ending).control = { (sigintHandler s).control with signal := .clear } := by
      rw [unmaskSigint, SignalMask.unblock_of_pending hp]
      rfl
    rw [hc]
    exact .of_sigint hsig hf hin (fun h => by rw [hm] at h; cases h) (fun _ => rfl) nofun hh

theorem Disciplined.turn (h : Disciplined s.control s.pc) {o : Io}
    (hs : turn host s s.pc o = some t) : Disciplined t.control t.pc := by
  cases hserv : s.pc.serving with
  | true =>
    obtain ⟨hc, ht⟩ | ⟨ending, hpc, rfl⟩ := turn_serving hs hserv
    · rw [hc]
      have hin := Pc.inSession_of_serving hserv
      have hm := Pc.masked_of_inSession hin
      have hl := Pc.not_looping_of_serving ht
      refine h.move (by simp [Pc.tamer, ht, hserv, hin, hm, hl]) fun hr => ?_
      rcases hr with hr | hr <;> rw [hr] at ht <;> cases ht
    · rw [hpc] at h
      exact { h with
              flow := rfl
              looping := fun hl => by cases hl
              passed := fun hp => by cases hp
              returned := by rintro (hr | hr) <;> cases hr }
  | false =>
    generalize hpc : s.pc = pc at hs h hserv
    cases turn_move hs with
    | test =>
      cases hsig : s.sigint with
      | true => exact h.move rfl fun _ => hsig
      | false => exact h.move rfl (by rintro (hr | hr) <;> cases hr)
    | clear =>
      have hm : Disciplined s.control .accept := h.move rfl (by rintro (hr | hr) <;> cases hr)
      exact { hm with flow := rfl }
    | @accept connected_socket =>
      have hm : Disciplined s.control (.mask connected_socket) :=
        h.move rfl (by rintro (hr | hr) <;> cases hr)
      -- an arrival before this `accept` has already set `sigint`
      refine { hm with first := fun k hk hsig => ?_ }
      have := h.accounted.handled_of_open (h.looping rfl)
        (show s.arrived ≠ none by rw [show s.arrived = some k from hk]; simp)
      rw [show s.control.sigint = false from hsig] at this
      cases this
    | mask =>
      exact { h with
              masked := fun _ => rfl
              looping := fun hl => by cases hl
              accounted := h.accounted.block
              passed := fun hp => by cases hp
              returned := by rintro (hr | hr) <;> cases hr }
    | check =>
      cases hsig : s.sigint with
      | true => exact h.move rfl fun _ => hsig
      | false =>
        exact { h with
                flow := h.flow
                masked := fun _ => h.masked rfl
                looping := fun hl => by cases hl
                passed := fun _ => hsig
                returned := by rintro (hr | hr) <;> cases hr }
    | enter =>
      exact { h with
              flow := rfl
              masked := fun _ => h.masked rfl
              looping := fun hl => by cases hl
              passed := fun _ => h.passed rfl
              returned := by rintro (hr | hr) <;> cases hr }
    | unmask =>
      rw [← hpc] at h
      exact h.unmask hpc
    | print => exact h.move rfl fun _ => h.returned (Or.inl rfl)
    | abort => exact h.move rfl (by rintro (hr | hr) <;> cases hr)
    | _ => cases hserv

theorem disciplined_reachable (h : (server host).Reachable s) : Disciplined s.control s.pc := by
  refine h.invariant (I := fun s => Disciplined s.control s.pc) ?_ ?_
  · rintro s rfl
    exact disciplined_start
  · intro s a t hi hs
    cases a with
    | sigint =>
      simp only [server, Machine.ofFun, step, Option.ite_none_right_eq_some,
        Option.some.injEq] at hs
      rw [← hs.2]
      exact hi.arrive
    | io o => exact hi.turn hs

/-! ## What it means for the sessions -/

/-- No `SIGINT` is swallowed, none is missed by the loop condition, none reaches into a session,
the only session that it can still let through is the one already accepted, and a loop that it ends
is followed by one line for each of the 95 characters, with its count in the committed sessions. -/
theorem sigint_respects_sessions (h : (server host).Reachable s) :
    (∀ e ∈ s.handled, e.1 = false ∧ e.2.inSession = false) ∧
    (s.handled ≠ [] → s.sigint = true) ∧
    (s.pc = .test → s.arrived ≠ none → s.sigint = true) ∧
    (s.pc.inSession = true → arriveSigint s =
      { s with signal := ⟨true, true⟩, arrived := s.arrived <|> some s.accepted }) ∧
    (∀ message k, s.pc = .count message → s.arrived = some k → s.accepted = k) ∧
    (s.pc = .returned 0 → s.sigint = true ∧ ∃ t, step host s (.io .tau) = some t ∧ t.pc = .exited 0) ∧
    (s.pc = .exited 0 → s.sigint = true ∧ s.printed = some (List.ofFn fun i : Fin 95 =>
      (((charAt i).toNat : ℤ), committedCounts s.committed i))) ∧
    (s.printed ≠ none → s.pc = .exited 0) := by
  have hd := disciplined_reachable h
  have hl := ledger_reachable h
  refine ⟨hd.handled, hd.heard, ?_, ?_, ?_, fun hpc => ⟨hd.returned (Or.inl hpc), ?_⟩,
    fun hpc => ⟨hd.returned (Or.inr hpc), ?_⟩, fun hne => ?_⟩
  · intro hpc ha
    rw [hpc] at hd
    exact hd.accounted.handled_of_open (hd.looping rfl) ha
  · intro hin
    exact arriveSigint_blocked (hd.masked (Pc.masked_of_inSession hin))
  · intro message k hpc ha
    rw [hpc] at hd
    exact hd.first k ha (hd.passed rfl)
  · rw [step, hpc]
    exact ⟨_, rfl, rfl⟩
  · rw [hl.exits hpc, printChars_eq, hl.total]
    rfl
  · obtain ⟨lines, hp⟩ := Option.ne_none_iff_exists'.mp hne
    exact hl.printed lines hp

/-- A `SIGINT` inside the first session waits for its end, and the server then prints. -/
theorem sigint_respects_sessions_sample :
    ∃ s, (server ⟨.big, false, false⟩).Reachable s ∧ s.handled = [(false, .unmask .committed)] ∧
      s.printed = some (List.ofFn fun i : Fin 95 =>
        (((charAt i).toNat : ℤ), committedCounts [([33#8], 1#32)] i)) := by
  have hrun : (Machine.perform (step ⟨.big, false, false⟩) .start
      (opening 4 ++ .sigint :: exchanging [0#8, 0#8, 0#8, 1#8] [33#8] (fun _ => 0#8) [] ++
        closing ++ [.io .tau, .io .tau])).map (fun s => (s.handled, s.pc, s.committed)) =
      some ([(false, .unmask .committed)], .exited 0, [([33#8], 1#32)]) := rfl
  obtain ⟨s, hs, hst⟩ := Option.map_eq_some_iff.mp hrun
  simp only [Prod.mk.injEq] at hst
  obtain ⟨hhandled, hpc, hcommitted⟩ := hst
  have hreach := (Machine.run_ofFun.mpr hs).reachable
  refine ⟨s, hreach, hhandled, ?_⟩
  rw [((sigint_respects_sessions hreach).2.2.2.2.2.2.1 hpc).2, hcommitted]

end OsCourse.Pcc
