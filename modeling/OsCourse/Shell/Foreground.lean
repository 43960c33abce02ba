import OsCourse.Shell.Reaping

/-! # Waiting for the foreground

`process_arglist` waits once for each child of a foreground command line, in the order of the
forks. Because of `WUNTRACED` a `waitpid` also returns for a child that is stopped, and nobody
asks for that child again.
-/

namespace OsCourse.Shell
open Foundations

variable {b : Boot} {s t u : State} {a : Action} {pid : ℕ}

/-- The child that a `waitpid` asks for, and its life at that moment. -/
def State.asked (s : State) : Action → List (ℕ × Life)
  | .waitpid =>
    (s.pc.wait.bind fun (pid, _) => s.children[pid]?.map fun c => (pid, c.life)).toList
  | _ => []

/-- A call of `process_arglist` that began in `s` has come to `t`, with what its `waitpid`s have
asked for. The children and signals go on meanwhile; at the prompt the call is over. -/
inductive Call (s : State) : List (ℕ × Life) → State → Prop
  | start : Call s [] s
  | snoc {asked : List (ℕ × Life)} {t u : State} {a : Action} (h : Call s asked t)
      (hprompt : t.pc ≠ .prompt) (hs : step t a = some u) : Call s (asked ++ t.asked a) u

/-- One step of a call, computed. -/
def callStep (x : List (ℕ × Life) × State) (a : Action) : Option (List (ℕ × Life) × State) :=
  if x.2.pc = .prompt then none else (step x.2 a).map fun u => (x.1 ++ x.2.asked a, u)

theorem Call.perform {asked : List (ℕ × Life)} {x : List (ℕ × Life) × State} {as : List Action}
    (h : Call s asked t) (hp : Machine.perform callStep (asked, t) as = some x) :
    Call s x.1 x.2 := by
  induction as generalizing asked t with
  | nil =>
    obtain rfl := Option.some.inj hp
    exact h
  | cons a as ih =>
    obtain ⟨y, hy, hp⟩ := Option.bind_eq_some_iff.mp hp
    obtain ⟨hprompt, hy⟩ := Option.ite_none_left_eq_some.mp hy
    obtain ⟨u, hu, rfl⟩ := Option.map_eq_some_iff.mp hy
    exact ih (h.snoc hprompt hu) hp

/-- In a call for a regular or piped command line, or outside of any call. -/
def Pc.Foreground : Pc → Prop
  | .ignoring arglist => (disclosePipeOrParallel arglist).1 ≠ .parallel
  | .forking _ background => background = false
  | .installing => False
  | _ => True

/-! ## The order of the waits -/

theorem Pc.foreground_of_fork {pc pc' : Pc} {kind : Kind} {arglist : List String}
    (hpc : pc.Foreground) (h : pc.fork pid = some (kind, arglist, pc')) :
    pc'.Foreground ∧ pc'.awaited = pc.awaited ++ [pid] := by
  cases pc with
  | forkingFirst | forkingSecond =>
    cases h
    exact ⟨trivial, rfl⟩
  | forking arglist background =>
    cases background with
    | true => cases hpc
    | false =>
      cases h
      exact ⟨trivial, rfl⟩
  | _ => cases h

theorem Pc.foreground_of_close {pc pc' : Pc} {d : ℕ} (h : pc.close = some (d, pc')) :
    pc'.Foreground := by
  cases pc with
  | closingRead | closingWrite =>
    cases h
    trivial
  | _ => cases h

theorem Pc.foreground_of_wait {pc pc' : Pc} (h : pc.wait = some (pid, pc')) : pc'.Foreground := by
  cases pc with
  | waitingFirst | waitingSecond | waiting =>
    cases h
    trivial
  | _ => cases h

theorem foreground_processArglist {arglist : List String}
    (h : (Pc.ignoring arglist).Foreground) : (processArglist arglist).Foreground := by
  unfold processArglist
  split
  case h_1 => trivial
  case h_2 hline => exact absurd (congrArg Prod.fst hline) h
  case h_3 => rfl

/-! ## A child that has been asked for -/

/-- What a child is after a `waitpid` that found `life`: reaped, or not if it was stopped, except
that nobody has to wait where `SIGCHLD` is ignored. -/
def Child.Settled (sigchld : Handler) (life : Life) (c : Child) : Prop :=
  (life ≠ .stopped → c.life = .reaped) ∧
    (life = .stopped → sigchld ≠ .SIG_IGN → c.life ≠ .reaped)

/-- Only a termination that the shell ignores reaps a child by itself. -/
theorem Child.Move.not_reaped {sigchld : Handler} {c c' : Child} {action : ChildAction}
    (h : c.Move sigchld action c') (hs : sigchld ≠ .SIG_IGN) : c'.life ≠ .reaped := by
  cases h with
  | prepare ok hlife =>
    cases ok <;> exact fun hr => by cases hlife.symm.trans hr
  | command ok hlife =>
    cases ok <;> exact fun hr => by cases hlife.symm.trans hr
  | exec hat =>
    intro hr
    obtain hlife | hlife := hat.alive <;> cases hlife.symm.trans hr
  | terminate =>
    rw [Child.terminated, if_neg hs]
    simp
  | stop => simp
  | resume => simp

theorem Child.Move.settled {sigchld : Handler} {c c' : Child} {action : ChildAction} {life : Life}
    (h : c.Move sigchld action c') (hi : c.Settled sigchld life) : c'.Settled sigchld life := by
  refine ⟨fun hne => ?_, fun _ hs => h.not_reaped hs⟩
  have halive := h.alive
  rw [hi.1 hne] at halive
  simp at halive

/-- The `waitpid` itself. -/
theorem Child.settled_reap (sigchld : Handler) {c : Child} (h : c.life ≠ .running) :
    c.reap.Settled sigchld c.life := by
  cases hlife : c.life with
  | running => exact absurd hlife h
  | stopped =>
    rw [Child.reap_of_ne (by rw [hlife]; decide)]
    exact ⟨fun hne => absurd rfl hne, fun _ _ => by rw [hlife]; decide⟩
  | zombie =>
    rw [Child.reap, if_pos hlife]
    exact ⟨fun _ => rfl, fun h => by cases h⟩
  | reaped =>
    rw [Child.reap_of_ne (by rw [hlife]; decide)]
    exact ⟨fun _ => hlife, fun h => by cases h⟩

/-! ## The call -/

/-- In a call that began in `s` the children it has made so far are those it has asked for,
followed by those it still waits for, in the order of their numbers. -/
structure Tended (s : State) (asked : List (ℕ × Life)) (t : State) : Prop where
  foreground : t.pc.Foreground
  sigchld : t.sigchld = s.sigchld
  le : s.children.length ≤ t.children.length
  pids : asked.map Prod.fst ++ t.pc.awaited =
    List.range' s.children.length (t.children.length - s.children.length)
  settled : ∀ x ∈ asked, ∃ c, t.children[x.1]? = some c ∧ c.Settled s.sigchld x.2

variable {asked : List (ℕ × Life)}

theorem Tended.mem_iff (h : Tended s asked t) :
    pid ∈ asked.map Prod.fst ∨ pid ∈ t.pc.awaited ↔
      s.children.length ≤ pid ∧ pid < t.children.length := by
  have hle := h.le
  rw [← List.mem_append, h.pids, List.mem_range'_1]
  omega

theorem Tended.lt (h : Tended s asked t) {x : ℕ × Life} (hx : x ∈ asked) :
    x.1 < t.children.length := (h.mem_iff.mp (Or.inl (List.mem_map_of_mem hx))).2

/-- A child that is still awaited has not been asked for. -/
theorem Tended.ne_of_mem (h : Tended s asked t) (hpid : pid ∈ t.pc.awaited) {x : ℕ × Life}
    (hx : x ∈ asked) : pid ≠ x.1 := by
  have hnodup : (asked.map Prod.fst ++ t.pc.awaited).Nodup := h.pids ▸ List.nodup_range'
  exact fun he => (List.nodup_append.mp hnodup).2.2 x.1 (List.mem_map_of_mem hx) pid hpid he.symm

/-- The shell goes on without a `fork` or a `waitpid`. -/
theorem Tended.same (h : Tended s asked t) (hpc : u.pc.Foreground)
    (hawaited : u.pc.awaited = t.pc.awaited) (hsigchld : u.sigchld = t.sigchld)
    (hchildren : u.children = t.children) : Tended s asked u where
  foreground := hpc
  sigchld := hsigchld.trans h.sigchld
  le := hchildren ▸ h.le
  pids := by rw [hawaited, hchildren, h.pids]
  settled := hchildren ▸ h.settled

theorem Tended.fork (h : Tended s asked t) {kind : Kind} {arglist : List String} {pc : Pc}
    (hpc : t.pc.fork t.children.length = some (kind, arglist, pc)) :
    Tended s asked (t.spawn kind arglist pc) := by
  obtain ⟨hforeground, hawaited⟩ := Pc.foreground_of_fork h.foreground hpc
  have hle := h.le
  have hlength : (t.spawn kind arglist pc).children.length = t.children.length + 1 := by
    rw [State.spawn, List.length_append, List.length_singleton]
  refine ⟨hforeground, h.sigchld, by omega, ?_, fun x hx => ?_⟩
  · have hlast : s.children.length + 1 * (t.children.length - s.children.length) =
        t.children.length := by omega
    rw [hlength, Nat.succ_sub hle, List.range'_concat, hlast, ← h.pids, List.append_assoc]
    exact congrArg (asked.map Prod.fst ++ ·) hawaited
  · obtain ⟨c, hc, hsettled⟩ := h.settled x hx
    exact ⟨c, (List.getElem?_append_left (h.lt hx)).trans hc, hsettled⟩

theorem Tended.wait (h : Tended s asked t) {pc : Pc} (hpc : t.pc.wait = some (pid, pc))
    (hlife : t.children[pid]?.map Child.life ≠ some .running) :
    Tended s (asked ++ t.asked .waitpid)
      { t with pc := pc, children := t.children.modify pid Child.reap } := by
  have hawaited := Pc.awaited_of_wait hpc
  have hmem : pid ∈ t.pc.awaited := hawaited ▸ List.mem_cons_self
  obtain ⟨c, hc⟩ : ∃ c, t.children[pid]? = some c :=
    ⟨_, List.getElem?_eq_getElem (h.mem_iff.mp (Or.inr hmem)).2⟩
  have hasked : t.asked .waitpid = [(pid, c.life)] := by
    rw [State.asked, hpc, Option.bind_some]
    dsimp only
    rw [hc]
    rfl
  rw [hc] at hlife
  refine ⟨Pc.foreground_of_wait hpc, h.sigchld, ?_, ?_, fun x hx => ?_⟩
  · rw [List.length_modify]
    exact h.le
  · rw [List.length_modify, hasked, List.map_append, List.append_assoc, ← h.pids, hawaited]
    rfl
  · rw [show (_ : List Child)[x.1]? = _ from List.getElem?_modify ..]
    rw [hasked, List.mem_append, List.mem_singleton] at hx
    obtain hx | rfl := hx
    · obtain ⟨c', hc', hsettled⟩ := h.settled x hx
      refine ⟨c', ?_, hsettled⟩
      rw [hc']
      exact congrArg some (if_neg (h.ne_of_mem hmem hx))
    · refine ⟨c.reap, ?_, Child.settled_reap s.sigchld fun hr => hlife (congrArg some hr)⟩
      rw [show t.children[(pid, c.life).1]? = _ from hc]
      exact congrArg some (if_pos rfl)

theorem Tended.child (h : Tended s asked t) {action : ChildAction} {c c' : Child}
    (hc : t.children[pid]? = some c) (hmove : c.Move t.sigchld action c') :
    Tended s asked (t.setChild pid c') := by
  have hlength : (t.setChild pid c').children.length = t.children.length := List.length_set ..
  refine ⟨h.foreground, h.sigchld, hlength ▸ h.le, ?_, fun x hx => ?_⟩
  · rw [hlength, ← h.pids]
    rfl
  · obtain ⟨d, hd, hsettled⟩ := h.settled x hx
    by_cases hpid : pid = x.1
    · subst hpid
      obtain rfl := Option.some.inj (hc.symm.trans hd)
      exact ⟨c', List.getElem?_set_self (List.getElem?_eq_some_iff.mp hc).1,
        (h.sigchld ▸ hmove).settled hsettled⟩
    · exact ⟨d, (List.getElem?_set_ne hpid).trans hd, hsettled⟩

/-- Every move of a call, as long as the shell lives. -/
theorem Move.tended (h : Move t a u) (hs : t.HandlerFree) (hprompt : t.pc ≠ .prompt)
    (hu : u.pc.Live) (hi : Tended s asked t) : Tended s (asked ++ t.asked a) u := by
  have hsilent : t.asked a = [] → Tended s asked u → Tended s (asked ++ t.asked a) u := by
    intro ha hi
    rwa [ha, List.append_nil]
  cases h with
  | blank hpc => exact absurd hpc hprompt
  | read hpc => exact absurd hpc hprompt
  | leave => exact absurd rfl hu.1
  | kill => exact absurd rfl hu.2
  | survive => exact hsilent rfl hi
  | ignore hpc =>
    have hforeground := hi.foreground
    rw [hpc] at hforeground
    refine hsilent rfl (hi.same (foreground_processArglist hforeground) ?_ rfl rfl)
    rw [hpc]
    exact awaited_processArglist _
  | pipe hpc => exact hsilent rfl (hi.same trivial (by rw [hpc]; rfl) rfl rfl)
  | fork hpc => exact hsilent rfl (hi.fork hpc)
  | close ok hpc =>
    exact hsilent rfl
      (hi.same (Pc.foreground_of_close hpc) (Pc.awaited_of_close hpc) rfl rfl)
  | wait hpc hlife => exact hi.wait hpc hlife
  | install hpc =>
    have hforeground := hi.foreground
    rw [hpc] at hforeground
    exact hforeground.elim
  | handle hlive handler => exact hs.elim handler
  | child hc hmove => exact hsilent rfl (hi.child hc hmove)

/-- What holds in the whole call, by induction on it. -/
theorem Call.tended {arglist : List String} (h : Call s asked t) (hs : s.HandlerFree)
    (hpc : s.pc = .ignoring arglist) (hline : (disclosePipeOrParallel arglist).1 ≠ .parallel) :
    t.HandlerFree ∧ (t.pc.Live → Tended s asked t) := by
  induction h with
  | start =>
    refine ⟨hs, fun _ => ⟨?_, rfl, le_rfl, ?_, fun _ hx => by cases hx⟩⟩
    · rw [hpc]
      exact hline
    · rw [hpc, Nat.sub_self]
      rfl
  | @snoc asked t u a h hprompt hstep ih =>
    obtain ⟨hfree, hi⟩ := ih
    have hmove := step_move hstep
    exact ⟨hmove.handlerFree hfree,
      fun hu => hmove.tended hfree hprompt hu (hi (hmove.live hu))⟩

/-- When `process_arglist` returns from a foreground command line, it has asked once for each of
its children, in the order of the forks. If no `waitpid` found its child stopped, then all of
them have terminated and are reaped; and only then, unless `SIGCHLD` is ignored. -/
theorem foreground_reaped_iff {arglist : List String} (h : (shell b).Reachable s)
    (hpc : s.pc = .ignoring arglist) (hline : (disclosePipeOrParallel arglist).1 ≠ .parallel)
    (hcall : Call s asked t) (ht : t.pc = .prompt) :
    asked.map Prod.fst =
      List.range' s.children.length (t.children.length - s.children.length) ∧
    ((∀ x ∈ asked, x.2 ≠ .stopped) →
      ∀ c ∈ t.children.drop s.children.length, c.life = .reaped) ∧
    (s.sigchld ≠ .SIG_IGN →
      (∀ c ∈ t.children.drop s.children.length, c.life = .reaped) →
        ∀ x ∈ asked, x.2 ≠ .stopped) := by
  have hi := (hcall.tended (handlerFree_of_reachable h) hpc hline).2 (by rw [ht]; decide)
  have hnone : t.pc.awaited = [] := by rw [ht]; rfl
  have hpids := hi.pids
  rw [hnone, List.append_nil] at hpids
  refine ⟨hpids, fun hended c hc => ?_, fun hsigchld hreaped x hx hstopped => ?_⟩
  · obtain ⟨k, hk⟩ := List.mem_iff_getElem?.mp hc
    rw [List.getElem?_drop] at hk
    have hlt := (List.getElem?_eq_some_iff.mp hk).1
    have hmem := hi.mem_iff.mpr ⟨Nat.le_add_right s.children.length k, hlt⟩
    rw [hnone] at hmem
    obtain ⟨x, hx, hxk⟩ := List.mem_map.mp (hmem.resolve_right List.not_mem_nil)
    obtain ⟨c', hc', hsettled⟩ := hi.settled x hx
    rw [hxk, hk] at hc'
    obtain rfl := Option.some.inj hc'
    exact hsettled.1 (hended x hx)
  · obtain ⟨c, hc, hsettled⟩ := hi.settled x hx
    obtain ⟨hle, _⟩ := hi.mem_iff.mp (Or.inl (List.mem_map_of_mem hx))
    refine hsettled.2 hstopped hsigchld (hreaped c (List.mem_iff_getElem?.mpr
      ⟨x.1 - s.children.length, ?_⟩))
    rw [List.getElem?_drop, Nat.add_sub_cancel' hle, hc]

/-- Both children of a pipe terminate, the first after a stop that no `waitpid` has seen. -/
theorem foreground_reaped_iff_sample : ∃ s t, (shell terminal).Reachable s ∧
    Call s [(0, .zombie), (1, .zombie)] t ∧ t.pc = .prompt ∧
    t.children.length = 2 ∧ ∀ c ∈ t.children, c.life = .reaped := by
  obtain ⟨s, hs⟩ : ∃ s, Machine.perform step terminal.state
      [.getline (some ["ls", "|", "wc"])] = some s := ⟨_, rfl⟩
  obtain ⟨x, hx⟩ : ∃ x, Machine.perform callStep ([], s)
      [.ignoreSigint true, .pipe (some (3, 4)), .fork true, .fork true, .child 0 .stop,
        .child 1 .terminate, .close true, .close true, .child 0 .resume, .child 0 .terminate,
        .waitpid, .waitpid] = some x := by
    cases hs
    exact ⟨_, rfl⟩
  have hcall : Call s x.1 x.2 := Call.start.perform hx
  have hreach : (shell terminal).Reachable s := ⟨_, Machine.run_ofFun.mpr hs⟩
  have hend : x.1 = [(0, .zombie), (1, .zombie)] ∧ x.2.pc = .prompt ∧ x.2.children.length = 2 ∧
      s.pc = .ignoring ["ls", "|", "wc"] ∧ s.children = [] := by
    cases hs
    cases hx
    exact ⟨rfl, rfl, rfl, rfl, rfl⟩
  obtain ⟨hasked, hprompt, htwo, hpc, hnone⟩ := hend
  obtain ⟨_, hreaped, _⟩ := foreground_reaped_iff hreach hpc (by decide) hcall hprompt
  rw [hasked, hnone] at hreaped
  exact ⟨s, x.2, hreach, hasked ▸ hcall, hprompt, htwo, hreaped (by decide)⟩

/-- The child of a foreground command is stopped, and `process_arglist` returns. -/
theorem stopped_child_stays : ∃ t, (shell terminal).Run
    [.getline (some ["ls"]), .ignoreSigint true, .fork true, .child 0 .stop, .waitpid] t ∧
    t.pc = .prompt ∧ ∃ c ∈ t.children, c.kind = .regular ∧ c.life = .stopped := by
  obtain ⟨t, ht⟩ : ∃ t, Machine.perform step terminal.state
      [.getline (some ["ls"]), .ignoreSigint true, .fork true, .child 0 .stop, .waitpid] =
        some t := ⟨_, rfl⟩
  refine ⟨t, Machine.run_ofFun.mpr ht, ?_⟩
  cases ht
  exact ⟨rfl, _, List.mem_cons_self, rfl, rfl⟩

end OsCourse.Shell
