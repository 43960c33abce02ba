import OsCourse.Shell.Moves

/-! # Who waits for a child

The shell waits for the children of a foreground command. It installs no handler for `SIGCHLD`, so
that nobody waits for any other child, unless `SIGCHLD` was ignored when the shell was started and
no background command has been run since.
-/

namespace OsCourse.Shell
open Foundations

variable {b : Boot} {s t : State} {a : Action} {pid : ℕ}

/-- The children that the shell will still wait for. -/
def Pc.awaited : Pc → List ℕ
  | .forkingSecond _ first _ => [first]
  | .closingRead _ first second => [first, second]
  | .closingWrite _ first second => [first, second]
  | .waitingFirst first second => [first, second]
  | .waitingSecond second => [second]
  | .waiting pid => [pid]
  | _ => []

/-- The children that have terminated, with the `SIGCHLD` delivered, and were not waited for. -/
def State.zombies (s : State) : ℕ :=
  s.children.countP fun c => decide (c.life = .zombie) && c.announced

/-- At a prompt: no such child is a background child, and there are no more than at the start. -/
structure State.AllReaped (s : State) : Prop where
  background : ∀ c ∈ s.children, c.kind = .background → c.life = .zombie → c.announced = false
  zombies : s.zombies = 0

/-- If the step ends a child of a live shell whose `SIGCHLD` has the default action, then the shell
is about to wait for that child. -/
def Attended (s : State) : Action → Prop
  | .child pid action =>
    s.pc.Live → s.sigchld = .SIG_DFL → ∀ c ∈ s.children[pid]?, action.Ends c → pid ∈ s.pc.awaited
  | _ => True

instance (s : State) : DecidablePred (Attended s)
  | .child _ _ => inferInstanceAs (Decidable (_ → _ → ∀ _ ∈ _, _ → _))
  | .getline _ | .ignoreSigint _ | .pipe _ | .fork _ | .close _ | .waitpid | .installLongclaw _
  | .sigint | .sigchld => inferInstanceAs (Decidable True)

/-! ## Steps -/

theorem Pc.awaited_of_fork {pc pc' : Pc} {kind : Kind} {arglist : List String}
    (h : pc.fork pid = some (kind, arglist, pc')) :
    pc.awaited ⊆ pc'.awaited ∧ pc'.awaited ⊆ pid :: pc.awaited := by
  cases pc with
  | forkingFirst | forkingSecond =>
    cases h
    simp [Pc.awaited]
  | forking arglist background =>
    cases background <;> cases h <;> simp [Pc.awaited]
  | _ => cases h

theorem Pc.awaited_of_close {pc pc' : Pc} {d : ℕ} (h : pc.close = some (d, pc')) :
    pc'.awaited = pc.awaited := by
  cases pc with
  | closingRead | closingWrite => cases h; rfl
  | _ => cases h

theorem Pc.awaited_of_wait {pc pc' : Pc} (h : pc.wait = some (pid, pc')) :
    pc.awaited = pid :: pc'.awaited := by
  cases pc with
  | waitingFirst | waitingSecond | waiting => cases h; rfl
  | _ => cases h

theorem awaited_processArglist (arglist : List String) : (processArglist arglist).awaited = [] := by
  unfold processArglist
  split <;> rfl

theorem Child.Move.alive {sigchld : Handler} {c c' : Child} {action : ChildAction}
    (h : c.Move sigchld action c') : c.life = .running ∨ c.life = .stopped := by
  cases h with
  | prepare ok hlife => exact Or.inl hlife
  | command ok hlife => exact Or.inl hlife
  | exec hat => exact hat.alive
  | terminate hlife => exact hlife
  | stop hlife => exact Or.inl hlife
  | resume hlife => exact Or.inr hlife

theorem Child.Move.of_ends {sigchld : Handler} {c c' : Child} {action : ChildAction}
    (h : c.Move sigchld action c') (hends : action.Ends c) : c' = c.terminated sigchld := by
  cases h with
  | exec hat hok => exact absurd hok hends
  | terminate => rfl
  | _ => exact hends.elim

/-- A zombie comes from a termination that the shell does not ignore. -/
theorem Child.Move.of_zombie {sigchld : Handler} {c c' : Child} {action : ChildAction}
    (h : c.Move sigchld action c') (hz : c'.life = .zombie) :
    action.Ends c ∧ sigchld ≠ .SIG_IGN := by
  have halive := h.alive
  cases h with
  | prepare ok hlife =>
    cases ok <;> cases hlife.symm.trans hz
  | command ok hlife =>
    cases ok <;> cases hlife.symm.trans hz
  | exec =>
    rw [show c.life = _ from hz] at halive
    simp at halive
  | terminate hlife hends =>
    refine ⟨hends, ?_⟩
    rintro rfl
    cases hz
  | stop => cases hz
  | resume => cases hz

/-! ## While every termination is attended -/

/-- The shell will wait for every zombie. -/
def State.Minded (s : State) : Prop :=
  ∀ pid c, s.children[pid]? = some c → c.life = .zombie → s.pc.Live → pid ∈ s.pc.awaited

theorem State.Minded.of_same (h : s.Minded) (hchildren : t.children = s.children)
    (hlive : t.pc.Live → s.pc.Live) (hsub : s.pc.awaited ⊆ t.pc.awaited) : t.Minded :=
  fun pid c hc hz ht => hsub (h pid c (hchildren ▸ hc) hz (hlive ht))

theorem Move.minded (h : Move s a t) (hs : s.HandlerFree) (hi : s.Minded) (ha : Attended s a) :
    t.Minded := by
  have hlive : t.pc.Live → s.pc.Live := h.live
  cases h with
  | blank | survive => exact hi
  | read hpc => exact hi.of_same rfl hlive (by rw [hpc]; exact List.nil_subset _)
  | leave => exact fun _ _ _ _ ht => absurd rfl ht.1
  | kill => exact fun _ _ _ _ ht => absurd rfl ht.2
  | ignore hpc => exact hi.of_same rfl hlive (by rw [hpc]; exact List.nil_subset _)
  | pipe hpc => exact hi.of_same rfl hlive (by rw [hpc]; exact List.nil_subset _)
  | install hpc => exact hi.of_same rfl hlive (by rw [hpc]; exact List.nil_subset _)
  | @fork kind arglist pc hpc =>
    intro pid c hc hz ht
    obtain hlt | hge := lt_or_ge pid s.children.length
    · rw [show (s.spawn _ _ _).children[pid]? = _ from List.getElem?_append_left hlt] at hc
      exact (Pc.awaited_of_fork hpc).1 (hi pid c hc hz (hlive ht))
    · rw [show (s.spawn _ _ _).children[pid]? = _ from List.getElem?_append_right hge] at hc
      rw [List.mem_singleton.mp (List.mem_of_getElem? hc)] at hz
      cases hz
  | close ok hpc =>
    exact hi.of_same rfl hlive (by rw [← Pc.awaited_of_close hpc]; exact List.Subset.refl _)
  | @wait pid' pc hpc hlife =>
    intro pid c hc hz ht
    rw [show (_ : List Child)[pid]? = _ from List.getElem?_modify ..] at hc
    obtain ⟨c₀, hc₀, rfl⟩ := Option.map_eq_some_iff.mp hc
    by_cases hpid : pid' = pid
    · rw [if_pos hpid, Child.reap] at hz
      split at hz
      case isTrue => cases hz
      case isFalse hne => exact absurd hz hne
    · rw [if_neg hpid] at hz
      have hmem := hi pid c₀ hc₀ hz (hlive ht)
      rw [Pc.awaited_of_wait hpc] at hmem
      exact (List.mem_cons.mp hmem).resolve_left (Ne.symm hpid)
  | handle hlive handler => exact hs.elim handler
  | @child pid' action c₀ c' hc₀ hmove =>
    intro pid c hc hz ht
    by_cases hpid : pid' = pid
    · subst hpid
      obtain rfl := Option.some.inj
        ((List.getElem?_set_self (List.getElem?_eq_some_iff.mp hc₀).1).symm.trans hc)
      obtain ⟨hends, hign⟩ := hmove.of_zombie hz
      refine ha ht ?_ c₀ hc₀ hends
      cases hsigchld : s.sigchld with
      | SIG_DFL => rfl
      | SIG_IGN => exact absurd hsigchld hign
      | valyrian_steel => exact absurd hsigchld hs.sigchld
    · rw [show (s.setChild _ _).children[pid]? = _ from List.getElem?_set_ne hpid] at hc
      exact hi pid c hc hz ht

theorem minded_of_run {as : List Action}
    (h : ((shell b).guarded fun s a _ => Attended s a).Run as s) : s.Minded := by
  refine h.history_invariant (I := fun _ s => s.Minded) ?_ ?_
  · rintro _ rfl _ _ hc
    cases hc
  · intro as s a t hrun hi hstep
    exact (step_move hstep.1).minded (handlerFree_of_reachable hrun.of_guarded.reachable) hi hstep.2

theorem State.Minded.allReaped (h : s.Minded) (hpc : s.pc = .prompt) : s.AllReaped := by
  have hnone : ∀ c ∈ s.children, c.life ≠ .zombie := by
    intro c hc hz
    obtain ⟨pid, hpid⟩ := List.mem_iff_getElem?.mp hc
    have hmem := h pid c hpid hz (by rw [hpc]; decide)
    rw [hpc] at hmem
    cases hmem
  refine ⟨fun c hc _ hz => absurd hz (hnone c hc), List.countP_eq_zero.mpr fun c hc => ?_⟩
  simp [hnone c hc]

/-! ## A termination that is not attended -/

/-- The child has terminated, its `SIGCHLD` has been delivered, and it was not waited for. -/
def State.Zombie (s : State) (pid : ℕ) : Prop :=
  ∃ c, s.children[pid]? = some c ∧ c.life = .zombie ∧ c.announced = true

/-- Nobody will wait for the zombie. -/
structure State.Forsaken (s : State) (pid : ℕ) : Prop where
  handler : s.HandlerFree
  zombie : s.Zombie pid
  awaited : pid ∉ s.pc.awaited

theorem Move.forsaken (h : Move s a t) (hi : s.Forsaken pid) : t.Forsaken pid := by
  obtain ⟨c, hc, hz, hannounced⟩ := hi.zombie
  have hlt := (List.getElem?_eq_some_iff.mp hc).1
  have hsame : t.children[pid]? = some c → pid ∉ t.pc.awaited → t.Forsaken pid := fun hc ht =>
    ⟨h.handlerFree hi.handler, ⟨c, hc, hz, hannounced⟩, ht⟩
  cases h with
  | blank | survive => exact hi
  | read | leave | kill | pipe | install => exact hsame hc List.not_mem_nil
  | ignore => exact hsame hc (by rw [awaited_processArglist]; exact List.not_mem_nil)
  | fork hpc =>
    refine hsame ((List.getElem?_append_left hlt).trans hc) fun hmem => ?_
    obtain rfl | hmem := List.mem_cons.mp ((Pc.awaited_of_fork hpc).2 hmem)
    · exact lt_irrefl _ hlt
    · exact hi.awaited hmem
  | close ok hpc => exact hsame hc (by rw [Pc.awaited_of_close hpc]; exact hi.awaited)
  | @wait pid' pc hpc =>
    have hawaited := hi.awaited
    rw [Pc.awaited_of_wait hpc, List.mem_cons, not_or] at hawaited
    refine hsame ?_ hawaited.2
    rw [show (_ : List Child)[pid]? = _ from List.getElem?_modify .., hc]
    exact congrArg some (if_neg (Ne.symm hawaited.1))
  | handle hlive handler => exact hi.handler.elim handler
  | @child pid' action c₀ c' hc₀ hmove =>
    by_cases hpid : pid' = pid
    · subst hpid
      obtain rfl := Option.some.inj (hc.symm.trans hc₀)
      have halive := hmove.alive
      rw [hz] at halive
      simp at halive
    · exact hsame ((List.getElem?_set_ne hpid).trans hc) hi.awaited

theorem State.Forsaken.later (hi : s.Forsaken pid) (h : (shell b).Later s t) : t.Forsaken pid :=
  h.invariant (I := (State.Forsaken · pid))
    (fun _ _ _ hi hstep => (step_move hstep).forsaken hi) hi

theorem forsaken_of_unattended {action : ChildAction} (hs : s.HandlerFree)
    (h : step s (.child pid action) = some t) (hn : ¬ Attended s (.child pid action)) :
    t.Forsaken pid := by
  unfold Attended at hn
  simp only [not_forall] at hn
  obtain ⟨hlive, hsigchld, c, hc, hends, hawaited⟩ := hn
  obtain ⟨c₀, c', hc₀, hmove, rfl⟩ := step_child h
  obtain rfl := Option.some.inj (hc₀.symm.trans hc)
  refine ⟨⟨hs.sigint, hs.sigchld⟩, ?_, hawaited⟩
  rw [hmove.of_ends hends, hsigchld]
  exact ⟨_, List.getElem?_set_self (List.getElem?_eq_some_iff.mp hc).1, rfl, rfl⟩

/-! ## The next return of `process_arglist` -/

/-- `process_arglist` can return. -/
def CanReturn (b : Boot) (s : State) : Prop :=
  ∃ u v a, (shell b).Later s u ∧ step u a = some v ∧ u.pc ≠ .prompt ∧ v.pc = .prompt

theorem CanReturn.head (h : step s a = some t) (ht : CanReturn b t) : CanReturn b s := by
  obtain ⟨u, v, a', hlater, hreturn⟩ := ht
  exact ⟨u, v, a', hlater.head ⟨a, h⟩, hreturn⟩

theorem CanReturn.last (h : step s a = some t) (hs : s.pc ≠ .prompt) (ht : t.pc = .prompt) :
    CanReturn b s := ⟨s, t, a, .refl, h, hs, ht⟩

/-- Every child can terminate, so that no `waitpid` has to last. -/
theorem canReturn_of_wait {pc pc' : Pc} (hpc : s.pc = pc) (hwait : pc.wait = some (pid, pc'))
    (h : ∀ t, t.pc = pc' → t.pc = .prompt ∨ CanReturn b t) : CanReturn b s := by
  have hprompt : s.pc ≠ .prompt := hpc ▸ (Pc.entered_of_wait hwait).prompt
  have hdone : ∀ u : State, u.pc = s.pc → u.children[pid]?.map Child.life ≠ some .running →
      CanReturn b u := by
    intro u hu hlife
    have hstep : step u .waitpid =
        some { u with pc := pc', children := u.children.modify pid Child.reap } := by
      rw [step, hu, hpc, hwait, Option.bind_some]
      dsimp only
      rw [State.waitpid, if_neg hlife]
      rfl
    obtain htprompt | hreturn := h { u with pc := pc', children := _ } rfl
    · exact .last hstep (hu ▸ hprompt) htprompt
    · exact hreturn.head hstep
  by_cases hlife : s.children[pid]?.map Child.life = some .running
  · obtain ⟨c, hc, hrunning⟩ := Option.map_eq_some_iff.mp hlife
    have hstep : step s (.child pid .terminate) =
        some (s.setChild pid (c.terminated s.sigchld)) := by
      rw [step, hc, Option.bind_some, Child.step, if_pos (Or.inl hrunning)]
      rfl
    have hended : (s.setChild pid (c.terminated s.sigchld)).children[pid]?.map Child.life ≠
        some .running := by
      rw [State.setChild, List.getElem?_set_self (List.getElem?_eq_some_iff.mp hc).1]
      unfold Child.terminated
      split <;> simp
    exact (hdone (s.setChild pid _) rfl hended).head hstep
  · exact hdone s rfl hlife

theorem canReturn_of_fork {kind : Kind} {arglist : List String} {pc pc' : Pc} (hpc : s.pc = pc)
    (hfork : pc.fork s.children.length = some (kind, arglist, pc'))
    (h : ∀ t, t.pc = pc' → CanReturn b t) : CanReturn b s := by
  refine (h (s.spawn kind arglist pc') rfl).head (a := .fork true) ?_
  rw [step, hpc, hfork]
  rfl

theorem canReturn_of_close {d : ℕ} {pc pc' : Pc} (hpc : s.pc = pc)
    (hclose : pc.close = some (d, pc')) (h : ∀ t, t.pc = pc' → CanReturn b t) : CanReturn b s := by
  refine (h { s with pc := pc', files := s.files.close d } rfl).head (a := .close true) ?_
  rw [step, hpc, hclose]
  rfl

theorem canReturn_of_waitingFirst {first second : ℕ} (hpc : s.pc = .waitingFirst first second) :
    CanReturn b s := by
  refine canReturn_of_wait hpc rfl fun t ht => Or.inr ?_
  exact canReturn_of_wait ht rfl fun _ hu => Or.inl hu

theorem canReturn_of_closingRead {p : Descriptors} {first second : ℕ}
    (hpc : s.pc = .closingRead p first second) : CanReturn b s := by
  refine canReturn_of_close hpc rfl fun t ht => ?_
  exact canReturn_of_close ht rfl fun u hu => canReturn_of_waitingFirst hu

theorem canReturn_of_forkingFirst {p : Descriptors} {command1 command2 : List String}
    (hpc : s.pc = .forkingFirst p command1 command2) : CanReturn b s := by
  refine canReturn_of_fork hpc rfl fun t ht => ?_
  exact canReturn_of_fork ht rfl fun u hu => canReturn_of_closingRead hu

theorem canReturn_of_installing (hpc : s.pc = .installing) : CanReturn b s := by
  refine .last (a := .installLongclaw true) (t := { s with pc := .prompt, sigchld := .SIG_DFL }) ?_
    (by rw [hpc]; decide) rfl
  rw [step, if_neg (not_not.mpr hpc)]
  rfl

theorem canReturn_of_forking {arglist : List String} {background : Bool}
    (hpc : s.pc = .forking arglist background) : CanReturn b s := by
  cases background with
  | true => exact canReturn_of_fork hpc rfl fun t ht => canReturn_of_installing ht
  | false =>
    refine canReturn_of_fork hpc rfl fun t ht => ?_
    exact canReturn_of_wait ht rfl fun _ hu => Or.inl hu

/-- A `pipe` can succeed. -/
def State.Room (s : State) : Prop :=
  ∃ read write, read ≠ write ∧ s.files read = none ∧ s.files write = none

theorem canReturn_of_piping {command1 command2 : List String} (hroom : s.Room)
    (hpc : s.pc = .piping command1 command2) : CanReturn b s := by
  obtain ⟨read, write, hunused⟩ := hroom
  refine (canReturn_of_forkingFirst (s := s.openPipe read write command1 command2) rfl).head
    (a := .pipe (some (read, write))) ?_
  simp only [step, hpc]
  exact if_pos hunused

theorem canReturn_of_ignoring {arglist : List String} (hroom : s.Room)
    (hpc : s.pc = .ignoring arglist) : CanReturn b s := by
  have hstep : step s (.ignoreSigint true) =
      some { s with pc := processArglist arglist, sigint := handleSigint 0 } := by
    simp only [step, hpc]
    rfl
  refine CanReturn.head hstep ?_
  generalize ht : ({ s with pc := processArglist arglist, sigint := handleSigint 0 } : State) = t
  have htroom : t.Room := ht ▸ hroom
  have htpc : t.pc = processArglist arglist := ht ▸ rfl
  unfold processArglist at htpc
  split at htpc
  · exact canReturn_of_piping htroom htpc
  · exact canReturn_of_forking htpc
  · exact canReturn_of_forking htpc

/-- From every state of a live shell `process_arglist` can be made to return. -/
theorem canReturn (hlive : s.pc.Live) (hroom : s.Room) : CanReturn b s := by
  cases hpc : s.pc with
  | prompt =>
    refine (canReturn_of_ignoring (s := { s with pc := .ignoring ["x"] }) hroom rfl).head
      (a := .getline (some ["x"])) ?_
    simp only [step, hpc]
    rfl
  | ignoring => exact canReturn_of_ignoring hroom hpc
  | piping => exact canReturn_of_piping hroom hpc
  | forkingFirst => exact canReturn_of_forkingFirst hpc
  | forkingSecond =>
    exact canReturn_of_fork hpc rfl fun u hu => canReturn_of_closingRead hu
  | closingRead => exact canReturn_of_closingRead hpc
  | closingWrite =>
    exact canReturn_of_close hpc rfl fun u hu => canReturn_of_waitingFirst hu
  | waitingFirst => exact canReturn_of_waitingFirst hpc
  | waitingSecond => exact canReturn_of_wait hpc rfl fun _ hu => Or.inl hu
  | forking => exact canReturn_of_forking hpc
  | waiting => exact canReturn_of_wait hpc rfl fun _ hu => Or.inl hu
  | installing => exact canReturn_of_installing hpc
  | exited => exact absurd hpc hlive.1
  | killed => exact absurd hpc hlive.2

/-! ## The law of reaping -/

/-- If every termination is attended, then at each prompt everybody has been waited for. After one
that is not, the child stays a zombie for ever; and `process_arglist` can return, at least while
two descriptors are unused. -/
theorem reaped_while_attended (b : Boot) :
    (∀ as s, ((shell b).guarded fun s a _ => Attended s a).Run as s → s.pc = .prompt →
      s.AllReaped) ∧
    ∀ s pid action t, (shell b).Reachable s → step s (.child pid action) = some t →
      ¬ Attended s (.child pid action) →
        (∀ u, (shell b).Later t u → u.Zombie pid) ∧
        (s.Room → ∃ u v a, (shell b).Later t u ∧ step u a = some v ∧ u.pc ≠ .prompt ∧
          v.pc = .prompt ∧ v.Zombie pid ∧ ¬ v.AllReaped) := by
  constructor
  · exact fun as s hrun hpc => (minded_of_run hrun).allReaped hpc
  · intro s pid action t hreach hstep hn
    have hforsaken := forsaken_of_unattended (handlerFree_of_reachable hreach) hstep hn
    refine ⟨fun u hu => (hforsaken.later hu).zombie, fun hroom => ?_⟩
    have hlive : t.pc.Live ∧ t.Room := by
      obtain ⟨c, c', hc, hmove, rfl⟩ := step_child hstep
      unfold Attended at hn
      exact ⟨not_not.mp fun hdead => hn fun hlive => absurd hlive hdead, hroom⟩
    obtain ⟨u, v, a, hlater, hreturn, hu, hv⟩ := canReturn (b := b) hlive.1 hlive.2
    have hzombie := (hforsaken.later (hlater.tail ⟨a, hreturn⟩)).zombie
    refine ⟨u, v, a, hlater, hreturn, hu, hv, hzombie, fun hall => ?_⟩
    obtain ⟨c, hc, hz, hannounced⟩ := hzombie
    have hcount := List.countP_eq_zero.mp hall.zombies c (List.mem_of_getElem? hc)
    simp [hz, hannounced] at hcount

/-- A foreground command, from prompt to prompt. -/
def foreground (pid : ℕ) : List Action :=
  [.getline (some ["ls"]), .ignoreSigint true, .fork true, .child pid .terminate, .waitpid]

/-- A background command, which has not terminated yet. -/
def sleeping : List Action :=
  [.getline (some ["sleep", "&"]), .ignoreSigint true, .fork true, .installLongclaw true,
    .child 0 (.execvp true)]

theorem reaped_while_attended_sample :
    (∃ s, ((shell terminal).guarded fun s a _ => Attended s a).Run (foreground 0) s ∧
      s.AllReaped) ∧
    ∃ t, (shell terminal).Run (sleeping ++ [.child 0 .terminate]) t ∧
      ∀ u, (shell terminal).Later t u → u.Zombie 0 := by
  obtain ⟨hattended, hunattended⟩ := reaped_while_attended terminal
  constructor
  · obtain ⟨s, hs⟩ : ∃ s, Machine.perform (fun s a => if Attended s a then step s a else none)
        terminal.state (foreground 0) = some s := ⟨_, rfl⟩
    have hrun := Machine.run_guarded_ofFun.mpr hs
    exact ⟨s, hrun, hattended _ s hrun (by cases hs; rfl)⟩
  · obtain ⟨s, hs⟩ : ∃ s, Machine.perform step terminal.state sleeping = some s := ⟨_, rfl⟩
    have hrun := Machine.run_ofFun.mpr hs
    obtain ⟨t, ht⟩ : ∃ t, step s (.child 0 .terminate) = some t := by
      cases hs
      exact ⟨_, rfl⟩
    have hn : ¬ Attended s (.child 0 .terminate) := by
      cases hs
      decide
    exact ⟨t, hrun.snoc ht, (hunattended s 0 .terminate t hrun.reachable ht hn).1⟩

/-- A background child terminates at the prompt; after the next command it is still a zombie. -/
theorem background_child_stays : ∃ s t, (shell terminal).Run sleeping s ∧ s.pc = .prompt ∧
    s.zombies = 0 ∧
    (shell terminal).Run (sleeping ++ .child 0 .terminate :: foreground 1) t ∧ t.pc = .prompt ∧
    t.zombies = 1 ∧ ∃ c ∈ t.children, c.kind = .background ∧ c.life = .zombie ∧
      c.announced = true := by
  obtain ⟨s, hs⟩ : ∃ s, Machine.perform step terminal.state sleeping = some s := ⟨_, rfl⟩
  obtain ⟨t, ht⟩ : ∃ t, Machine.perform step terminal.state
      (sleeping ++ .child 0 .terminate :: foreground 1) = some t := ⟨_, rfl⟩
  refine ⟨s, t, Machine.run_ofFun.mpr hs, ?_, ?_, Machine.run_ofFun.mpr ht, ?_⟩
  · cases hs
    rfl
  · cases hs
    rfl
  · cases ht
    exact ⟨rfl, rfl, _, List.mem_cons_self, rfl, rfl, rfl⟩

end OsCourse.Shell
