import OsCourse.Shell.Moves

/-! # Who ignores `SIGINT`

`process_arglist` begins with `handle_sigint(0)`, and `prepare` does nothing: before the first
command line the shell does with `SIGINT` what it has inherited. The children do what they should.
-/

namespace OsCourse.Shell
open Foundations

/-- `sigaction` does not fail. -/
def Action.sigactionSucceeds : Action → Bool
  | .ignoreSigint ok => ok
  | .installLongclaw ok => ok
  | .child _ (.call (.sigint _) ok) => ok
  | _ => true

/-- The action for `SIGINT` that a child of this kind should have. -/
def Kind.sigint : Kind → Handler
  | .background => .SIG_IGN
  | _ => .SIG_DFL

/-- The shell ignores `SIGINT` and survives it, and each child reaches `execvp` with its action. -/
structure State.SigintRight (s : State) : Prop where
  ignores : s.pc.Live → s.sigint = .SIG_IGN
  survives : s.pc.Live → step s .sigint = some s
  children : ∀ c ∈ s.children, c.AtExecvp → c.sigint = c.kind.sigint

/-! ## The children -/

/-- The action for `SIGINT` that a child has after the calls before its `execvp`. -/
def Child.finalSigint (c : Child) : Handler :=
  c.todo.foldl (fun handler call => call.handler handler) c.sigint

theorem not_preparing_terminated {sigchld : Handler} (c : Child) :
    ¬ (c.terminated sigchld).Preparing := by
  intro h
  have := h.alive
  unfold Child.terminated at this
  split at this <;> simp at this

theorem Child.Preparing.of_reap {c : Child} (h : c.reap.Preparing) : c.reap = c := by
  by_cases hlife : c.life = .zombie
  · rw [Child.reap, if_pos hlife] at h
    exact absurd h.alive (by simp)
  · exact Child.reap_of_ne hlife

/-- The call that a child makes takes its part of what the child has still to do. -/
theorem Child.Move.finalSigint {sigchld : Handler} {c c' : Child} {action : ChildAction} {pid : ℕ}
    (h : c.Move sigchld action c') (ha : (Action.child pid action).sigactionSucceeds)
    (hc' : c'.Preparing) : c.Preparing ∧ c'.finalSigint = c.finalSigint ∧ c'.kind = c.kind := by
  cases h with
  | @prepare call rest ok hlife hexec htodo =>
    refine ⟨⟨Or.inl hlife, hexec⟩, ?_⟩
    rw [Child.finalSigint, Child.finalSigint, htodo, List.foldl_cons]
    cases ok with
    | true => exact ⟨rfl, rfl⟩
    | false =>
      cases call with
      | sigint handler => cases ha
      | _ => exact ⟨rfl, rfl⟩
  | @command call ok hlife hexec =>
    have := hc'.executing
    cases ok <;> cases hexec.symm.trans this
  | exec => cases hc'.executing
  | terminate => exact absurd hc' (not_preparing_terminated c)
  | stop hlife => exact ⟨⟨Or.inl hlife, hc'.executing⟩, rfl, rfl⟩
  | resume hlife => exact ⟨⟨Or.inr hlife, hc'.executing⟩, rfl, rfl⟩

theorem finalSigint_newborn {s : State} {kind : Kind} (arglist : List String)
    (h : kind = .background → s.sigint = .SIG_IGN) :
    (s.newborn kind arglist).finalSigint = kind.sigint := by
  cases kind with
  | background => exact h rfl
  | _ => rfl

/-! ## The shell -/

variable {s t : State} {a : Action}

/-- Only `handle_sigint(0)` changes what a live shell does with `SIGINT`. -/
theorem Move.sigint_cases (h : Move s a t) (hs : s.HandlerFree) (ht : t.pc.Live) :
    (∃ ok, a = .ignoreSigint ok ∧ t.sigint = if ok then .SIG_IGN else s.sigint) ∨
      (∀ ok, a ≠ .ignoreSigint ok) ∧ t.sigint = s.sigint := by
  cases h with
  | @ignore arglist ok hpc => exact Or.inl ⟨ok, rfl, rfl⟩
  | leave => exact absurd rfl ht.1
  | kill => exact absurd rfl ht.2
  | handle hlive handler => exact hs.elim handler
  | _ => exact Or.inr ⟨nofun, rfl⟩

/-- Only `handle_sigint(0)` leads into the part behind it. -/
theorem Move.entered (h : Move s a t) (ht : t.pc.Entered) :
    (∃ ok, a = .ignoreSigint ok) ∨ s.pc.Entered := by
  cases h with
  | blank | survive | handle | child => exact Or.inr ht
  | read hpc => exact absurd rfl (ht.ignoring _)
  | leave => exact absurd rfl ht.live.1
  | kill => exact absurd rfl ht.live.2
  | ignore hpc => exact Or.inl ⟨_, rfl⟩
  | pipe hpc => exact Or.inr (hpc ▸ ⟨⟨nofun, nofun⟩, nofun, nofun⟩)
  | fork hpc => exact Or.inr (Pc.entered_of_fork hpc)
  | close ok hpc => exact Or.inr (Pc.entered_of_close hpc)
  | wait hpc => exact Or.inr (Pc.entered_of_wait hpc)
  | install hpc => exact absurd rfl ht.prompt

/-- After the actions `as`: the shell ignores `SIGINT` if it has inherited that or has called
`handle_sigint(0)`, which it has before it makes a child. -/
structure Tracked (b : Boot) (as : List Action) (s : State) : Prop where
  shell : s.pc.Live → (s.sigint = .SIG_IGN ↔ b.sigintIgnored = true ∨ .ignoreSigint true ∈ as)
  entered : s.pc.Entered → .ignoreSigint true ∈ as
  children : ∀ c ∈ s.children, c.Preparing → c.finalSigint = c.kind.sigint

theorem tracked_start (b : Boot) : Tracked b [] b.state := by
  refine ⟨fun _ => ?_, fun h => absurd rfl h.prompt, fun _ hc => by cases hc⟩
  unfold Boot.state inheritedHandler
  cases b.sigintIgnored <;> simp

theorem Tracked.move {b : Boot} {as : List Action} (hi : Tracked b as s) (h : Move s a t)
    (hs : s.HandlerFree) (ha : a.sigactionSucceeds) : Tracked b (as ++ [a]) t := by
  have hmem : Action.ignoreSigint true ∈ as ++ [a] ↔
      Action.ignoreSigint true ∈ as ∨ a = .ignoreSigint true := by
    rw [List.mem_append, List.mem_singleton, eq_comm (a := a)]
  refine ⟨fun ht => ?_, fun ht => ?_, ?_⟩
  · rw [hmem]
    rcases h.sigint_cases hs ht with ⟨ok, rfl, hsigint⟩ | ⟨hne, hsigint⟩
    · obtain rfl : ok = true := ha
      simp [hsigint]
    · rw [hsigint, hi.shell (h.live ht)]
      simp [hne true]
  · rw [hmem]
    rcases h.entered ht with ⟨ok, rfl⟩ | hentered
    · obtain rfl : ok = true := ha
      exact Or.inr rfl
    · exact Or.inl (hi.entered hentered)
  · refine h.forall_children (P := fun c => c.Preparing → c.finalSigint = c.kind.sigint) hs
      hi.children ?_ ?_ ?_
    · intro kind arglist pc hpc _
      have hentered := Pc.entered_of_fork hpc
      have hignored := (hi.shell hentered.live).mpr (Or.inr (hi.entered hentered))
      exact finalSigint_newborn arglist fun _ => hignored
    · intro c hc hprep
      have heq := hprep.of_reap
      rw [heq] at hprep ⊢
      exact hc hprep
    · rintro pid action c c' rfl hmove hc hprep
      obtain ⟨hprep, hfinal, hkind⟩ := hmove.finalSigint ha hprep
      rw [hfinal, hkind]
      exact hc hprep

/-- The shell of which no `sigaction` fails. -/
def sigactingShell (b : Boot) : Machine State Action :=
  (shell b).guarded fun _ a _ => a.sigactionSucceeds

theorem tracked_of_run {b : Boot} {as : List Action} (h : (sigactingShell b).Run as s) :
    Tracked b as s := by
  refine h.history_invariant (I := Tracked b) ?_ ?_
  · rintro _ rfl
    exact tracked_start b
  · intro as s a t hrun hi hstep
    exact hi.move (step_move hstep.1) (handlerFree_of_reachable hrun.of_guarded.reachable) hstep.2

/-- `SIGINT` is treated as it should be exactly from the first `handle_sigint(0)` on, or if the shell
was started with `SIGINT` ignored. -/
theorem sigint_right_iff {b : Boot} {as : List Action} (h : (sigactingShell b).Run as s) :
    s.SigintRight ↔
      (s.pc.Live → b.sigintIgnored = true ∨ .ignoreSigint true ∈ as) := by
  have hi := tracked_of_run h
  constructor
  · exact fun hright hlive => (hi.shell hlive).mp (hright.ignores hlive)
  · intro hcond
    have hignores : s.pc.Live → s.sigint = .SIG_IGN := fun hlive =>
      (hi.shell hlive).mpr (hcond hlive)
    refine ⟨hignores, fun hlive => ?_, fun c hc hat => ?_⟩
    · rw [step, if_pos hlive, hignores hlive]
      rfl
    · have hfinal := hi.children c hc hat.toPreparing
      rwa [Child.finalSigint, hat.todo] at hfinal

theorem sigint_right_iff_sample : ∃ s,
    (sigactingShell terminal).Run [.getline (some ["ls"]), .ignoreSigint true, .fork true] s ∧
      s.SigintRight := by
  obtain ⟨s, hs⟩ : ∃ s, Machine.perform
      (fun s a => if Action.sigactionSucceeds a = true then step s a else none) terminal.state
      [.getline (some ["ls"]), .ignoreSigint true, .fork true] = some s := ⟨_, rfl⟩
  have hrun := Machine.run_guarded_ofFun.mpr hs
  exact ⟨s, hrun, (sigint_right_iff hrun).mpr fun _ => Or.inr (by decide)⟩

/-- At its first prompt the shell dies of `SIGINT`. -/
theorem prompt_interrupted : (sigactingShell terminal).Run [] terminal.state ∧
    terminal.state.pc = .prompt ∧
    step terminal.state .sigint = some (terminal.state.leave .killed) ∧
    ¬ terminal.state.SigintRight := by
  refine ⟨.start rfl, rfl, rfl, fun h => ?_⟩
  cases h.ignores ⟨nofun, nofun⟩

end OsCourse.Shell
