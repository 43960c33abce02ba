import OsCourse.Shell.Program

/-! # What a step can do

Each step of the shell and each step of a child is one of a few moves. The handler
`valyrian_steel` is never installed.
-/

namespace OsCourse.Shell
open Foundations

/-! ## Steps of a child -/

/-- A child between its `fork` and its `execvp`, stopped or not. -/
structure Child.Preparing (c : Child) : Prop where
  alive : c.life = .running ∨ c.life = .stopped
  executing : c.executing = false

/-- A child that has reached its `execvp`. -/
structure Child.AtExecvp (c : Child) : Prop extends c.Preparing where
  todo : c.todo = []

inductive Child.Move (sigchld : Handler) (c : Child) : ChildAction → Child → Prop
  | prepare {call : Syscall} {rest : List Syscall} (ok : Bool) (hlife : c.life = .running)
      (hexec : c.executing = false) (htodo : c.todo = call :: rest) :
      Move sigchld c (.call call ok) { c.perform call ok with todo := rest }
  | command {call : Syscall} (ok : Bool) (hlife : c.life = .running) (hexec : c.executing = true) :
      Move sigchld c (.call call ok) (c.perform call ok)
  | exec {ok : Bool} (hat : c.AtExecvp) (hok : ok = true ∧ c.arglist ≠ []) :
      Move sigchld c (.execvp ok) { c with executing := true }
  | terminate {action : ChildAction} (hlife : c.life = .running ∨ c.life = .stopped)
      (hends : action.Ends c) : Move sigchld c action (c.terminated sigchld)
  | stop (hlife : c.life = .running) : Move sigchld c .stop { c with life := .stopped }
  | resume (hlife : c.life = .stopped) : Move sigchld c .resume { c with life := .running }

theorem Child.step_move {sigchld : Handler} {c c' : Child} {action : ChildAction}
    (h : c.step sigchld action = some c') : c.Move sigchld action c' := by
  cases action with
  | call call ok =>
    rw [Child.step] at h
    split at h
    case isTrue => cases h
    case isFalse hlife =>
      rw [not_not] at hlife
      split at h
      case isTrue hexec =>
        obtain rfl := Option.some.inj h
        exact .command ok hlife hexec
      case isFalse hexec =>
        rw [Bool.not_eq_true] at hexec
        split at h
        · cases h
        · rename_i next rest htodo
          split at h
          case isTrue hcall =>
            obtain rfl := Option.some.inj h
            exact .prepare ok hlife hexec (hcall ▸ htodo)
          case isFalse => cases h
  | execvp ok =>
    rw [Child.step] at h
    split at h
    case isTrue => cases h
    case isFalse hready =>
      rw [not_or, not_or, not_not, Bool.not_eq_true, not_not] at hready
      split at h
      case isTrue hok =>
        obtain rfl := Option.some.inj h
        exact .exec ⟨⟨Or.inl hready.1, hready.2.1⟩, hready.2.2⟩ hok
      case isFalse hends =>
        obtain rfl := Option.some.inj h
        exact .terminate (Or.inl hready.1) hends
  | terminate =>
    obtain ⟨hlife, h⟩ := Option.ite_none_right_eq_some.mp h
    obtain rfl := Option.some.inj h
    exact .terminate hlife trivial
  | stop =>
    obtain ⟨hlife, h⟩ := Option.ite_none_right_eq_some.mp h
    obtain rfl := Option.some.inj h
    exact .stop hlife
  | resume =>
    obtain ⟨hlife, h⟩ := Option.ite_none_right_eq_some.mp h
    obtain rfl := Option.some.inj h
    exact .resume hlife

/-! ## Steps of the shell -/

/-- The moves of the shell, and those of its children; `handle` is one that no run makes. -/
inductive Move (s : State) : Action → State → Prop
  | blank (hpc : s.pc = .prompt) : Move s (.getline (some [])) s
  | read {arglist : List String} (hpc : s.pc = .prompt) :
      Move s (.getline (some arglist)) { s with pc := .ignoring arglist }
  | leave {a : Action} (hlive : s.pc.Live) : Move s a (s.leave .exited)
  | kill (hlive : s.pc.Live) (hsigint : s.sigint = .SIG_DFL) : Move s .sigint (s.leave .killed)
  | survive (hlive : s.pc.Live) (hsigint : s.sigint = .SIG_IGN) : Move s .sigint s
  | ignore {arglist : List String} {ok : Bool} (hpc : s.pc = .ignoring arglist) :
      Move s (.ignoreSigint ok) { s with
        pc := processArglist arglist
        sigint := if ok then .SIG_IGN else s.sigint }
  | pipe {command1 command2 : List String} {read write : ℕ} (hpc : s.pc = .piping command1 command2)
      (hne : read ≠ write) (hread : s.files read = none) (hwrite : s.files write = none) :
      Move s (.pipe (some (read, write))) (s.openPipe read write command1 command2)
  | fork {kind : Kind} {arglist : List String} {pc : Pc}
      (hpc : s.pc.fork s.children.length = some (kind, arglist, pc)) :
      Move s (.fork true) (s.spawn kind arglist pc)
  | close {d : ℕ} {pc : Pc} (ok : Bool) (hpc : s.pc.close = some (d, pc)) :
      Move s (.close ok) { s with pc := pc, files := if ok then s.files.close d else s.files }
  | wait {pid : ℕ} {pc : Pc} (hpc : s.pc.wait = some (pid, pc))
      (hlife : s.children[pid]?.map Child.life ≠ some .running) :
      Move s .waitpid { s with pc := pc, children := s.children.modify pid Child.reap }
  | install (hpc : s.pc = .installing) :
      Move s (.installLongclaw true) { s with pc := .prompt, sigchld := .SIG_DFL }
  | handle {a : Action} (hlive : s.pc.Live)
      (handler : s.sigint = .valyrian_steel ∨ s.sigchld = .valyrian_steel) :
      Move s a s.valyrianSteel
  | child {pid : ℕ} {action : ChildAction} {c c' : Child} (hc : s.children[pid]? = some c)
      (hmove : c.Move s.sigchld action c') : Move s (.child pid action) (s.setChild pid c')

theorem Pc.live_of_fork {pc : Pc} {pid : ℕ} {x : Kind × List String × Pc}
    (h : pc.fork pid = some x) : pc.Live := by
  constructor <;> rintro rfl <;> cases h

theorem step_child {s t : State} {pid : ℕ} {action : ChildAction}
    (h : step s (.child pid action) = some t) :
    ∃ c c', s.children[pid]? = some c ∧ c.Move s.sigchld action c' ∧ t = s.setChild pid c' := by
  obtain ⟨c, hc, h⟩ := Option.bind_eq_some_iff.mp h
  obtain ⟨c', hc', rfl⟩ := Option.map_eq_some_iff.mp h
  exact ⟨c, c', hc, Child.step_move hc', rfl⟩

/-- Every step is a move. -/
theorem step_move {s t : State} {a : Action} (h : step s a = some t) : Move s a t := by
  cases a with
  | getline line =>
    simp only [step] at h
    split at h
    case isTrue => cases h
    case isFalse hpc =>
      rw [not_not] at hpc
      have hlive : s.pc.Live := by rw [hpc]; decide
      split at h
      · obtain rfl := Option.some.inj h
        exact .leave hlive
      · obtain rfl := Option.some.inj h
        exact .blank hpc
      · obtain rfl := Option.some.inj h
        exact .read hpc
  | ignoreSigint ok =>
    simp only [step] at h
    split at h
    · rename_i arglist hpc
      obtain rfl := Option.some.inj h
      exact .ignore hpc
    · cases h
  | pipe descriptors =>
    simp only [step] at h
    split at h
    · rename_i hpc
      obtain rfl := Option.some.inj h
      exact .leave (by rw [hpc]; exact ⟨nofun, nofun⟩)
    · rename_i command1 command2 read write hpc
      obtain ⟨⟨hne, hread, hwrite⟩, h⟩ := Option.ite_none_right_eq_some.mp h
      obtain rfl := Option.some.inj h
      exact .pipe hpc hne hread hwrite
    · cases h
  | fork ok =>
    obtain ⟨⟨kind, arglist, pc⟩, hpc, rfl⟩ := Option.map_eq_some_iff.mp h
    cases ok with
    | true => exact .fork hpc
    | false => exact .leave (Pc.live_of_fork hpc)
  | close ok =>
    obtain ⟨⟨d, pc⟩, hpc, rfl⟩ := Option.map_eq_some_iff.mp h
    exact .close ok hpc
  | waitpid =>
    obtain ⟨⟨pid, pc⟩, hpc, h⟩ := Option.bind_eq_some_iff.mp h
    obtain ⟨u, hu, rfl⟩ := Option.map_eq_some_iff.mp h
    obtain ⟨hlife, hu⟩ := Option.ite_none_left_eq_some.mp hu
    obtain rfl := Option.some.inj hu
    exact .wait hpc hlife
  | installLongclaw ok =>
    rw [step] at h
    split at h
    case isTrue => cases h
    case isFalse hpc =>
      rw [not_not] at hpc
      cases ok with
      | true =>
        obtain rfl := Option.some.inj h
        exact .install hpc
      | false =>
        obtain rfl := Option.some.inj h
        exact .leave (by rw [hpc]; decide)
  | sigint =>
    obtain ⟨hlive, h⟩ := Option.ite_none_right_eq_some.mp h
    obtain rfl := Option.some.inj h
    cases hsigint : s.sigint with
    | SIG_DFL => exact .kill hlive hsigint
    | SIG_IGN => exact .survive hlive hsigint
    | valyrian_steel => exact .handle hlive (Or.inl hsigint)
  | sigchld =>
    obtain ⟨⟨hlive, hsigchld⟩, h⟩ := Option.ite_none_right_eq_some.mp h
    obtain rfl := Option.some.inj h
    exact .handle hlive (Or.inr hsigchld)
  | child pid action =>
    obtain ⟨c, c', hc, hmove, rfl⟩ := step_child h
    exact .child hc hmove

/-! ## Behind `handle_sigint(0)` -/

/-- The shell is in `process_arglist`, behind `handle_sigint(0)`. -/
structure Pc.Entered (pc : Pc) : Prop where
  live : pc.Live
  prompt : pc ≠ .prompt
  ignoring : ∀ arglist, pc ≠ .ignoring arglist

theorem Pc.entered_of_fork {pc : Pc} {pid : ℕ} {x : Kind × List String × Pc}
    (h : pc.fork pid = some x) : pc.Entered := by
  refine ⟨Pc.live_of_fork h, ?_, ?_⟩
  · rintro rfl
    cases h
  · rintro _ rfl
    cases h

theorem Pc.entered_of_close {pc : Pc} {x : ℕ × Pc} (h : pc.close = some x) : pc.Entered := by
  cases pc with
  | closingRead | closingWrite => exact ⟨⟨nofun, nofun⟩, nofun, nofun⟩
  | _ => cases h

theorem Pc.entered_of_wait {pc : Pc} {x : ℕ × Pc} (h : pc.wait = some x) : pc.Entered := by
  cases pc with
  | waitingFirst | waitingSecond | waiting => exact ⟨⟨nofun, nofun⟩, nofun, nofun⟩
  | _ => cases h

theorem Move.live {s t : State} {a : Action} (h : Move s a t) (ht : t.pc.Live) : s.pc.Live := by
  cases h with
  | blank | child => exact ht
  | read hpc => rw [hpc]; decide
  | leave hlive => exact hlive
  | kill hlive => exact hlive
  | survive hlive => exact hlive
  | ignore hpc => rw [hpc]; exact ⟨nofun, nofun⟩
  | pipe hpc => rw [hpc]; exact ⟨nofun, nofun⟩
  | fork hpc => exact Pc.live_of_fork hpc
  | close ok hpc => exact (Pc.entered_of_close hpc).live
  | wait hpc => exact (Pc.entered_of_wait hpc).live
  | install hpc => rw [hpc]; decide
  | handle hlive => exact hlive

/-! ## The handler -/

/-- Neither signal is handled by `valyrian_steel`. -/
structure State.HandlerFree (s : State) : Prop where
  sigint : s.sigint ≠ .valyrian_steel
  sigchld : s.sigchld ≠ .valyrian_steel

theorem State.HandlerFree.elim {s : State} {P : Prop} (h : s.HandlerFree)
    (handler : s.sigint = .valyrian_steel ∨ s.sigchld = .valyrian_steel) : P :=
  absurd handler (not_or.mpr ⟨h.sigint, h.sigchld⟩)

theorem Move.handlerFree {s t : State} {a : Action} (h : Move s a t) (hs : s.HandlerFree) :
    t.HandlerFree := by
  cases h with
  | @ignore arglist ok hpc =>
    refine ⟨?_, hs.sigchld⟩
    cases ok with
    | true => exact nofun
    | false => exact hs.sigint
  | install hpc => exact ⟨hs.sigint, nofun⟩
  | _ => exact ⟨hs.sigint, hs.sigchld⟩

theorem inheritedHandler_ne (ignored : Bool) : inheritedHandler ignored ≠ .valyrian_steel := by
  cases ignored <;> decide

/-- `memset` has cleared `longclaw` when it is installed. -/
theorem handlerFree_of_reachable {b : Boot} {s : State} (h : (shell b).Reachable s) :
    s.HandlerFree := by
  refine h.invariant (I := State.HandlerFree) ?_
    fun _ _ _ hs hstep => (step_move hstep).handlerFree hs
  rintro _ rfl
  exact ⟨inheritedHandler_ne _, inheritedHandler_ne _⟩

/-! ## Children -/

theorem Child.reap_of_ne {c : Child} (h : c.life ≠ .zombie) : c.reap = c := if_neg h

/-- What holds of every child that a `fork` makes, and is kept by `waitpid` and by the moves of a
child, is kept for all children. -/
theorem Move.forall_children {s t : State} {a : Action} {P : Child → Prop} (h : Move s a t)
    (hs : s.HandlerFree) (hchildren : ∀ c ∈ s.children, P c)
    (hborn : ∀ kind arglist pc, s.pc.fork s.children.length = some (kind, arglist, pc) →
      P (s.newborn kind arglist))
    (hreap : ∀ c, P c → P c.reap)
    (hmove : ∀ pid action c c', a = .child pid action → c.Move s.sigchld action c' → P c → P c') :
    ∀ c ∈ t.children, P c := by
  cases h with
  | fork hpc =>
    intro c hc
    obtain hc | hc := List.mem_append.mp hc
    · exact hchildren c hc
    · rw [List.mem_singleton.mp hc]
      exact hborn _ _ _ hpc
  | @wait pid pc hpc hlife =>
    intro c hc
    obtain ⟨k, hk⟩ := List.mem_iff_getElem?.mp hc
    rw [List.getElem?_modify] at hk
    obtain ⟨c₀, hc₀, rfl⟩ := Option.map_eq_some_iff.mp hk
    have hP := hchildren c₀ (List.mem_of_getElem? hc₀)
    split
    · exact hreap c₀ hP
    · exact hP
  | handle hlive handler => exact hs.elim handler
  | child hc hcc' =>
    intro c hmem
    obtain hmem | rfl := List.mem_or_eq_of_mem_set hmem
    · exact hchildren c hmem
    · exact hmove _ _ _ _ rfl hcc' (hchildren _ (List.mem_of_getElem? hc))
  | _ => exact hchildren

end OsCourse.Shell
