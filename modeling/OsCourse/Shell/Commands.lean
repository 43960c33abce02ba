import OsCourse.Shell.Arglist
import OsCourse.Shell.Wiring

/-! # From the input to `execvp`

The shell with its line in memory takes the steps of the shell on lists of words, and never
follows a pointer that leads nowhere. What `getline` returns is executed: the children are the
commands of the lines, in their order.
-/

namespace OsCourse.Shell
open Foundations

/-- The number of words, as `main` has counted them. -/
def Arglist.count (a : Arglist) : ℕ := a.arglist.length - 1

/-- The shell with the line that it works on. -/
structure Session where
  shell : State
  arglist : Arglist

/-- What `getline` stores, with room for so many pointers; or any other action. -/
inductive Input where
  | getline (line : List Byte) (room : ℕ)
  | other (action : Action)

/-- The words in the state of the shell are those that `arglist` leads to. -/
def Session.step (c : Session) : Input → Option Session
  | .getline line room =>
    if c.shell.pc ≠ .prompt then none
    else do
      match ← readArglist room line with
      | none => some { c with shell := c.shell.leave .exited }
      | some a =>
        if a.count = 0 then some c
        else do
          let words ← a.argv 0
          some ⟨{ c.shell with pc := .ignoring words }, a⟩
  | .other (.getline (some _)) => none
  | .other (.ignoreSigint ok) =>
    match c.shell.pc with
    | .ignoring _ => do
      let pc ← c.arglist.processArglist c.arglist.count
      let sigint := if ok then handleSigint 0 else c.shell.sigint
      some { c with shell := { c.shell with pc, sigint } }
    | _ => none
  | .other action => (Shell.step c.shell action).map fun shell => { c with shell }

def session (b : Boot) : Machine Session Input := .ofFun ⟨b.state, [], []⟩ Session.step

/-- The action of the shell on lists of words. -/
def Input.action : Input → Action
  | .getline line room =>
    .getline (if room ≤ (lineWords line).length then none else some ((lineWords line).map text))
  | .other action => action

variable {b : Boot} {s t : State} {a : Action} {c c' : Session} {line : List Byte} {room : ℕ}

/-! ## The line in memory -/

theorem readArglist_cases (room : ℕ) (line : List Byte) :
    (INT_MAX ≤ room ∧ INT_MAX ≤ (lineWords line).length ∧ readArglist room line = none) ∨
    (room ≤ (lineWords line).length ∧ readArglist room line = some none) ∨
    ((lineWords line).length < room ∧
      ∃ a, readArglist room line = some (some a) ∧ a.Holds (lineWords line)) := by
  by_cases hlack : room ≤ (lineWords line).length
  · by_cases hmax : room < INT_MAX
    · exact Or.inr (Or.inl ⟨hlack, readArglist_of_lack hlack hmax⟩)
    · rw [not_lt] at hmax
      have hover := hmax.trans hlack
      exact Or.inl ⟨hmax, hover, readArglist_of_overflow hmax hover⟩
  · rw [not_le] at hlack
    by_cases hcount : (lineWords line).length < INT_MAX
    · exact Or.inr (Or.inr ⟨hlack, readArglist_of_room hlack hcount⟩)
    · rw [not_lt] at hcount
      have hmax := hcount.trans hlack.le
      exact Or.inl ⟨hmax, hcount, readArglist_of_overflow hmax hcount⟩

theorem Arglist.Holds.count {a : Arglist} {ws : List (List Byte)} (h : a.Holds ws) :
    a.count = ws.length := by
  obtain ⟨ps, hps, hleads⟩ := h
  rw [Arglist.count, hps, List.length_append, List.length_map, hleads.length_eq]
  rfl

/-- In `process_arglist`, `arglist` leads to the words of the line. -/
def Session.Loaded (c : Session) : Prop :=
  ∀ words, c.shell.pc = .ignoring words → ∃ ws, c.arglist.Holds ws ∧ words = ws.map text

theorem Pc.not_ignoring_of_fork {pc pc' : Pc} {pid : ℕ} {kind : Kind} {arglist words : List String}
    (h : pc.fork pid = some (kind, arglist, pc')) : pc' ≠ .ignoring words := by
  rintro rfl
  cases pc with
  | forking arglist background => cases background <;> cases h
  | _ => cases h

theorem Pc.not_ignoring_of_close {pc pc' : Pc} {d : ℕ} {words : List String}
    (h : pc.close = some (d, pc')) : pc' ≠ .ignoring words := by
  rintro rfl
  cases pc <;> cases h

theorem Pc.not_ignoring_of_wait {pc pc' : Pc} {pid : ℕ} {words : List String}
    (h : pc.wait = some (pid, pc')) : pc' ≠ .ignoring words := by
  rintro rfl
  cases pc <;> cases h

theorem processArglist_ne_ignoring (arglist words : List String) :
    processArglist arglist ≠ .ignoring words := by
  unfold processArglist
  split <;> exact nofun

/-- Only a line leads to the start of `process_arglist`. -/
theorem Move.ignoring {words : List String} (h : Move s a t) (hs : s.HandlerFree)
    (hnot : ∀ words, a ≠ .getline (some words)) (ht : t.pc = .ignoring words) : s.pc = t.pc := by
  cases h with
  | blank => exact absurd rfl (hnot _)
  | read => exact absurd rfl (hnot _)
  | leave | kill | pipe | install => cases ht
  | survive | child => rfl
  | ignore => exact absurd ht (processArglist_ne_ignoring _ _)
  | fork hpc => exact absurd ht (Pc.not_ignoring_of_fork hpc)
  | close ok hpc => exact absurd ht (Pc.not_ignoring_of_close hpc)
  | wait hpc => exact absurd ht (Pc.not_ignoring_of_wait hpc)
  | handle hlive handler => exact hs.elim handler

/-- The steps of a session. -/
inductive Session.Move (c : Session) : Input → Session → Prop
  | lack {line : List Byte} {room : ℕ} (hpc : c.shell.pc = .prompt)
      (hroom : room ≤ (lineWords line).length) :
      Move c (.getline line room) { c with shell := c.shell.leave .exited }
  | blank {line : List Byte} {room : ℕ} (hpc : c.shell.pc = .prompt)
      (hroom : (lineWords line).length < room) (hblank : lineWords line = []) : Move c (.getline line room) c
  | read {line : List Byte} {room : ℕ} {a : Arglist} (hpc : c.shell.pc = .prompt)
      (hroom : (lineWords line).length < room) (hsome : lineWords line ≠ []) (ha : a.Holds (lineWords line)) :
      Move c (.getline line room)
        ⟨{ c.shell with pc := .ignoring ((lineWords line).map text) }, a⟩
  | other {action : Action} {t : State} (hnot : ∀ words, action ≠ .getline (some words))
      (hs : Shell.step c.shell action = some t) : Move c (.other action) { c with shell := t }

/-- In `process_arglist` the words that are looked at are those of the line. -/
theorem Session.step_ignoreSigint (h : c.Loaded) (ok : Bool) :
    c.step (.other (.ignoreSigint ok)) =
      (Shell.step c.shell (.ignoreSigint ok)).map fun shell => { c with shell } := by
  rw [Session.step, Shell.step]
  cases hpc : c.shell.pc with
  | ignoring words =>
    obtain ⟨ws, hholds, rfl⟩ := h words hpc
    dsimp only
    rw [hholds.count, Arglist.processArglist_eq hholds]
    rfl
  | _ => rfl

theorem Session.step_other (h : c.Loaded) {action : Action}
    (hnot : ∀ words, action ≠ .getline (some words)) :
    c.step (.other action) = (Shell.step c.shell action).map fun shell => { c with shell } := by
  cases action with
  | getline words =>
    cases words with
    | none => rfl
    | some words => exact absurd rfl (hnot words)
  | ignoreSigint ok => exact Session.step_ignoreSigint h ok
  | _ => rfl

theorem Session.step_move {i : Input} (h : c.Loaded) (hs : c.step i = some c') : c.Move i c' := by
  cases i with
  | getline line room =>
    obtain ⟨hpc, hs⟩ := Option.ite_none_left_eq_some.mp hs
    rw [not_not] at hpc
    rcases readArglist_cases room line with ⟨_, _, hread⟩ | ⟨hroom, hread⟩ | ⟨hroom, a, hread, ha⟩
    · rw [hread] at hs
      cases hs
    · rw [hread] at hs
      cases hs
      exact .lack hpc hroom
    · rw [hread, Option.bind_eq_bind, Option.bind_some] at hs
      dsimp only at hs
      rw [ha.count, Arglist.argv_eq ha] at hs
      split at hs
      case isTrue hblank =>
        cases hs
        exact .blank hpc hroom (List.length_eq_zero_iff.mp hblank)
      case isFalse hsome =>
        cases hs
        exact .read hpc hroom (fun hblank => hsome (List.length_eq_zero_iff.mpr hblank)) ha
  | other action =>
    have hnot : ∀ words, action ≠ .getline (some words) := by
      rintro words rfl
      cases hs
    rw [Session.step_other h hnot] at hs
    obtain ⟨t, ht, rfl⟩ := Option.map_eq_some_iff.mp hs
    exact .other hnot ht

/-- The steps that the words of the line and the state of the shell leave open. -/
theorem Session.exists_step_getline (hcount : (lineWords line).length < INT_MAX)
    (hpc : c.shell.pc = .prompt) (room : ℕ) : ∃ c', c.step (.getline line room) = some c' := by
  rw [Session.step, if_neg (not_not.mpr hpc)]
  rcases readArglist_cases room line with ⟨_, hover, _⟩ | ⟨_, hread⟩ | ⟨_, a, hread, ha⟩
  · exact absurd hcount (not_lt.mpr hover)
  · exact ⟨_, by rw [hread]; rfl⟩
  · rw [hread, Option.bind_eq_bind, Option.bind_some]
    dsimp only
    rw [Arglist.argv_eq ha]
    split <;> exact ⟨_, rfl⟩

theorem step_getline_text (hpc : s.pc = .prompt) (hroom : (lineWords line).length < room)
    (hsome : lineWords line ≠ []) : Shell.step s (Input.getline line room).action =
      some { s with pc := .ignoring ((lineWords line).map text) } := by
  obtain ⟨w, ws, hws⟩ := List.exists_cons_of_ne_nil hsome
  rw [Input.action, if_neg (not_le.mpr hroom), hws, List.map_cons, Shell.step,
    if_neg (not_not.mpr hpc)]

theorem Session.Move.refines {i : Input} (h : c.Move i c') (hs : c.shell.HandlerFree)
    (hloaded : c.Loaded) : Shell.step c.shell i.action = some c'.shell ∧ c'.Loaded := by
  cases h with
  | lack hpc hroom =>
    rw [Input.action, if_pos hroom, Shell.step, if_neg (not_not.mpr hpc)]
    refine ⟨rfl, fun words hwords => ?_⟩
    cases hwords
  | blank hpc hroom hblank =>
    rw [Input.action, if_neg (not_le.mpr hroom), hblank, List.map_nil, Shell.step,
      if_neg (not_not.mpr hpc)]
    exact ⟨rfl, hloaded⟩
  | read hpc hroom hsome ha =>
    refine ⟨step_getline_text hpc hroom hsome, fun words hwords => ⟨_, ha, ?_⟩⟩
    exact (Pc.ignoring.inj hwords).symm
  | other hnot ht =>
    refine ⟨ht, fun words hwords => hloaded words ?_⟩
    exact ((Shell.step_move ht).ignoring hs hnot hwords).trans hwords

variable (b) in
theorem session_simulation : Machine.Simulation (session b) (shell b) Input.action
    (fun c s => c.shell = s ∧ (shell b).Reachable s ∧ c.Loaded) where
  init := by
    rintro c rfl
    refine ⟨b.state, rfl, rfl, ⟨[], .start rfl⟩, fun words hwords => ?_⟩
    cases hwords
  step := by
    rintro c i c' _ _ hst ⟨rfl, hreach, hloaded⟩
    have hmove := Session.step_move hloaded hst
    obtain ⟨hs, hloaded'⟩ := hmove.refines (handlerFree_of_reachable hreach) hloaded
    exact ⟨c'.shell, hs, rfl, hreach.step (a := i.action) hs, hloaded'⟩

/-- Only a command with words is ever executed. -/
def Child.HasWords (c : Child) : Prop := c.executing = true → c.arglist ≠ []

theorem Child.Move.hasWords {sigchld : Handler} {c c' : Child} {action : ChildAction}
    (h : c.Move sigchld action c') (hc : c.HasWords) : c'.HasWords := by
  cases h with
  | prepare ok | command ok => cases ok <;> exact hc
  | exec _ hok => exact fun _ => hok.2
  | terminate | stop | resume => exact hc

theorem hasWords_of_reachable (hs : (shell b).Reachable s) : ∀ c ∈ s.children, c.HasWords := by
  have hinv : s.HandlerFree ∧ ∀ c ∈ s.children, c.HasWords := by
    refine Machine.Reachable.invariant
      (I := fun s : State => s.HandlerFree ∧ ∀ c ∈ s.children, c.HasWords) ?_ ?_ hs
    · rintro _ rfl
      exact ⟨handlerFree_of_reachable ⟨[], .start rfl⟩, fun c hc => by cases hc⟩
    · rintro s a t ⟨hfree, hwords⟩ hst
      have hmove := step_move hst
      refine ⟨hmove.handlerFree hfree, hmove.forall_children hfree hwords ?_ ?_ ?_⟩
      · exact fun _ _ _ _ hexec => by cases hexec
      · intro c hc
        unfold Child.reap
        split <;> exact hc
      · exact fun _ _ _ _ _ hchild => hchild.hasWords
  exact hinv.2

/-- The shell with its line in memory takes the same steps as the shell on the words of the lines,
and it takes all of them: a line of fewer than `INT_MAX` words can be read at every prompt, and
`process_arglist` never uses a `NULL`, a pointer behind the line or a `command2` that is not set. A
child whose command has no words executes nothing. -/
theorem session_refines_shell {is : List Input} (hs : (session b).Run is c) :
    (shell b).Run (is.map Input.action) c.shell ∧
      (∀ line room, (lineWords line).length < INT_MAX →
        ((∃ c', c.step (.getline line room) = some c') ↔ c.shell.pc = .prompt)) ∧
      (∀ action, (∀ words, action ≠ .getline (some words)) →
        ((∃ c', c.step (.other action) = some c') ↔ ∃ t, Shell.step c.shell action = some t)) ∧
      ∀ child ∈ c.shell.children, child.executing = true → child.arglist ≠ [] := by
  obtain ⟨_, hrun, rfl, hreach, hloaded⟩ := (session_simulation b).run hs
  refine ⟨hrun, fun line room hcount => ⟨?_, fun hpc => ?_⟩, fun action hnot => ⟨?_, ?_⟩,
    hasWords_of_reachable hreach⟩
  · rintro ⟨c', hc⟩
    exact not_not.mp (Option.ite_none_left_eq_some.mp hc).1
  · exact Session.exists_step_getline hcount hpc room
  · rintro ⟨c', hc⟩
    rw [Session.step_other hloaded hnot] at hc
    obtain ⟨t, ht, _⟩ := Option.map_eq_some_iff.mp hc
    exact ⟨t, ht⟩
  · rintro ⟨t, ht⟩
    exact ⟨_, by rw [Session.step_other hloaded hnot, ht]; rfl⟩

/-- `a | b`, up to the call of `pipe`. -/
theorem session_refines_shell_sample : ∃ is c, (session terminal).Run is c ∧
    (shell terminal).Run (is.map Input.action) c.shell ∧ c.shell.pc = .piping ["a"] ["b"] ∧
      c.arglist = ⟨[0x61#8, 0x00#8, 0x7C#8, 0x00#8, 0x62#8, 0x00#8, 0x00#8],
        [some 0, some 2, some 4, none]⟩ := by
  have hrun : (Machine.perform Session.step ⟨terminal.state, [], []⟩
      [.getline [0x61#8, 0x20#8, 0x7C#8, 0x20#8, 0x62#8, 0x0A#8] 9, .other (.ignoreSigint true)]).map
        (fun c => (c.shell.pc, c.arglist)) = some (.piping ["a"] ["b"],
          ⟨[0x61#8, 0x00#8, 0x7C#8, 0x00#8, 0x62#8, 0x00#8, 0x00#8],
            [some 0, some 2, some 4, none]⟩) := by decide +kernel
  obtain ⟨c, hc, hp⟩ := Option.map_eq_some_iff.mp hrun
  have hrun : (session terminal).Run _ c := Machine.run_ofFun.mpr hc
  rw [Prod.mk.injEq] at hp
  exact ⟨_, c, hrun, (session_refines_shell hrun).1, hp⟩

/-! ## What is executed -/

def Kind.type : Kind → CommandType
  | .regular => .regular
  | .background => .parallel
  | .first _ => .pipe
  | .second _ => .pipe

/-- What a child is to execute, and how. -/
def Child.job (c : Child) : CommandType × List String := (c.kind.type, c.arglist)

/-- The commands of a line with these words. -/
def jobs (arglist : List String) : List (CommandType × List String) :=
  match disclosePipeOrParallel arglist with
  | (.pipe, arglist) => [(.pipe, command1 arglist), (.pipe, command2 arglist)]
  | (.parallel, arglist) => [(.parallel, arglist)]
  | (.regular, arglist) => [(.regular, arglist)]

/-- The commands for which the shell has still to make a child. -/
def Pc.jobs : Pc → List (CommandType × List String)
  | .ignoring arglist => Shell.jobs arglist
  | .piping command1 command2 => [(.pipe, command1), (.pipe, command2)]
  | .forkingFirst _ command1 command2 => [(.pipe, command1), (.pipe, command2)]
  | .forkingSecond _ _ command2 => [(.pipe, command2)]
  | .forking arglist true => [(.parallel, arglist)]
  | .forking arglist false => [(.regular, arglist)]
  | _ => []

def State.made (s : State) : List (CommandType × List String) := s.children.map Child.job

/-- The commands of the lines that are read. -/
def Action.jobs : Action → List (CommandType × List String)
  | .getline (some (word :: words)) => Shell.jobs (word :: words)
  | _ => []

/-- The commands of a line, if there is room for its words. -/
def Input.jobs : Input → List (CommandType × List String)
  | .getline line room =>
    if room ≤ (lineWords line).length ∨ lineWords line = [] then []
    else Shell.jobs ((lineWords line).map text)
  | .other _ => []

theorem Input.jobs_eq {i : Input} (hnot : ∀ words, i ≠ .other (.getline (some words))) :
    i.jobs = i.action.jobs := by
  cases i with
  | getline line room =>
    rw [Input.jobs, Input.action]
    by_cases hroom : room ≤ (lineWords line).length
    · rw [if_pos (Or.inl hroom), if_pos hroom]
      rfl
    · rw [if_neg hroom]
      cases hws : lineWords line with
      | nil => rw [if_pos (Or.inr rfl)]; rfl
      | cons w ws =>
        rw [hws] at hroom
        rw [if_neg (not_or.mpr ⟨hroom, List.cons_ne_nil _ _⟩)]
        rfl
  | other action =>
    cases action with
    | getline words =>
      cases words with
      | none => rfl
      | some words => exact absurd rfl (hnot words)
    | _ => rfl

theorem Child.Move.job {sigchld : Handler} {c c' : Child} {action : ChildAction}
    (h : c.Move sigchld action c') : c'.job = c.job := by
  have harglist : c'.arglist = c.arglist := by
    cases h with
    | prepare ok | command ok => cases ok <;> rfl
    | _ => rfl
  rw [Child.job, Child.job, h.kind, harglist]

theorem Child.reap_job (c : Child) : c.reap.job = c.job := by
  unfold Child.reap
  split <;> rfl

theorem jobs_processArglist (arglist : List String) :
    (processArglist arglist).jobs = jobs arglist := by
  unfold processArglist jobs
  obtain ⟨type, arglist⟩ := disclosePipeOrParallel arglist
  cases type <;> rfl

theorem Pc.jobs_of_fork {pc pc' : Pc} {pid : ℕ} {kind : Kind} {arglist : List String}
    (h : pc.fork pid = some (kind, arglist, pc')) : pc.jobs = (kind.type, arglist) :: pc'.jobs := by
  cases pc with
  | forkingFirst | forkingSecond => cases h; rfl
  | forking arglist background => cases background <;> cases h <;> rfl
  | _ => cases h

theorem Pc.jobs_of_close {pc pc' : Pc} {d : ℕ} (h : pc.close = some (d, pc')) :
    pc.jobs = pc'.jobs := by
  cases pc with
  | closingRead | closingWrite => cases h; rfl
  | _ => cases h

theorem Pc.jobs_of_wait {pc pc' : Pc} {pid : ℕ} (h : pc.wait = some (pid, pc')) :
    pc.jobs = pc'.jobs := by
  cases pc with
  | waitingFirst | waitingSecond | waiting => cases h; rfl
  | _ => cases h

/-- A shell that stays makes the child of its next command, or goes on with the same commands. -/
theorem Move.jobs (h : Move s a t) (hs : s.HandlerFree)
    (hnot : ∀ words, a ≠ .getline (some words)) :
    t.made ++ t.pc.jobs = s.made ++ s.pc.jobs ∨
      ¬ t.pc.Live ∧ t.made = s.made ∧ t.pc.jobs = [] := by
  cases h with
  | blank => exact absurd rfl (hnot _)
  | read => exact absurd rfl (hnot _)
  | leave => exact Or.inr ⟨fun hlive => hlive.1 rfl, rfl, rfl⟩
  | kill => exact Or.inr ⟨fun hlive => hlive.2 rfl, rfl, rfl⟩
  | survive => exact Or.inl rfl
  | @ignore arglist ok hpc =>
    left
    rw [hpc]
    exact congrArg (s.made ++ ·) (jobs_processArglist arglist)
  | pipe hpc =>
    left
    rw [hpc]
    rfl
  | @fork kind arglist pc hpc =>
    left
    rw [Pc.jobs_of_fork hpc, List.append_cons]
    exact congrArg (· ++ pc.jobs) List.map_append
  | close ok hpc =>
    left
    rw [Pc.jobs_of_close hpc]
    rfl
  | @wait pid pc hpc =>
    left
    rw [Pc.jobs_of_wait hpc]
    exact congrArg (· ++ pc.jobs) (map_modify_reap Child.reap_job s.children pid)
  | install hpc =>
    left
    rw [hpc]
    rfl
  | handle hlive handler => exact hs.elim handler
  | child hc hmove => exact Or.inl (congrArg (· ++ s.pc.jobs) (map_set_of_eq hc hmove.job))

/-- After the actions `as`: the children are the first commands of the lines, and a shell that goes on
has still to make the other ones. -/
structure Made (as : List Action) (s : State) : Prop where
  first : s.made ++ s.pc.jobs <+: as.flatMap Action.jobs
  all : s.pc.Live → s.made ++ s.pc.jobs = as.flatMap Action.jobs

theorem Made.step {as : List Action} (h : Made as s) (hs : s.HandlerFree)
    (hst : Shell.step s a = some t) : Made (as ++ [a]) t := by
  have hflat : (as ++ [a]).flatMap Action.jobs = as.flatMap Action.jobs ++ a.jobs := by
    rw [List.flatMap_append, List.flatMap_singleton]
  by_cases hnot : ∀ words, a ≠ .getline (some words)
  · have hjobs : a.jobs = [] := by
      cases a with
      | getline words =>
        cases words with
        | none => rfl
        | some words => exact absurd rfl (hnot words)
      | _ => rfl
    rw [hjobs, List.append_nil] at hflat
    have hmove := step_move hst
    rcases hmove.jobs hs hnot with hsame | ⟨hdead, hmade, hnone⟩
    · exact ⟨by rw [hflat, hsame]; exact h.first,
        fun hlive => by rw [hflat, hsame]; exact h.all (hmove.live hlive)⟩
    · refine ⟨?_, fun hlive => absurd hlive hdead⟩
      rw [hflat, hmade, hnone, List.append_nil]
      exact (List.prefix_append _ _).trans h.first
  · push Not at hnot
    obtain ⟨words, rfl⟩ := hnot
    have hpc : s.pc = .prompt := by
      by_contra hpc
      cases words <;> rw [Shell.step, if_pos hpc] at hst <;> cases hst
    have hwhole := h.all (by rw [hpc]; decide)
    have hsame : t.made ++ t.pc.jobs = (as ++ [Action.getline (some words)]).flatMap Action.jobs := by
      rw [hflat, ← hwhole, hpc]
      cases words with
      | nil =>
        rw [Shell.step, if_neg (not_not.mpr hpc)] at hst
        cases hst
        rw [hpc]
        exact (List.append_nil _).symm
      | cons word words =>
        rw [Shell.step, if_neg (not_not.mpr hpc)] at hst
        cases hst
        rw [List.append_assoc]
        rfl
    exact ⟨hsame ▸ List.prefix_refl _, fun _ => hsame⟩

theorem made_of_run {as : List Action} (h : (shell b).Run as s) : Made as s := by
  refine Machine.Run.history_invariant (I := Made) ?_
    (fun as s a t hrun hi hst => hi.step (handlerFree_of_reachable hrun.reachable) hst) h
  rintro _ rfl
  exact ⟨List.prefix_refl _, fun _ => rfl⟩

theorem jobs_of_run {is : List Input} (hs : (session b).Run is c) :
    (is.map Input.action).flatMap Action.jobs = is.flatMap Input.jobs := by
  have hnot : ∀ i ∈ is, ∀ words, i ≠ .other (.getline (some words)) := by
    refine Machine.Run.history_invariant
      (I := fun is _ => ∀ i ∈ is, ∀ words, i ≠ .other (.getline (some words))) ?_ ?_ hs
    · exact fun _ _ i hi => absurd hi List.not_mem_nil
    · intro is c i c' _ hi hst
      rw [List.forall_mem_append, List.forall_mem_singleton]
      refine ⟨hi, ?_⟩
      rintro words rfl
      cases hst
  rw [List.flatMap_map]
  exact List.flatMap_congr fun i hi => (Input.jobs_eq (hnot i hi)).symm

/-- The children are the first commands of the lines that `getline` has returned, in their order, each
command of a line once and with its own words; at a prompt they are all of them. -/
theorem commands_as_typed {is : List Input} (hs : (session b).Run is c) :
    c.shell.children.map Child.job <+: is.flatMap Input.jobs ∧
      (c.shell.pc = .prompt → c.shell.children.map Child.job = is.flatMap Input.jobs) := by
  obtain ⟨_, hrun, rfl, _⟩ := (session_simulation b).run hs
  have hmade := made_of_run hrun
  rw [← jobs_of_run hs]
  refine ⟨(List.prefix_append _ _).trans hmade.first, fun hpc => ?_⟩
  rw [← hmade.all (by rw [hpc]; decide), hpc]
  exact (List.append_nil _).symm

/-- `a &`, a blank line and `b  c &`. -/
theorem commands_as_typed_sample : ∃ is c, (session terminal).Run is c ∧
    c.shell.children.map Child.job = is.flatMap Input.jobs ∧
      is.flatMap Input.jobs = [(.parallel, ["a"]), (.parallel, ["b", "c"])] := by
  have hrun : (Machine.perform Session.step ⟨terminal.state, [], []⟩
      [.getline [0x61#8, 0x20#8, 0x26#8, 0x0A#8] 9, .other (.ignoreSigint true),
        .other (.fork true), .other (.installLongclaw true), .getline [0x20#8, 0x0A#8] 9,
        .getline [0x62#8, 0x20#8, 0x09#8, 0x63#8, 0x20#8, 0x26#8, 0x0A#8] 9,
        .other (.ignoreSigint true), .other (.fork true), .other (.installLongclaw true)]).map
          (fun c => c.shell.pc) = some .prompt := by decide +kernel
  obtain ⟨c, hc, hp⟩ := Option.map_eq_some_iff.mp hrun
  have hrun : (session terminal).Run _ c := Machine.run_ofFun.mpr hc
  exact ⟨_, c, hrun, (commands_as_typed hrun).2 hp, by decide +kernel⟩

/-! ## What is typed -/

theorem lineWords_typed {lead : List Byte} {ws : List (List Byte × List Byte)}
    (hw : ∀ x ∈ ws, IsWord delim x.1 ∧ 0#8 ∉ x.1)
    (hgap : ∀ x ∈ ws, x.2 ≠ [] ∧ ∀ c ∈ x.2, delim c = true) (hlead : ∀ c ∈ lead, delim c = true) :
    lineWords (lead ++ ws.flatMap fun x => x.1 ++ x.2) = ws.map Prod.fst := by
  have hall : ∀ c ∈ lead ++ ws.flatMap fun x => x.1 ++ x.2, decide (c ≠ 0#8) = true := by
    intro c hc
    rw [decide_eq_true_eq]
    rintro rfl
    simp only [List.mem_append, List.mem_flatMap] at hc
    rcases hc with hc | ⟨x, hx, hc | hc⟩
    · exact delim_ne_zero (hlead _ hc) rfl
    · exact (hw x hx).2 hc
    · exact delim_ne_zero ((hgap x hx).2 _ hc) rfl
  rw [lineWords, List.takeWhile_eq_self_iff.mpr hall]
  exact words_written (fun x hx => (hw x hx).1) hgap hlead

/-- Words that are typed with any blanks between them and around them come back as they are: `arglist`
has one pointer for each, a `NULL` behind the last one and nowhere else, and `process_arglist` works
on them. -/
theorem typed_words_read (lead : List Byte) (ws : List (List Byte × List Byte)) (room : ℕ)
    (hw : ∀ x ∈ ws, IsWord delim x.1 ∧ 0#8 ∉ x.1)
    (hgap : ∀ x ∈ ws, x.2 ≠ [] ∧ ∀ c ∈ x.2, delim c = true) (hlead : ∀ c ∈ lead, delim c = true)
    (hroom : ws.length < room) (hcount : ws.length < INT_MAX) :
    ∃ a, readArglist room (lead ++ ws.flatMap fun x => x.1 ++ x.2) = some (some a) ∧
      a.count = ws.length ∧ (∀ i, a.arglist[i]? = some none ↔ i = ws.length) ∧
      (∀ (i : ℕ) (x : List Byte × List Byte), ws[i]? = some x →
        ∃ p, a.arglist[i]? = some (some p) ∧ stringAt a.line p = some x.1) ∧
      a.processArglist a.count = some (processArglist (ws.map fun x => text x.1)) := by
  have hwords := lineWords_typed hw hgap hlead
  generalize hline : (lead ++ ws.flatMap fun x => x.1 ++ x.2) = line at hwords ⊢
  have hlength : (lineWords line).length = ws.length := by rw [hwords, List.length_map]
  obtain ⟨a, hread, ha⟩ := readArglist_of_room (hlength ▸ hroom) (hlength ▸ hcount)
  have hprocess := Arglist.processArglist_eq ha
  obtain ⟨ps, hps, hleads⟩ := ha
  have hlen : ps.length = ws.length := hleads.length_eq.trans hlength
  have hacount : a.count = ws.length := by simp [Arglist.count, hps, hlen]
  refine ⟨a, hread, hacount, fun i => ?_, fun i x hx => ?_, ?_⟩
  · rw [hps, List.getElem?_append, List.length_map, hlen]
    split
    case isTrue hi => simp [Nat.ne_of_lt hi]
    case isFalse hi =>
      rw [List.getElem?_singleton, Option.ite_none_right_eq_some, and_iff_left rfl]
      omega
  · obtain ⟨hi, rfl⟩ := List.getElem?_eq_some_iff.mp hx
    have hp : i < ps.length := hlen.symm ▸ hi
    have hat := hleads.get hp (hlength.symm ▸ hi)
    refine ⟨ps[i], ?_, ?_⟩
    · rw [hps, List.getElem?_append_left (by rwa [List.length_map])]
      simp [hp]
    · simpa [hwords] using hat
  · rw [hacount, ← hlength, hprocess, hwords, List.map_map]
    rfl

theorem typed_words_read_sample : ∃ a,
    readArglist 9 [0x09#8, 0x6C#8, 0x73#8, 0x20#8, 0x20#8, 0x26#8, 0x0A#8] = some (some a) ∧
      a.count = 2 ∧ a.processArglist 2 = some (.forking ["ls"] true) := by
  obtain ⟨a, hread, hcount, _, _, hprocess⟩ := typed_words_read [0x09#8]
    [([0x6C#8, 0x73#8], [0x20#8, 0x20#8]), ([0x26#8], [0x0A#8])] 9 (by decide) (by decide)
    (by decide) (by decide) (by decide)
  rw [hcount] at hprocess
  exact ⟨a, hread, hcount, hprocess.trans (by decide)⟩

end OsCourse.Shell
