import OsCourse.Shell.Pipes

/-! # The wiring of the shell's pipes

The tables along a run in which `pipe`, `fork`, `close` and `dup2` succeed, and end of file for the
second command of a pipe.
-/

namespace OsCourse.Shell
open Foundations

variable {files : Table File} {s t : State} {a : Action} {p : Descriptors} {n : ℕ} {e : File}

/-! ## The table of the shell -/

structure State.Wired (files : Table File) (s : State) : Prop where
  shell : s.files = s.pc.table files
  unused : ∀ p, s.pc.descriptors = some p → p.Unused files
  children : ∀ c ∈ s.children, c.Wired files

variable (files) in
theorem table_processArglist (arglist : List String) :
    (processArglist arglist).table files = files ∧ (processArglist arglist).descriptors = none := by
  unfold processArglist
  split <;> exact ⟨rfl, rfl⟩

variable (files) in
theorem Pc.table_of_fork {pc pc' : Pc} {pid : ℕ} {kind : Kind} {arglist : List String}
    (h : pc.fork pid = some (kind, arglist, pc')) :
    pc'.table files = pc.table files ∧ pc'.descriptors = pc.descriptors := by
  cases pc with
  | forkingFirst | forkingSecond =>
    cases h
    exact ⟨rfl, rfl⟩
  | forking arglist background =>
    cases background <;> cases h <;> exact ⟨rfl, rfl⟩
  | _ => cases h

theorem Pc.table_of_close {pc pc' : Pc} {d : ℕ} (h : pc.close = some (d, pc'))
    (hunused : ∀ p, pc.descriptors = some p → p.Unused files) :
    (pc.table files).close d = pc'.table files := by
  cases pc with
  | closingRead p =>
    cases h
    have hp := hunused p rfl
    rw [Pc.table, Table.opened_comm hp.ne, Table.close_opened]
    · rfl
    · rw [Table.opened_of_ne hp.ne, hp.read]
  | closingWrite p =>
    cases h
    exact Table.close_opened (hunused p rfl).write _
  | _ => cases h

theorem Pc.descriptors_of_close {pc pc' : Pc} {d : ℕ} (h : pc.close = some (d, pc'))
    (hp : pc'.descriptors = some p) : pc.descriptors = some p := by
  cases pc with
  | closingRead =>
    cases h
    exact hp
  | closingWrite =>
    cases h
    cases hp
  | _ => cases h

variable (files) in
theorem Pc.table_of_wait {pc pc' : Pc} {pid : ℕ} (h : pc.wait = some (pid, pc')) :
    pc.table files = files ∧ pc'.table files = files ∧ pc'.descriptors = none := by
  cases pc with
  | waitingFirst | waitingSecond | waiting =>
    cases h
    exact ⟨rfl, rfl, rfl⟩
  | _ => cases h

theorem Move.wired (hstart : Started files) (h : Move s a t) (hs : s.HandlerFree)
    (hi : s.Wired files) (ha : a.pipeCallsSucceed) : t.Wired files := by
  have hchildren : ∀ c ∈ t.children, c.Wired files := by
    refine h.forall_children hs hi.children ?_ ?_ ?_
    · exact fun _ _ _ hpc => wired_newborn hstart hpc hi.shell hi.unused
    · exact fun _ hc => hc.reap
    · rintro pid action c c' rfl hmove hc
      exact hc.move hstart hmove ha
  have hshell : t.files = t.pc.table files ∧ ∀ p, t.pc.descriptors = some p → p.Unused files := by
    have htable := hi.shell
    cases h with
    | blank | survive | child => exact ⟨hi.shell, hi.unused⟩
    | read hpc =>
      rw [hpc] at htable
      exact ⟨htable, fun _ hp => by cases hp⟩
    | leave | kill => exact ⟨rfl, fun _ hp => by cases hp⟩
    | ignore hpc =>
      rw [hpc] at htable
      obtain ⟨hfiles, hnone⟩ := table_processArglist files _
      refine ⟨htable.trans hfiles.symm, fun p hp => ?_⟩
      rw [show (processArglist _).descriptors = _ from hp] at hnone
      cases hnone
    | pipe hpc hne hread hwrite =>
      rw [hpc] at htable
      obtain rfl : s.files = files := htable
      refine ⟨rfl, fun p hp => ?_⟩
      cases hp
      exact ⟨hread, hwrite, hne⟩
    | fork hpc =>
      obtain ⟨hsame, hdescriptors⟩ := Pc.table_of_fork files hpc
      exact ⟨htable.trans hsame.symm, fun p hp => hi.unused p (hdescriptors ▸ hp)⟩
    | close ok hpc =>
      obtain rfl : ok = true := ha
      refine ⟨?_, fun p hp => hi.unused p (Pc.descriptors_of_close hpc hp)⟩
      rw [← Pc.table_of_close hpc hi.unused, ← htable, if_pos rfl]
    | wait hpc =>
      obtain ⟨hfiles, hfiles', hnone⟩ := Pc.table_of_wait files hpc
      refine ⟨htable.trans (hfiles.trans hfiles'.symm), fun p hp => ?_⟩
      cases hnone.symm.trans hp
    | install hpc =>
      rw [hpc] at htable
      exact ⟨htable, fun _ hp => by cases hp⟩
    | handle hlive handler => exact hs.elim handler
  exact ⟨hshell.1, hshell.2, hchildren⟩

/-! ## Each pipe has one first and one second child -/

def Kind.role : Kind → Option (Bool × ℕ)
  | .first descriptors => some (false, descriptors.pipe)
  | .second descriptors => some (true, descriptors.pipe)
  | _ => none

/-- The roles for which the shell has still to make a child. -/
def Pc.roles : Pc → List (Bool × ℕ)
  | .forkingFirst descriptors _ _ => [(false, descriptors.pipe), (true, descriptors.pipe)]
  | .forkingSecond descriptors _ _ => [(true, descriptors.pipe)]
  | _ => []

def State.kinds (s : State) : List Kind := s.children.map Child.kind

structure State.Numbered (s : State) : Prop where
  distinct : s.kinds.Pairwise fun k k' => ∀ x, k.role = some x → k'.role ≠ some x
  given : ∀ k ∈ s.kinds, ∀ x, k.role = some x → x.2 < s.pipes ∧ x ∉ s.pc.roles
  roles : ∀ x ∈ s.pc.roles, x.2 < s.pipes

theorem State.Numbered.unique (h : s.Numbered) {c c' : Child} (hc : c ∈ s.children)
    (hc' : c' ∈ s.children) {x : Bool × ℕ} (hx : c.kind.role = some x)
    (hx' : c'.kind.role = some x) : c = c' := by
  by_contra hne
  have : Std.Symm fun c c' : Child => ∀ x, c.kind.role = some x → c'.kind.role ≠ some x :=
    ⟨fun c c' hcc' x hx' hx => hcc' x hx hx'⟩
  exact (List.pairwise_map.mp h.distinct).forall hc hc' hne x hx hx'

theorem State.Numbered.of_same (h : s.Numbered) (hkinds : t.kinds = s.kinds)
    (hpipes : t.pipes = s.pipes) (hroles : t.pc.roles ⊆ s.pc.roles) : t.Numbered := by
  refine ⟨hkinds ▸ h.distinct, fun k hk x hx => ?_, fun x hx => hpipes ▸ h.roles x (hroles hx)⟩
  obtain ⟨hlt, hnot⟩ := h.given k (hkinds ▸ hk) x hx
  exact ⟨hpipes ▸ hlt, fun hmem => hnot (hroles hmem)⟩

theorem Child.Move.kind {sigchld : Handler} {c c' : Child} {action : ChildAction}
    (h : c.Move sigchld action c') : c'.kind = c.kind := by
  cases h with
  | prepare | command => exact c.perform_kind _ _
  | _ => rfl

theorem Child.reap_kind (c : Child) : c.reap.kind = c.kind := by
  unfold Child.reap
  split <;> rfl

theorem map_modify_reap {α : Type*} {f : Child → α} (hf : ∀ c : Child, f c.reap = f c)
    (children : List Child) (pid : ℕ) :
    (children.modify pid Child.reap).map f = children.map f := by
  refine List.ext_getElem? fun k => ?_
  rw [List.getElem?_map, List.getElem?_map, List.getElem?_modify, Option.map_eq_map,
    Option.map_map]
  refine congrArg (Option.map · _) (funext fun c => ?_)
  rw [Function.comp_apply]
  split
  · exact hf c
  · rfl

theorem map_set_of_eq {α : Type*} {f : Child → α} {children : List Child} {pid : ℕ} {c c' : Child}
    (hc : children[pid]? = some c) (hf : f c' = f c) :
    (children.set pid c').map f = children.map f := by
  apply List.ext_getElem?
  intro k
  rw [List.getElem?_map, List.getElem?_map]
  by_cases hk : pid = k
  · subst hk
    rw [List.getElem?_set_self (List.getElem?_eq_some_iff.mp hc).1, hc]
    exact congrArg some hf
  · rw [List.getElem?_set_ne hk]

theorem Pc.roles_of_fork {pc pc' : Pc} {pid : ℕ} {kind : Kind} {arglist : List String}
    (h : pc.fork pid = some (kind, arglist, pc')) :
    pc'.roles ⊆ pc.roles ∧ ∀ x, kind.role = some x → x ∈ pc.roles ∧ x ∉ pc'.roles := by
  cases pc with
  | forkingFirst p | forkingSecond p =>
    cases h
    simp [Pc.roles, Kind.role]
  | forking arglist background =>
    cases background <;> cases h <;> simp [Pc.roles, Kind.role]
  | _ => cases h

theorem Pc.roles_of_close {pc pc' : Pc} {d : ℕ} (h : pc.close = some (d, pc')) :
    pc'.roles = [] := by
  cases pc with
  | closingRead | closingWrite => cases h; rfl
  | _ => cases h

theorem Pc.roles_of_wait {pc pc' : Pc} {pid : ℕ} (h : pc.wait = some (pid, pc')) :
    pc'.roles = [] := by
  cases pc with
  | waitingFirst | waitingSecond | waiting => cases h; rfl
  | _ => cases h

theorem roles_processArglist (arglist : List String) : (processArglist arglist).roles = [] := by
  unfold processArglist
  split <;> rfl

theorem Move.numbered (h : Move s a t) (hs : s.HandlerFree) (hi : s.Numbered) : t.Numbered := by
  cases h with
  | blank | survive => exact hi
  | read | leave | kill | install => exact hi.of_same rfl rfl (List.nil_subset _)
  | ignore =>
    refine hi.of_same rfl rfl ?_
    rw [roles_processArglist]
    exact List.nil_subset _
  | pipe =>
    refine ⟨hi.distinct, fun k hk x hx => ?_, ?_⟩
    · obtain ⟨hlt, -⟩ := hi.given k hk x hx
      refine ⟨Nat.lt_succ_of_lt hlt, fun hmem => ?_⟩
      simp only [State.openPipe, Pc.roles, List.mem_cons, List.not_mem_nil, or_false] at hmem
      obtain rfl | rfl := hmem <;> exact lt_irrefl _ hlt
    · simp [State.openPipe, Pc.roles]
  | @fork kind arglist pc hpc =>
    obtain ⟨hsub, hrole⟩ := Pc.roles_of_fork hpc
    have hkinds : (s.spawn kind arglist pc).kinds = s.kinds ++ [kind] := List.map_append
    refine ⟨?_, fun k hk x hx => ?_, fun x hx => hi.roles x (hsub hx)⟩
    · rw [hkinds, List.pairwise_append]
      refine ⟨hi.distinct, List.pairwise_singleton _ _, fun k hk k' hk' x hx hx' => ?_⟩
      rw [List.mem_singleton.mp hk'] at hx'
      exact (hi.given k hk x hx).2 (hrole x hx').1
    · rw [hkinds, List.mem_append, List.mem_singleton] at hk
      obtain hk | rfl := hk
      · exact ⟨(hi.given k hk x hx).1, fun hmem => (hi.given k hk x hx).2 (hsub hmem)⟩
      · exact ⟨hi.roles x (hrole x hx).1, (hrole x hx).2⟩
  | close ok hpc =>
    refine hi.of_same rfl rfl ?_
    rw [Pc.roles_of_close hpc]
    exact List.nil_subset _
  | @wait pid pc hpc =>
    refine hi.of_same (map_modify_reap Child.reap_kind s.children pid) rfl ?_
    rw [Pc.roles_of_wait hpc]
    exact List.nil_subset _
  | handle hlive handler => exact hs.elim handler
  | child hc hmove => exact hi.of_same (map_set_of_eq hc hmove.kind) rfl (List.Subset.refl _)

/-! ## Along a run -/

/-- The shell of which no `pipe`, `fork`, `close` or `dup2` fails. -/
def pipingShell (b : Boot) : Machine State Action :=
  (shell b).guarded fun _ a _ => a.pipeCallsSucceed

structure State.Sound (files : Table File) (s : State) : Prop where
  handler : s.HandlerFree
  wired : s.Wired files
  numbered : s.Numbered

theorem State.Sound.after (hstart : Started files) (hi : s.Sound files) (h : step s a = some t)
    (ha : a.pipeCallsSucceed) : t.Sound files where
  handler := (step_move h).handlerFree hi.handler
  wired := (step_move h).wired hstart hi.handler hi.wired ha
  numbered := (step_move h).numbered hi.handler hi.numbered

theorem sound_of_run {b : Boot} (hstart : Started b.files) {as : List Action}
    (h : (pipingShell b).Run as s) : s.Sound b.files := by
  refine h.invariant ?_ fun _ _ _ hi hstep => hi.after hstart hstep.1 hstep.2
  rintro _ rfl
  refine ⟨⟨inheritedHandler_ne _, inheritedHandler_ne _⟩, ⟨rfl, fun _ hp => (by cases hp), ?_⟩, ?_⟩
  · exact fun _ hc => by cases hc
  · exact ⟨List.Pairwise.nil, fun _ hk => (by cases hk), fun _ hx => by cases hx⟩

/-! ## End of file -/

/-- The first command of the pipe has exited and the second has reached `execvp`. -/
structure State.Drained (s : State) (p : Descriptors) : Prop where
  first : ∃ c ∈ s.children, c.kind = .first p ∧ c.Exited
  second : ∃ c ∈ s.children, c.kind = .second p ∧ c.ReachedExecvp

/-- The shell is not between opening the `n`th pipe and its second `close`. -/
def Pc.Closed (pc : Pc) (n : ℕ) : Prop := ∀ p, pc.descriptors = some p → p.pipe ≠ n

theorem Child.Wired.writerless (hstart : Started files) {c : Child} (h : c.Wired files)
    (hkind : c.kind = .second p) (hreached : c.ReachedExecvp) :
    ¬ c.files.Holds (.writeEnd p.pipe) := by
  obtain hexec | hat := hreached
  · exact h.reader p hkind hexec
  · have hfiles := h.table hat.toPreparing
    rw [Child.finalFiles, hat.todo, hkind] at hfiles
    rw [show c.files = _ from hfiles]
    intro hholds
    obtain hends | hholds := Table.Holds.of_opened hholds
    · cases hends
    · exact hstart.others _ p.pipe (Or.inr rfl) hholds

theorem State.Sound.writerless (hstart : Started files) (hi : s.Sound files) (h : s.Drained p)
    (hclosed : s.pc.Closed p.pipe) : s.Writerless p.pipe := by
  obtain ⟨c₁, hc₁, hfirst, hexited⟩ := h.first
  obtain ⟨c₂, hc₂, hsecond, hreached⟩ := h.second
  refine ⟨fun hholds => ?_, fun c hc hholds => ?_⟩
  · rw [hi.wired.shell] at hholds
    obtain ⟨p', hp', hpipe⟩ := Pc.table_holds hstart s.pc (Or.inr rfl) hholds
    exact hclosed p' hp' hpipe
  · have hpipe := (hi.wired.children c hc).ends _ _ (Or.inr rfl) hholds
    have hrole : c.kind.role = c₁.kind.role ∨ c.kind.role = c₂.kind.role := by
      rw [hfirst, hsecond]
      revert hpipe
      cases c.kind with
      | first q => exact fun hq => Or.inl (congrArg (Option.map (Prod.mk false)) hq)
      | second q => exact fun hq => Or.inr (congrArg (Option.map (Prod.mk true)) hq)
      | _ => exact fun hq => by cases hq
    obtain hrole | hrole := hrole
    · obtain rfl := hi.numbered.unique hc hc₁ (hrole.trans (by rw [hfirst]; rfl)) (by rw [hfirst]; rfl)
      rw [(hi.wired.children c hc).exited hexited] at hholds
      exact Table.not_holds_empty _ hholds
    · obtain rfl := hi.numbered.unique hc hc₂ (hrole.trans (by rw [hsecond]; rfl))
        (by rw [hsecond]; rfl)
      exact (hi.wired.children c hc).writerless hstart hsecond hreached hholds

theorem step_close {d : ℕ} {pc : Pc} (hpc : s.pc.close = some (d, pc)) :
    step s (.close true) = some { s with pc := pc, files := s.files.close d } := by
  rw [step, hpc]
  rfl

/-- If the shell has not closed the pipe, then it does so in its next two steps. -/
theorem State.Sound.closes (hstart : Started files) (hi : s.Sound files) (h : s.Drained p) :
    ∃ m ≤ 2, ∃ t, Machine.perform step s (List.replicate m (.close true)) = some t ∧
      t.Writerless p.pipe := by
  by_cases hclosed : s.pc.Closed p.pipe
  · exact ⟨0, Nat.zero_le 2, s, rfl, hi.writerless hstart h hclosed⟩
  have hroles : (true, p.pipe) ∉ s.pc.roles := by
    obtain ⟨c, hc, hkind, -⟩ := h.second
    exact (hi.numbered.given c.kind (List.mem_map_of_mem hc) _ (by rw [hkind]; rfl)).2
  obtain ⟨q, hq, hpipe⟩ : ∃ q, s.pc.descriptors = some q ∧ q.pipe = p.pipe := by
    by_contra hnone
    exact hclosed fun q hq hpipe => hnone ⟨q, hq, hpipe⟩
  cases hpc : s.pc with
  | forkingFirst | forkingSecond =>
    rw [hpc] at hq hroles
    cases hq
    rw [← hpipe] at hroles
    exact absurd (by simp [Pc.roles]) hroles
  | closingRead q' i j =>
    have hread : s.pc.close = some (q'.read, .closingWrite q' i j) := by rw [hpc]; rfl
    have hwrite : (Pc.closingWrite q' i j).close = some (q'.write, .waitingFirst i j) := rfl
    have ht := step_close hread
    have hu := step_close (s := { s with pc := _, files := s.files.close q'.read }) hwrite
    refine ⟨2, le_rfl, _, ?_, ((hi.after hstart ht rfl).after hstart hu rfl).writerless hstart
      ⟨h.first, h.second⟩ fun _ hp => by cases hp⟩
    rw [List.replicate_succ, List.replicate_one, Machine.perform, ht, Option.bind_some,
      Machine.perform, hu]
    rfl
  | closingWrite q' i j =>
    have hwrite : s.pc.close = some (q'.write, .waitingFirst i j) := by rw [hpc]; rfl
    have ht := step_close hwrite
    refine ⟨1, one_le_two, _, ?_, (hi.after hstart ht rfl).writerless hstart
      ⟨h.first, h.second⟩ fun _ hp => by cases hp⟩
    rw [List.replicate_one, Machine.perform, ht]
    rfl
  | _ =>
    rw [hpc] at hq
    cases hq

/-! ## The pipes -/

/-- The descriptors of pipes, at the points where they matter. -/
structure State.PipesRight (files : Table File) (s : State) : Prop where
  first : ∀ c ∈ s.children, ∀ p, c.kind = .first p → c.AtExecvp →
    c.files 1 = some (.writeEnd p.pipe) ∧
      ∀ d e, File.IsEnd e p.pipe → c.files d = some e → d = 1
  second : ∀ c ∈ s.children, ∀ p, c.kind = .second p → c.AtExecvp →
    c.files 0 = some (.readEnd p.pipe) ∧
      ∀ d e, File.IsEnd e p.pipe → c.files d = some e → d = 0
  waiting : ∀ x, s.pc.wait = some x → ∀ e n, File.IsEnd e n → ¬ s.files.Holds e
  prompt : s.pc = .prompt → s.files = files

theorem Started.opened_only (hstart : Started files) {d k : ℕ} {f : File} (he : e.IsEnd n)
    (h : files.opened k f d = some e) : d = k := by
  by_contra hne
  rw [Table.opened_of_ne hne] at h
  exact hstart.others e n he ⟨d, h⟩

theorem State.Sound.pipesRight (hstart : Started files) (hi : s.Sound files) :
    s.PipesRight files := by
  have htable : ∀ c ∈ s.children, c.AtExecvp → c.files = c.kind.table files := fun c hc hat => by
    have hfiles := (hi.wired.children c hc).table hat.toPreparing
    rwa [Child.finalFiles, hat.todo] at hfiles
  refine ⟨fun c hc p hkind hat => ?_, fun c hc p hkind hat => ?_, fun x hx e n he => ?_, ?_⟩
  · rw [htable c hc hat, hkind]
    exact ⟨Table.opened_self .., fun d e he h => hstart.opened_only he h⟩
  · rw [htable c hc hat, hkind]
    exact ⟨Table.opened_self .., fun d e he h => hstart.opened_only he h⟩
  · rw [hi.wired.shell, (Pc.table_of_wait files hx).1]
    exact hstart.others e n he
  · intro hpc
    rw [hi.wired.shell, hpc]
    rfl

variable {b : Boot} {as : List Action}

/-- Pipe descriptors are where they belong; and when the first command of a pipe has exited and the
second has reached `execvp`, nobody holds the write end as soon as the shell has closed it, which it
does next. -/
theorem pipes_wired (h0 : b.inherited 0 ≠ none) (h1 : b.inherited 1 ≠ none)
    (h : (pipingShell b).Run as s) :
    s.PipesRight b.files ∧ ∀ p, s.Drained p →
      (s.pc.Closed p.pipe → s.Writerless p.pipe) ∧
      ∃ m ≤ 2, ∃ t, Machine.perform step s (List.replicate m (.close true)) = some t ∧
        t.Writerless p.pipe := by
  have hstart := started_files h0 h1
  have hi := sound_of_run hstart h
  exact ⟨hi.pipesRight hstart, fun p hp => ⟨hi.writerless hstart hp, hi.closes hstart hp⟩⟩

/-- `a | b` up to the point where the first command has exited, and the second is at `execvp`. -/
def pipeline : List Action :=
  [.getline (some ["a", "|", "b"]), .ignoreSigint true, .pipe (some (3, 4)), .fork true, .fork true,
    .child 0 (.call (.sigint .SIG_DFL) true), .child 0 (.call (.close 3) true),
    .child 0 (.call (.dup2 4 1) true), .child 0 (.call (.close 4) true), .child 0 (.execvp true),
    .child 0 .terminate, .child 1 (.call (.sigint .SIG_DFL) true), .child 1 (.call (.close 4) true),
    .child 1 (.call (.dup2 3 0) true), .child 1 (.call (.close 3) true)]

theorem pipeline_run : ∃ s, (pipingShell terminal).Run pipeline s ∧ s.Drained ⟨0, 3, 4⟩ ∧
    s.files 4 = some (.writeEnd 0) := by
  obtain ⟨s, hs⟩ : ∃ s, Machine.perform
      (fun s a => if Action.pipeCallsSucceed a = true then step s a else none) terminal.state
      pipeline = some s := ⟨_, rfl⟩
  refine ⟨s, Machine.run_guarded_ofFun.mpr hs, ?_⟩
  cases hs
  refine ⟨⟨⟨_, List.mem_cons_self, rfl, Or.inl rfl⟩, ?_⟩, rfl⟩
  exact ⟨_, List.mem_cons_of_mem _ List.mem_cons_self, rfl, Or.inr ⟨⟨Or.inl rfl, rfl⟩, rfl⟩⟩

theorem pipes_wired_sample : ∃ s, (pipingShell terminal).Run pipeline s ∧
    s.PipesRight terminal.files ∧ ∃ m ≤ 2, ∃ t,
      Machine.perform step s (List.replicate m (.close true)) = some t ∧ t.Writerless 0 := by
  obtain ⟨s, hrun, hdrained, -⟩ := pipeline_run
  obtain ⟨hright, hend⟩ := pipes_wired (by decide) (by decide) hrun
  exact ⟨s, hrun, hright, (hend _ hdrained).2⟩

/-- The shell may still hold the write end then. -/
theorem writer_remains : ∃ s, (pipingShell terminal).Run pipeline s ∧ s.Drained ⟨0, 3, 4⟩ ∧
    ¬ s.Writerless 0 := by
  obtain ⟨s, hrun, hdrained, hwrite⟩ := pipeline_run
  exact ⟨s, hrun, hdrained, fun h => h.shell ⟨4, hwrite⟩⟩

end OsCourse.Shell
