import OsCourse.Shell.Interrupts

/-! # The descriptors of a pipe

The table of the shell is given by where it is, and the table of a child that is on its way to
`execvp` by the calls it has still to make. Nobody but the shell and the two children of a pipe
ever holds one of its ends.
-/

namespace OsCourse.Shell
open Foundations

/-- `pipe`, `fork`, `close` and `dup2` do not fail. -/
def Action.pipeCallsSucceed : Action → Bool
  | .pipe none => false
  | .fork ok => ok
  | .close ok => ok
  | .child _ (.call (.close _) ok) => ok
  | .child _ (.call (.dup2 _ _) ok) => ok
  | _ => true

def File.IsEnd (e : File) (n : ℕ) : Prop := e = .readEnd n ∨ e = .writeEnd n

def Child.Exited (c : Child) : Prop := c.life = .zombie ∨ c.life = .reaped

def Child.ReachedExecvp (c : Child) : Prop := c.executing = true ∨ c.AtExecvp

/-- No process holds the write end of the `n`th pipe, and so its reader can see end of file. -/
structure State.Writerless (s : State) (n : ℕ) : Prop where
  shell : ¬ s.files.Holds (.writeEnd n)
  children : ∀ c ∈ s.children, ¬ c.files.Holds (.writeEnd n)

/-- The pipe that the child has to do with. -/
def Kind.pipe : Kind → Option ℕ
  | .first descriptors => some descriptors.pipe
  | .second descriptors => some descriptors.pipe
  | _ => none

/-- The pipe that the shell has not yet closed. -/
def Pc.descriptors : Pc → Option Descriptors
  | .forkingFirst descriptors _ _ => some descriptors
  | .forkingSecond descriptors _ _ => some descriptors
  | .closingRead descriptors _ _ => some descriptors
  | .closingWrite descriptors _ _ => some descriptors
  | _ => none

/-! ## The tables -/

/-- The table of a child at its `execvp`, when the shell was started with `files`. -/
def Kind.table (files : Table File) : Kind → Table File
  | .first descriptors => files.opened 1 (.writeEnd descriptors.pipe)
  | .second descriptors => files.opened 0 (.readEnd descriptors.pipe)
  | _ => files

def Pc.table (files : Table File) : Pc → Table File
  | .forkingFirst p _ _ => (files.opened p.read (.readEnd p.pipe)).opened p.write (.writeEnd p.pipe)
  | .forkingSecond p _ _ => (files.opened p.read (.readEnd p.pipe)).opened p.write (.writeEnd p.pipe)
  | .closingRead p _ _ => (files.opened p.read (.readEnd p.pipe)).opened p.write (.writeEnd p.pipe)
  | .closingWrite p _ _ => files.opened p.write (.writeEnd p.pipe)
  | .exited => Table.empty
  | .killed => Table.empty
  | _ => files

/-- The table that a child has after the calls before its `execvp`. -/
def Child.finalFiles (c : Child) : Table File :=
  c.todo.foldl (fun files call => call.table files) c.files

/-- The descriptors of `pipe` were not in use. -/
structure Descriptors.Unused (files : Table File) (p : Descriptors) : Prop where
  read : files p.read = none
  write : files p.write = none
  ne : p.read ≠ p.write

/-- What the shell was started with: 0 and 1 are open, and nothing is an end of one of its pipes. -/
structure Started (files : Table File) : Prop where
  input : files 0 ≠ none
  output : files 1 ≠ none
  others : ∀ e n, File.IsEnd e n → ¬ files.Holds e

variable {files : Table File} {s t : State} {a : Action} {p : Descriptors} {n : ℕ} {e : File}

theorem started_files {b : Boot} (h0 : b.inherited 0 ≠ none) (h1 : b.inherited 1 ≠ none) :
    Started b.files := by
  refine ⟨fun h => h0 (Option.map_eq_none_iff.mp h), fun h => h1 (Option.map_eq_none_iff.mp h), ?_⟩
  rintro e n he ⟨d, hd⟩
  obtain ⟨k, -, rfl⟩ := Option.map_eq_some_iff.mp hd
  obtain he | he := he <;> cases he

theorem File.IsEnd.of_opened {d m : ℕ} {f : File} {table : Table File} (he : e.IsEnd n)
    (h : (table.opened d f).Holds e) (hf : f.IsEnd m) : n = m ∨ table.Holds e := by
  obtain rfl | h := h.of_opened
  · left
    obtain rfl | rfl := he <;> obtain h | h := hf <;> cases h <;> rfl
  · exact Or.inr h

theorem Pc.table_holds (hstart : Started files) (pc : Pc) (he : e.IsEnd n)
    (h : (pc.table files).Holds e) : ∃ p, pc.descriptors = some p ∧ p.pipe = n := by
  cases pc with
  | forkingFirst p | forkingSecond p | closingRead p =>
    obtain rfl | h := he.of_opened h (Or.inr rfl)
    · exact ⟨p, rfl, rfl⟩
    obtain rfl | h := he.of_opened h (Or.inl rfl)
    · exact ⟨p, rfl, rfl⟩
    · exact absurd h (hstart.others e n he)
  | closingWrite p =>
    obtain rfl | h := he.of_opened h (Or.inr rfl)
    · exact ⟨p, rfl, rfl⟩
    · exact absurd h (hstart.others e n he)
  | exited | killed => exact absurd h (Table.not_holds_empty e)
  | _ => exact absurd h (hstart.others e n he)

/-! ## The children -/

structure Child.Wired (files : Table File) (c : Child) : Prop where
  todo : ∀ d k, .opens d k ∉ c.todo
  table : c.Preparing → c.finalFiles = c.kind.table files
  ends : ∀ e n, File.IsEnd e n → c.files.Holds e → c.kind.pipe = some n
  reader : ∀ p, c.kind = .second p → c.executing = true → ¬ c.files.Holds (.writeEnd p.pipe)
  exited : c.Exited → c.files = Table.empty

/-- The calls of the two children of a pipe lead from the table of the shell to theirs. -/
theorem finalFiles_newborn (hstart : Started files) {pid : ℕ} {kind : Kind}
    {arglist : List String} {pc : Pc} (hpc : s.pc.fork pid = some (kind, arglist, pc))
    (hshell : s.files = s.pc.table files)
    (hunused : ∀ p, s.pc.descriptors = some p → p.Unused files) :
    (s.newborn kind arglist).finalFiles = kind.table files := by
  have hplace : ∀ {d k : ℕ}, files d = none → files k ≠ none → k ≠ d := by
    rintro d k hd hk rfl
    exact hk hd
  rw [Child.finalFiles, State.newborn, hshell]
  revert hpc hunused
  cases s.pc with
  | forkingFirst p =>
    intro hpc hunused
    obtain ⟨rfl, -⟩ := Prod.mk.inj (Option.some.inj hpc)
    have hp := hunused p rfl
    exact Table.redirect hp.read hp.write hp.ne (hplace hp.write hstart.output) _ _
  | forkingSecond p =>
    intro hpc hunused
    obtain ⟨rfl, -⟩ := Prod.mk.inj (Option.some.inj hpc)
    have hp := hunused p rfl
    rw [Pc.table, Table.opened_comm hp.ne]
    exact Table.redirect hp.write hp.read (Ne.symm hp.ne) (hplace hp.read hstart.input) _ _
  | forking arglist background =>
    intro hpc _
    cases background with
    | true =>
      obtain ⟨rfl, -⟩ := Prod.mk.inj (Option.some.inj hpc)
      rfl
    | false =>
      obtain ⟨rfl, -⟩ := Prod.mk.inj (Option.some.inj hpc)
      rfl
  | _ =>
    intro hpc
    cases hpc

theorem Pc.pipe_of_fork {pc pc' : Pc} {pid : ℕ} {kind : Kind} {arglist : List String}
    (h : pc.fork pid = some (kind, arglist, pc')) (hp : pc.descriptors = some p) :
    kind.pipe = some p.pipe := by
  cases pc with
  | forkingFirst | forkingSecond =>
    cases hp
    obtain ⟨rfl, -⟩ := Prod.mk.inj (Option.some.inj h)
    rfl
  | closingRead | closingWrite => cases h
  | _ => cases hp

theorem wired_newborn (hstart : Started files) {pid : ℕ} {kind : Kind} {arglist : List String}
    {pc : Pc} (hpc : s.pc.fork pid = some (kind, arglist, pc))
    (hshell : s.files = s.pc.table files)
    (hunused : ∀ p, s.pc.descriptors = some p → p.Unused files) :
    (s.newborn kind arglist).Wired files where
  todo d k := by
    rw [State.newborn]
    cases kind <;> simp [Kind.calls]
  table _ := finalFiles_newborn hstart hpc hshell hunused
  ends e n he h := by
    obtain ⟨p, hp, rfl⟩ := Pc.table_holds hstart s.pc he (hshell ▸ h)
    exact Pc.pipe_of_fork hpc hp
  reader _ _ h := by cases h
  exited h := by
    obtain h | h := h <;> cases h

theorem Child.Wired.reap {c : Child} (h : c.Wired files) : c.reap.Wired files := by
  by_cases hlife : c.life = .zombie
  · have hempty := h.exited (Or.inl hlife)
    rw [Child.reap, if_pos hlife]
    exact ⟨h.todo, fun hprep => absurd hprep.alive (by simp), h.ends, h.reader, fun _ => hempty⟩
  · rwa [Child.reap_of_ne hlife]

theorem Syscall.holds (call : Syscall) {table : Table File} (he : e.IsEnd n)
    (h : (call.table table).Holds e) : table.Holds e := by
  cases call with
  | sigint => exact h
  | close => exact h.of_close
  | dup2 => exact h.of_dup2
  | opens =>
    obtain rfl | h := h.of_opened
    · obtain he | he := he <;> cases he
    · exact h

theorem Child.holds_perform {c : Child} {call : Syscall} {ok : Bool} (he : e.IsEnd n)
    (h : (c.perform call ok).files.Holds e) : c.files.Holds e := by
  cases ok with
  | true => exact call.holds he h
  | false => exact h

@[simp] theorem Child.perform_kind (c : Child) (call : Syscall) (ok : Bool) :
    (c.perform call ok).kind = c.kind := by
  cases ok <;> rfl

@[simp] theorem Child.perform_life (c : Child) (call : Syscall) (ok : Bool) :
    (c.perform call ok).life = c.life := by
  cases ok <;> rfl

@[simp] theorem Child.perform_executing (c : Child) (call : Syscall) (ok : Bool) :
    (c.perform call ok).executing = c.executing := by
  cases ok <;> rfl

@[simp] theorem Child.perform_todo (c : Child) (call : Syscall) (ok : Bool) :
    (c.perform call ok).todo = c.todo := by
  cases ok <;> rfl

theorem not_exited_of_running {c : Child} (h : c.life = .running) : ¬ c.Exited := by
  rw [Child.Exited, h]
  simp

/-- A call that a child has to make takes its part of the way to the table at `execvp`. -/
theorem finalFiles_prepare {c : Child} {call : Syscall} {rest : List Syscall} {ok : Bool} {pid : ℕ}
    (htodo : c.todo = call :: rest) (hopens : ∀ d k, .opens d k ∉ c.todo)
    (ha : (Action.child pid (.call call ok)).pipeCallsSucceed) :
    { c.perform call ok with todo := rest }.finalFiles = c.finalFiles := by
  rw [Child.finalFiles, Child.finalFiles, htodo, List.foldl_cons]
  cases ok with
  | true => rfl
  | false =>
    cases call with
    | sigint => rfl
    | close | dup2 => cases ha
    | opens d k => exact absurd (htodo ▸ List.mem_cons_self) (hopens d k)

theorem Child.Wired.move (hstart : Started files) {sigchld : Handler} {c c' : Child}
    {action : ChildAction} {pid : ℕ} (hc : c.Wired files) (h : c.Move sigchld action c')
    (ha : (Action.child pid action).pipeCallsSucceed) : c'.Wired files := by
  cases h with
  | @prepare call rest ok hlife hexec htodo =>
    refine ⟨fun d k hmem => ?_, fun hprep => ?_, fun e n he h => ?_, fun p _ h => ?_, fun h => ?_⟩
    · exact hc.todo d k (htodo ▸ List.mem_cons_of_mem _ hmem)
    · rw [finalFiles_prepare htodo hc.todo ha, hc.table ⟨Or.inl hlife, hexec⟩, Child.perform_kind]
    · rw [Child.perform_kind]
      exact hc.ends e n he (Child.holds_perform he h)
    · rw [Child.perform_executing, hexec] at h
      cases h
    · rw [Child.Exited, Child.perform_life] at h
      exact absurd h (not_exited_of_running hlife)
  | @command call ok hlife hexec =>
    refine ⟨?_, fun hprep => ?_, fun e n he h => ?_, fun p hkind _ h => ?_, fun h => ?_⟩
    · rw [Child.perform_todo]
      exact hc.todo
    · have := hprep.executing
      rw [Child.perform_executing, hexec] at this
      cases this
    · rw [Child.perform_kind]
      exact hc.ends e n he (Child.holds_perform he h)
    · rw [Child.perform_kind] at hkind
      exact hc.reader p hkind hexec (Child.holds_perform (Or.inr rfl) h)
    · rw [Child.Exited, Child.perform_life] at h
      exact absurd h (not_exited_of_running hlife)
  | exec hat =>
    have hfiles := hc.table hat.toPreparing
    rw [Child.finalFiles, hat.todo] at hfiles
    refine ⟨hc.todo, fun hprep => (by cases hprep.executing), hc.ends, fun p hkind _ h => ?_, hc.exited⟩
    change c.files.Holds _ at h
    rw [show c.files = _ from hfiles, show c.kind = _ from hkind] at h
    obtain h | h := Table.Holds.of_opened h
    · cases h
    · exact hstart.others _ p.pipe (Or.inr rfl) h
  | terminate hlife hends =>
    refine ⟨hc.todo, fun hprep => absurd hprep (not_preparing_terminated c), ?_, ?_, fun _ => rfl⟩
    · exact fun e _ _ h => absurd h (Table.not_holds_empty e)
    · exact fun p _ _ => Table.not_holds_empty _
  | stop hlife =>
    refine ⟨hc.todo, fun hprep => hc.table ⟨Or.inl hlife, hprep.executing⟩, hc.ends, hc.reader, ?_⟩
    exact fun h => by obtain h | h := h <;> cases h
  | resume hlife =>
    refine ⟨hc.todo, fun hprep => hc.table ⟨Or.inr hlife, hprep.executing⟩, hc.ends, hc.reader, ?_⟩
    exact fun h => by obtain h | h := h <;> cases h

end OsCourse.Shell
