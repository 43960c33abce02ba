import OsCourse.MessageSlot.Exchange

/-! # Runs of senders and readers

Whatever the order in which they take turns, every process comes to its end; the ones that
succeed fall into one sequential order, in which every reader has read what was sent last
for its channel; and no file stays open.
-/

namespace OsCourse.MessageSlot
open Foundations Store

variable {grants : ℕ → Bool} {lookup : List Byte → Target} {commands : ℕ → Command}
  {n i : ℕ} {c : Command} {env : Env} {a : ℕ × Env} {as : List (ℕ × Env)} {s t : Users}
  {u : System} {p p' : Process} {w : List ((Minor × BitVec 32) × List Byte)}
  {e : Option (Minor × Option (BitVec 64))} {reason : String → Prop}

/-- The module only gets served calls, and the open files are those of the processes that are on
their way. -/
structure Coherent (grants : ℕ → Bool) (lookup : List Byte → Target) (commands : ℕ → Command)
    (s : Users) : Prop where
  module : (servedSlots grants).Reachable s.module
  placed : ∀ n, (commands n).Placed lookup (s.processes n).pc (s.module.journal.files n)

/-- The turn of one process. -/
structure Turned (grants : ℕ → Bool) (lookup : List Byte → Target) (commands : ℕ → Command) (n : ℕ)
    (s t : Users) : Prop where
  took : Took grants lookup n (commands n) s.module (s.processes n) t.module (t.processes n)
  others : ∀ i, i ≠ n → t.processes i = s.processes i

theorem Coherent.turned (h : Coherent grants lookup commands s)
    (hs : s.turn grants lookup commands a = some t) : Turned grants lookup commands a.1 s t := by
  obtain ⟨⟨u, p⟩, hmain, rfl⟩ := Option.map_eq_some_iff.mp hs
  refine ⟨?_, fun i hi => Function.update_of_ne hi ..⟩
  dsimp only
  rw [Function.update_self]
  exact main_took h.module (h.placed a.1) hmain

theorem Coherent.next (h : Coherent grants lookup commands s)
    (ht : Turned grants lookup commands n s t) : Coherent grants lookup commands t := by
  refine ⟨ht.took.call.reachable, fun i => ?_⟩
  by_cases hi : i = n
  · subst hi
    exact ht.took.move.placed
  · rw [ht.others i hi, ht.took.call.files i hi]
    exact h.placed i

/-- An invariant of coherent states that every turn keeps holds in every run. -/
theorem Users.invariant {I : Users → Prop}
    (h₀ : ∀ s, s.module.journal = .empty → s.processes = (fun _ => .fresh) → I s)
    (hstep : ∀ n s t, Coherent grants lookup commands s → Turned grants lookup commands n s t →
      I s → I t)
    (hs : (users grants lookup commands).Reachable s) :
    Coherent grants lookup commands s ∧ I s := by
  refine Machine.Reachable.invariant
    (I := fun s : Users => Coherent grants lookup commands s ∧ I s) ?_ ?_ hs
  · rintro s ⟨hk, hj, hp⟩
    refine ⟨⟨⟨[], .start ⟨hk, hj⟩⟩, fun n => ?_⟩, h₀ s hj hp⟩
    rw [hj, hp]
    rfl
  · rintro s a t ⟨h, hi⟩ hst
    have ht := h.turned hst
    exact ⟨h.next ht, hstep a.1 s t h ht hi⟩

theorem coherent_of_reachable (hs : (users grants lookup commands).Reachable s) :
    Coherent grants lookup commands s :=
  (Users.invariant (I := fun _ => True) (fun _ _ _ => trivial) (fun _ _ _ _ _ _ => trivial) hs).1

/-! ## A run -/

/-- The path `d` leads to the last slot. -/
def sampleLookup (path : List Byte) : Target :=
  if path = [100#8] then .slot (Fin.last 255) else .missing

def sampleString (c : Byte) (hc : c ≠ 0#8) : CString := ⟨[c], by simpa using hc.symm, by simp⟩

/-- `message_sender d 7 A` and `message_reader d 7`. -/
def sampleCommands : ℕ → Command
  | 0 => ⟨.message_sender, [sampleString 115#8 (by decide), sampleString 100#8 (by decide),
      sampleString 55#8 (by decide), sampleString 65#8 (by decide)]⟩
  | _ => ⟨.message_reader, [sampleString 114#8 (by decide), sampleString 100#8 (by decide),
      sampleString 55#8 (by decide)]⟩

def sampleEnv : Env := ⟨0#64, fun _ => 0#8, [], .written 128⟩

/-- The reader comes while the sender is writing. -/
def sampleTurns : List (ℕ × Env) := [0, 1, 0, 1, 0, 1, 1, 1, 0].map (·, sampleEnv)

theorem run_of_turns {B : Type*} {as : List (ℕ × Env)} {observe : Users → B} {v : B}
    (h : (((prepare grants).toOption.map fun k => (⟨⟨k, .empty⟩, fun _ => .fresh⟩ : Users)).bind
      fun s => Machine.perform (Users.turn grants lookup commands) s as).map observe = some v) :
    ∃ s, (users grants lookup commands).Run as s ∧ observe s = v := by
  obtain ⟨s, hs, hv⟩ := Option.map_eq_some_iff.mp h
  obtain ⟨s₀, h₀, hs⟩ := Option.bind_eq_some_iff.mp hs
  obtain ⟨k, hk, rfl⟩ := Option.map_eq_some_iff.mp h₀
  have hinit : (users grants lookup commands).init ⟨⟨k, .empty⟩, fun _ => .fresh⟩ :=
    ⟨eq_ok_of_toOption hk, rfl, rfl⟩
  exact ⟨s, (Machine.Run.start hinit).perform (fun _ _ _ h => h) hs, hv⟩

theorem sample_run : ∃ s, (users (fun _ => true) sampleLookup sampleCommands).Run sampleTurns s ∧
    ((s.processes 0).pc, s.processes 1) = (.exited 0, ⟨.exited 0, [65#8], []⟩) :=
  run_of_turns (by decide +kernel)

/-! ## Every process comes to its end -/

/-- The turns that a process has still to take, at most. -/
def Pc.rank : Pc → ℕ
  | .start => 5
  | .ioctl => 4
  | .transfer => 3
  | .print _ => 2
  | .close .. => 1
  | .exited _ | .killed => 0

/-- The process has exited, or `SIGPIPE` has ended it. -/
def Pc.Ended (pc : Pc) : Prop := (∃ status, pc = .exited status) ∨ pc = .killed

theorem Pc.ended_iff (pc : Pc) : pc.Ended ↔ pc.rank = 0 := by
  cases pc <;> simp [Pc.Ended, Pc.rank]

theorem Move.rank_lt (h : Move grants lookup c u p p' e w) : p'.pc.rank < p.pc.rank := by
  cases h with
  | failed hpc =>
    rcases hpc with hpc | hpc <;> rw [hpc] <;> simp [Process.goto, Pc.rank]
  | refused hpc | opened hpc | chosen hpc | sent hpc | received hpc | printed _ hpc | unprinted hpc
  | killed hpc | closed hpc =>
    rw [hpc]
    simp [Process.goto, Pc.rank]

/-- Where every allocation succeeds, no process is stuck before its end. -/
theorem exists_main (hg : ∀ n, grants n = true) {s : System}
    (hs : (servedSlots grants).Reachable s) (env : Env)
    (hplaced : c.Placed lookup p.pc (s.journal.files n)) (hpc : p.pc.rank ≠ 0) :
    ∃ r, main grants lookup n c env s p = some r := by
  have hbind : ∀ {op} (f : System × Ret → Option (System × Process)), Served s.journal op →
      (∀ r, ∃ q, f r = some q) → ∃ q, (issue grants s op).bind f = some q := by
    intro op f hop hf
    obtain ⟨u, ret, hissue⟩ := exists_issue hg hs hop
    rw [hissue, Option.bind_some]
    exact hf _
  obtain ⟨v, hrelease⟩ : ∃ v, release grants lookup n c s = some v := by
    rw [release]
    split
    · have hserved : Served s.journal (.release n) := trivial
      obtain ⟨v, ret, hissue⟩ := exists_issue hg hs hserved
      exact ⟨v, by rw [hissue, Option.map_some]⟩
    · exact ⟨s, rfl⟩
  rw [main]
  cases hp : p.pc with
  | start =>
    dsimp only
    rw [openFile]
    split
    · exact ⟨_, rfl⟩
    · split
      · exact ⟨_, rfl⟩
      · exact ⟨_, rfl⟩
      · refine hbind _ trivial fun r => ?_
        dsimp only
        split <;> exact ⟨_, rfl⟩
  | ioctl =>
    dsimp only
    rw [setChannel]
    split
    · refine hbind _ trivial fun r => ?_
      dsimp only
      split <;> exact ⟨_, rfl⟩
    · exact ⟨_, rfl⟩
  | transfer =>
    rw [hp] at hplaced
    obtain ⟨_, m, _, hfile⟩ := hplaced
    have hkey : s.journal.chosen n ≠ none := by simp [chosen_of_file hfile]
    dsimp only
    cases c.utility with
    | message_sender =>
      refine hbind _ ⟨hkey, fun b hb l hl => ?_⟩ fun r => ?_
      · rw [CString.toNat_strlen] at hl
        exact Option.some.inj hb ▸ (c.arg 3).memory_isSome hl
      · dsimp only
        split <;> exact ⟨_, rfl⟩
    | message_reader =>
      refine hbind _ ⟨hkey, fun w hw l _ => (Option.some.inj hw) ▸ rfl⟩ fun r => ?_
      dsimp only
      split <;> exact ⟨_, rfl⟩
  | print message =>
    dsimp only
    rw [printMessage]
    split
    · exact ⟨_, rfl⟩
    · exact ⟨_, rfl⟩
    · rw [hrelease]
      exact ⟨_, rfl⟩
  | close status late =>
    dsimp only
    rw [closeFile, hrelease]
    exact ⟨_, rfl⟩
  | exited | killed => exact absurd (by rw [hp, Pc.rank]) hpc

theorem turns_bounded (hs : (users grants lookup commands).Run as s) (n : ℕ) :
    as.countP (·.1 = n) + (s.processes n).pc.rank ≤ 5 := by
  refine Machine.Run.history_invariant (I := fun (as : List (ℕ × Env)) (s : Users) =>
    as.countP (·.1 = n) + (s.processes n).pc.rank ≤ 5) ?_ ?_ hs
  · rintro s ⟨_, _, hp⟩
    rw [hp]
    exact le_rfl
  · intro as s a t hrun ih hst
    have ht := (coherent_of_reachable hrun.reachable).turned hst
    rw [List.countP_append, List.countP_singleton]
    by_cases hn : a.1 = n
    · subst hn
      have hlt := ht.took.move.rank_lt
      simp only [decide_true, if_true]
      omega
    · rw [ht.others n (Ne.symm hn)]
      simpa [hn] using ih

/-- Where every allocation succeeds: a process that has not ended can take its turn, whatever the
others have done, and after five turns of its own it has ended. -/
theorem every_process_exits (hg : ∀ n, grants n = true)
    (hs : (users grants lookup commands).Run as s) (n : ℕ) :
    ((s.processes n).pc.Ended ∨ ∀ env, ∃ t, s.turn grants lookup commands (n, env) = some t) ∧
    as.countP (·.1 = n) ≤ 5 ∧
    (as.countP (·.1 = n) = 5 → (s.processes n).pc.Ended) := by
  have h := coherent_of_reachable hs.reachable
  have hturns := turns_bounded hs n
  rw [Pc.ended_iff]
  refine ⟨?_, by omega, fun hfive => by omega⟩
  by_cases h0 : (s.processes n).pc.rank = 0
  · exact Or.inl h0
  · refine Or.inr fun env => ?_
    obtain ⟨r, hr⟩ := exists_main hg h.module env (h.placed n) h0
    exact ⟨_, by rw [Users.turn, hr, Option.map_some]⟩

theorem every_process_exits_sample : ∃ s,
    (users (fun _ => true) sampleLookup sampleCommands).Run sampleTurns s ∧
      (s.processes 1).pc.Ended := by
  obtain ⟨s, hs, _⟩ := sample_run
  exact ⟨s, hs, (every_process_exits (fun _ => rfl) hs 1).2.2 (by decide)⟩

/-! ## No file stays open -/

/-- Between a successful `open` and `close`. -/
def Pc.Underway : Pc → Bool
  | .start | .exited _ | .killed => false
  | _ => true

theorem Command.Placed.minor {pc : Pc} (h : c.Placed lookup pc e) :
    e.map Prod.fst = if pc.Underway then c.device lookup else none := by
  cases pc with
  | start | exited | killed =>
    rw [show e = none from h]
    rfl
  | ioctl => exact h.2
  | transfer =>
    obtain ⟨_, m, hm, rfl⟩ := h
    exact hm.symm
  | print | close => exact h

/-- In every run the open files are those of the processes between `open` and `close`, and so is the
live private data. When no process is there, unloading the module succeeds and leaves none. -/
theorem files_follow_processes (hs : (users grants lookup commands).Reachable s) :
    (∀ n, (s.module.kernel.files n).map File.f_inode =
      if (s.processes n).pc.Underway then (commands n).device lookup else none) ∧
    (∀ q, s.module.kernel.Live (.privateData q) → ∃ n f, (s.processes n).pc.Underway = true ∧
      s.module.kernel.files n = some f ∧ f.private_data = q) ∧
    ((∀ n, (s.processes n).pc.Underway = false) → ∃ k, finalize s.module.kernel = .ok k ∧
      ∀ q, ¬ k.Live (.privateData q)) := by
  have h := coherent_of_reachable hs
  obtain ⟨ops, hrun⟩ := h.module
  obtain ⟨d, nodes, ho, hl, _⟩ := ledger_of_run hrun.of_guarded
  obtain ⟨_, _, _, hc⟩ := tracked_of_reachable h.module
  have hfiles : ∀ n, (s.module.kernel.files n).map File.f_inode =
      if (s.processes n).pc.Underway then (commands n).device lookup else none :=
    fun n => (hc.files n).trans (h.placed n).minor
  have hunder : ∀ n f, s.module.kernel.files n = some f → (s.processes n).pc.Underway = true := by
    intro n f hf
    by_contra hnot
    have hn := hfiles n
    rw [hf, if_neg hnot] at hn
    cases hn
  refine ⟨hfiles, fun q hq => ?_, fun hidle => ?_⟩
  · obtain ⟨n, f, hf, hp⟩ := hl.privates q hq
    exact ⟨n, f, hunder n f hf, hf, hp⟩
  · obtain ⟨k, hfin, hlive⟩ := finalize_live_iff ho.toStore hl.apart
    refine ⟨k, hfin, fun q hq => ?_⟩
    refine privates_none_of_released hl.privates (fun n => ?_) q ((hlive _).mp hq).1
    rw [Option.eq_none_iff_forall_ne_some]
    intro f hf
    have htrue := hunder n f hf
    rw [hidle n] at htrue
    cases htrue

theorem files_follow_processes_sample : ∃ s,
    (users (fun _ => true) sampleLookup sampleCommands).Reachable s ∧
      (s.module.kernel.files 0).map File.f_inode = some (Fin.last 255) := by
  have hrun : ∃ s, (users (fun _ => true) sampleLookup sampleCommands).Run [(0, sampleEnv)] s ∧
      (s.processes 0).pc = .ioctl := run_of_turns (by decide +kernel)
  obtain ⟨s, hs, hpc⟩ := hrun
  refine ⟨s, hs.reachable, ?_⟩
  rw [(files_follow_processes hs.reachable).1, hpc]
  rfl

/-! ## What the exit status tells -/

variable (grants lookup commands) in
/-- At a turn of the run `as`, process `n` gave up with `text`, and for its reason. -/
def Blamed (as : List (ℕ × Env)) (n : ℕ) (text : String) : Prop :=
  ∃ before env after s, as = before ++ (n, env) :: after ∧
    (users grants lookup commands).Run before s ∧
    (commands n).Blames grants lookup s.module (s.processes n).pc text

theorem Blamed.snoc {text : String} (h : Blamed grants lookup commands as n text) (a : ℕ × Env) :
    Blamed grants lookup commands (as ++ [a]) n text := by
  obtain ⟨before, env, after, s, rfl, hs, hwhy⟩ := h
  exact ⟨before, env, after ++ [a], s, by simp, hs, hwhy⟩

/-- What a process has printed and complained about, by its position. -/
inductive Said (reason : String → Prop) (c : Command) : Process → Prop
  | start : Said reason c ⟨.start, [], []⟩
  | ioctl : Said reason c ⟨.ioctl, [], []⟩
  | transfer : Said reason c ⟨.transfer, [], []⟩
  | print {message : List Byte} (hc : c.utility = .message_reader) :
      Said reason c ⟨.print message, [], []⟩
  | done {stdout : List Byte} (hc : c.utility = .message_sender → stdout = []) :
      Said reason c ⟨.close 0 [], stdout, []⟩
  | unprinted (hc : c.utility = .message_reader) :
      Said reason c ⟨.close 0 ["Error printing read message"], [], []⟩
  | failed {text : String} (h : reason text) : Said reason c ⟨.close 1 [], [], [text, text]⟩
  | exitedDone {stdout : List Byte} (hc : c.utility = .message_sender → stdout = []) :
      Said reason c ⟨.exited 0, stdout, []⟩
  | exitedUnprinted (hc : c.utility = .message_reader) :
      Said reason c ⟨.exited 0, [], ["Error printing read message"]⟩
  | exitedFailed {text : String} (h : reason text) : Said reason c ⟨.exited 1, [], [text, text]⟩
  | killed (hc : c.utility = .message_reader) : Said reason c ⟨.killed, [], []⟩

theorem Said.mono {reason' : String → Prop} (h : Said reason c p)
    (hreason : ∀ text, reason text → reason' text) : Said reason' c p := by
  cases h with
  | failed hwhy => exact .failed (hreason _ hwhy)
  | exitedFailed hwhy => exact .exitedFailed (hreason _ hwhy)
  | start => exact .start
  | ioctl => exact .ioctl
  | transfer => exact .transfer
  | print hc => exact .print hc
  | done hc => exact .done hc
  | unprinted hc => exact .unprinted hc
  | exitedDone hc => exact .exitedDone hc
  | exitedUnprinted hc => exact .exitedUnprinted hc
  | killed hc => exact .killed hc

theorem Said.print_inv {message : List Byte} (h : Said reason c p) (hpc : p.pc = .print message) :
    c.utility = .message_reader ∧ p = ⟨.print message, [], []⟩ := by
  cases h with
  | print hc =>
    cases hpc
    exact ⟨hc, rfl⟩
  | _ => cases hpc

theorem Move.said (h : Move grants lookup c u p p' e w)
    (hreason : ∀ text, c.Blames grants lookup u p.pc text → reason text) (hp : Said reason c p) :
    Said reason c p' := by
  cases h with
  | refused hpc hwhy =>
    have htext := hreason _ hwhy
    cases hp with
    | start => exact .exitedFailed htext
    | _ => cases hpc
  | opened hpc =>
    cases hp with
    | start => exact .ioctl
    | _ => cases hpc
  | failed hpc hwhy =>
    have htext := hreason _ hwhy
    cases hp with
    | ioctl | transfer => exact .failed htext
    | _ => rcases hpc with hpc | hpc <;> cases hpc
  | chosen hpc =>
    cases hp with
    | ioctl => exact .transfer
    | _ => cases hpc
  | sent hpc =>
    cases hp with
    | transfer => exact .done fun _ => rfl
    | _ => cases hpc
  | received hpc hc =>
    cases hp with
    | transfer => exact .print hc
    | _ => cases hpc
  | printed write_val hpc =>
    obtain ⟨hc, rfl⟩ := hp.print_inv hpc
    exact .done fun hc' => by rw [hc] at hc'; cases hc'
  | unprinted hpc =>
    obtain ⟨hc, rfl⟩ := hp.print_inv hpc
    exact .unprinted hc
  | killed hpc =>
    obtain ⟨hc, rfl⟩ := hp.print_inv hpc
    exact .killed hc
  | closed hpc =>
    cases hp with
    | done hc =>
      cases hpc
      exact .exitedDone hc
    | unprinted hc =>
      cases hpc
      exact .exitedUnprinted hc
    | failed h =>
      cases hpc
      exact .exitedFailed h
    | _ => cases hpc

theorem said_of_run (hs : (users grants lookup commands).Run as s) (n : ℕ) :
    Said (Blamed grants lookup commands as n) (commands n) (s.processes n) := by
  refine Machine.Run.history_invariant (I := fun (as : List (ℕ × Env)) (s : Users) =>
    ∀ n, Said (Blamed grants lookup commands as n) (commands n) (s.processes n)) ?_ ?_ hs n
  · rintro s ⟨_, _, hp⟩ n
    rw [hp]
    exact .start
  · intro as s a t hrun ih hst n
    have ht := (coherent_of_reachable hrun.reachable).turned hst
    have hold := (ih n).mono fun _ h => h.snoc a
    by_cases hn : n = a.1
    · subst hn
      exact ht.took.move.said (fun _ hwhy => ⟨as, a.2, [], s, rfl, hrun, hwhy⟩) hold
    · rw [ht.others n hn]
      exact hold

/-- What the end of a process tells, in every run: status 1 that it gave up for the reason that it
complained about, and printed nothing; status 0 that it complained about nothing, unless a reader
could not print; and only a reader that had printed nothing was ended by `SIGPIPE`. -/
theorem exit_tells (hs : (users grants lookup commands).Run as s) (n : ℕ) :
    (∀ status, (s.processes n).pc = .exited status →
      (status = 1 ∧ (s.processes n).stdout = [] ∧
        ∃ text, Blamed grants lookup commands as n text ∧
          (s.processes n).stderr = [text, text]) ∨
      (status = 0 ∧ ((commands n).utility = .message_sender → (s.processes n).stdout = []) ∧
        ((s.processes n).stderr = [] ∨ (commands n).utility = .message_reader ∧
          (s.processes n).stdout = [] ∧
          (s.processes n).stderr = ["Error printing read message"]))) ∧
    ((s.processes n).pc = .killed → (commands n).utility = .message_reader ∧
      (s.processes n).stdout = [] ∧ (s.processes n).stderr = []) := by
  have hsaid := said_of_run hs n
  generalize s.processes n = p at hsaid
  refine ⟨fun status hpc => ?_, fun hpc => ?_⟩
  · cases hsaid with
    | exitedDone hc =>
      cases hpc
      exact Or.inr ⟨rfl, hc, Or.inl rfl⟩
    | exitedUnprinted hc =>
      cases hpc
      exact Or.inr ⟨rfl, fun _ => rfl, Or.inr ⟨hc, rfl, rfl⟩⟩
    | exitedFailed h =>
      cases hpc
      exact Or.inl ⟨rfl, rfl, _, h, rfl⟩
    | _ => cases hpc
  · cases hsaid with
    | killed hc => exact ⟨hc, rfl, rfl⟩
    | _ => cases hpc

/-- A reader that comes before any sender. -/
theorem exit_tells_sample : ∃ as s,
    (users (fun _ => true) sampleLookup sampleCommands).Run as s ∧
      (s.processes 1).pc = .exited 1 ∧
      Blamed (fun _ => true) sampleLookup sampleCommands as 1 "Error reading message" := by
  have hrun : ∃ s, (users (fun _ => true) sampleLookup sampleCommands).Run
      (List.replicate 4 (1, sampleEnv)) s ∧ s.processes 1 =
        ⟨.exited 1, [], ["Error reading message", "Error reading message"]⟩ :=
    run_of_turns (by decide +kernel)
  obtain ⟨s, hs, hp⟩ := hrun
  have hpc : (s.processes 1).pc = .exited 1 := by rw [hp]
  refine ⟨_, s, hs, hpc, ?_⟩
  rcases (exit_tells hs 1).1 1 hpc with ⟨_, _, text, hblamed, htexts⟩ | ⟨h, _⟩
  · rw [hp] at htexts
    rwa [(List.cons.inj htexts).1]
  · cases h

/-! ## One sequential order -/

/-- A sender has sent its message, or a reader has received one. -/
def Pc.Past : Pc → Bool
  | .print _ | .killed => true
  | .close status _ => status = 0
  | .exited status => status = 0
  | _ => false

/-- What a process writes: its message, under the slot and the number of its arguments. -/
def Command.post (lookup : List Byte → Target) (c : Command) :
    Option ((Minor × BitVec 32) × List Byte) :=
  match c.utility with
  | .message_sender => (c.device lookup).map fun m => ((m, c.channel), (c.arg 3).bytes)
  | .message_reader => none

def posts (lookup : List Byte → Target) (commands : ℕ → Command) (h : List ℕ) :
    List ((Minor × BitVec 32) × List Byte) :=
  h.filterMap fun n => (commands n).post lookup

/-- The message that a reader is about to print, or has printed a part of. -/
def Process.Received (p : Process) (message : List Byte) : Prop :=
  match p.pc with
  | .print m => m = message
  | _ => p.stdout <+: message

/-- What the order `h` of some processes says: each of them has sent its message or received one; the
device has the messages of the senders, one after another; and each reader has received what was sent
last before it for its slot and number. -/
structure Sequential (lookup : List Byte → Target) (commands : ℕ → Command) (s : Users)
    (h : List ℕ) : Prop where
  nodup : h.Nodup
  mem : ∀ n, n ∈ h ↔ (s.processes n).pc.Past = true
  device : ∀ n ∈ h, (commands n).device lookup ≠ none
  writes : s.module.journal.writes = posts lookup commands h
  reads : ∀ xs n ys, h = xs ++ n :: ys → (commands n).utility = .message_reader →
    ∃ m message, (commands n).device lookup = some m ∧
      lastWrite (m, (commands n).channel) (posts lookup commands xs) = some message ∧
      (s.processes n).Received message

/-- A turn that sends and receives nothing. -/
structure Idle (p p' : Process) : Prop where
  past : p'.pc.Past = p.pc.Past
  received : p.pc.Past = true → ∀ message, p.Received message → p'.Received message

/-- A turn sends, receives, or does neither. -/
theorem Move.effect (h : Move grants lookup c u p p' e w) (hsaid : Said reason c p) :
    (Idle p p' ∧ w = u.journal.writes) ∨
    (p.pc.Past = false ∧ p'.pc.Past = true ∧ c.device lookup ≠ none ∧
      w = u.journal.writes ++ (c.post lookup).toList ∧ (c.utility = .message_reader →
        ∃ m message, c.device lookup = some m ∧
          lastWrite (m, c.channel) u.journal.writes = some message ∧ p'.Received message)) := by
  have hidle : ∀ {pc' : Pc} {stderr : List String}, p.pc.Past = false → pc'.Past = false →
      Idle p ⟨pc', p.stdout, stderr⟩ := fun hp hp' =>
    ⟨hp'.trans hp.symm, fun htrue => by rw [hp] at htrue; cases htrue⟩
  have hprints : ∀ {message}, p.pc = .print message → p'.pc.Past = true →
      (p = ⟨.print message, [], []⟩ → p'.Received message) → Idle p p' := by
    intro message hpc hpast hreceived
    obtain ⟨_, hp⟩ := hsaid.print_inv hpc
    refine ⟨by rw [hpc, hpast]; rfl, fun _ message' hrec => ?_⟩
    rw [Process.Received, hpc] at hrec
    subst hrec
    exact hreceived hp
  cases h with
  | refused hpc | opened hpc | chosen hpc => exact Or.inl ⟨hidle (by rw [hpc]; rfl) rfl, rfl⟩
  | failed hpc =>
    exact Or.inl ⟨hidle (by rcases hpc with hpc | hpc <;> rw [hpc] <;> rfl) rfl, rfl⟩
  | sent hpc hc hm =>
    refine Or.inr ⟨by rw [hpc]; rfl, rfl, by simp [hm], ?_, fun hc' => ?_⟩
    · rw [Command.post, hc]
      simp [hm]
    · rw [hc] at hc'
      cases hc'
  | received hpc hc hm hlast =>
    refine Or.inr ⟨by rw [hpc]; rfl, rfl, by simp [hm], ?_, fun _ => ⟨_, _, hm, hlast, rfl⟩⟩
    rw [Command.post, hc]
    simp
  | printed write_val hpc =>
    refine Or.inl ⟨hprints hpc rfl fun hp => ?_, rfl⟩
    subst hp
    exact List.take_prefix _ _
  | unprinted hpc | killed hpc =>
    refine Or.inl ⟨hprints hpc rfl fun hp => ?_, rfl⟩
    subst hp
    exact List.nil_prefix
  | closed hpc =>
    refine Or.inl ⟨⟨by rw [hpc]; rfl, fun _ message hrec => ?_⟩, rfl⟩
    rw [Process.Received, hpc] at hrec
    exact hrec

theorem Sequential.of_idle {h : List ℕ} (hseq : Sequential lookup commands s h)
    (ht : Turned grants lookup commands n s t) (hidle : Idle (s.processes n) (t.processes n))
    (hw : t.module.journal.writes = s.module.journal.writes) : Sequential lookup commands t h := by
  refine { hseq with mem := fun i => ?_, writes := hw.trans hseq.writes, reads := ?_ }
  · rw [hseq.mem]
    by_cases hi : i = n
    · rw [hi, hidle.past]
    · rw [ht.others i hi]
  · intro xs i ys hh hc
    obtain ⟨m, message, hm, hlast, hrec⟩ := hseq.reads xs i ys hh hc
    refine ⟨m, message, hm, hlast, ?_⟩
    by_cases hi : i = n
    · subst hi
      exact hidle.received ((hseq.mem i).mp (by simp [hh])) message hrec
    · rwa [ht.others i hi]

/-- A process that sends or receives comes last in the order. -/
theorem Sequential.snoc {h : List ℕ} (hseq : Sequential lookup commands s h)
    (ht : Turned grants lookup commands n s t) (hold : (s.processes n).pc.Past = false)
    (hnew : (t.processes n).pc.Past = true) (hdev : (commands n).device lookup ≠ none)
    (hw : t.module.journal.writes =
      s.module.journal.writes ++ ((commands n).post lookup).toList)
    (hread : (commands n).utility = .message_reader → ∃ m message,
      (commands n).device lookup = some m ∧
      lastWrite (m, (commands n).channel) s.module.journal.writes = some message ∧
      (t.processes n).Received message) : Sequential lookup commands t (h ++ [n]) := by
  have hn : n ∉ h := by
    rw [hseq.mem, hold]
    exact Bool.false_ne_true
  refine ⟨hseq.nodup.append (List.nodup_singleton n) (by simpa using hn), fun i => ?_, fun i hi => ?_,
    ?_, ?_⟩
  · rw [List.mem_append, List.mem_singleton, hseq.mem]
    by_cases hi : i = n
    · subst hi
      simp [hnew]
    · simp [hi, ht.others i hi]
  · rcases List.mem_append.mp hi with hi | hi
    · exact hseq.device i hi
    · exact List.mem_singleton.mp hi ▸ hdev
  · rw [hw, hseq.writes, posts, posts, List.filterMap_append]
    cases hpost : (commands n).post lookup <;> simp [hpost]
  · intro xs i ys hh hc
    rcases List.eq_nil_or_concat ys with rfl | ⟨ys, j, rfl⟩
    · obtain ⟨rfl, hi⟩ := List.append_inj' hh rfl
      obtain rfl : n = i := (List.cons.inj hi).1
      rw [hseq.writes] at hread
      exact hread hc
    · rw [List.concat_eq_append, ← List.cons_append, ← List.append_assoc] at hh
      obtain ⟨rfl, _⟩ := List.append_inj' hh rfl
      obtain ⟨m, message, hm, hlast, hrec⟩ := hseq.reads xs i ys rfl hc
      have hi : i ≠ n := fun hi => hn (by simp [hi])
      exact ⟨m, message, hm, hlast, by rwa [ht.others i hi]⟩

theorem Sequential.turned {h : List ℕ} (hseq : Sequential lookup commands s h)
    (hsaid : Said reason (commands n) (s.processes n))
    (ht : Turned grants lookup commands n s t) :
    ∃ h', h <+: h' ∧ Sequential lookup commands t h' := by
  rcases ht.took.move.effect hsaid with ⟨hidle, hw⟩ | ⟨hold, hnew, hdev, hw, hread⟩
  · exact ⟨h, List.prefix_refl h, hseq.of_idle ht hidle hw⟩
  · exact ⟨h ++ [n], List.prefix_append h [n], hseq.snoc ht hold hnew hdev hw hread⟩

theorem Sequential.init (hj : s.module.journal = .empty) (hp : s.processes = fun _ => .fresh) :
    Sequential lookup commands s [] where
  nodup := List.nodup_nil
  mem n := by
    rw [hp]
    simp [Process.fresh, Pc.Past]
  device n hn := by cases hn
  writes := by rw [hj]; rfl
  reads xs n ys hh := by simp at hh

theorem sequential_step {h : List ℕ} (hs : (users grants lookup commands).Reachable s)
    (hseq : Sequential lookup commands s h) (hst : (users grants lookup commands).step s a t) :
    ∃ h', h <+: h' ∧ Sequential lookup commands t h' := by
  obtain ⟨as, hrun⟩ := hs
  exact hseq.turned (said_of_run hrun a.1) ((coherent_of_reachable hrun.reachable).turned hst)

/-- In every run the processes that have succeeded fall into one order, in which each reader has
received what the last sender before it sent to its slot and number; and that order is only ever
continued, so a process that has ended comes before those that have not begun. -/
theorem one_sequential_order (hs : (users grants lookup commands).Reachable s) :
    ∃ h, Sequential lookup commands s h ∧ ∀ t, (users grants lookup commands).Later s t →
      ∃ h', h <+: h' ∧ Sequential lookup commands t h' := by
  have hex : ∃ h, Sequential lookup commands s h := by
    obtain ⟨as, hrun⟩ := hs
    induction hrun with
    | start h₀ => exact ⟨[], .init h₀.2.1 h₀.2.2⟩
    | snoc hrun hst ih =>
      obtain ⟨h, hseq⟩ := ih
      obtain ⟨h', _, hseq'⟩ := sequential_step hrun.reachable hseq hst
      exact ⟨h', hseq'⟩
  obtain ⟨h, hseq⟩ := hex
  refine ⟨h, hseq, fun t hlater => ?_⟩
  refine (Machine.Later.invariant (I := fun t => (users grants lookup commands).Reachable t ∧
    ∃ h', h <+: h' ∧ Sequential lookup commands t h') ?_ hlater
    ⟨hs, h, List.prefix_refl h, hseq⟩).2
  rintro t a u ⟨ht, h', hpre, hseq'⟩ hst
  obtain ⟨h'', hpre', hseq''⟩ := sequential_step ht hseq' hst
  exact ⟨ht.step hst, h'', hpre.trans hpre', hseq''⟩

theorem one_sequential_order_sample : ∃ s h,
    (users (fun _ => true) sampleLookup sampleCommands).Reachable s ∧
      Sequential sampleLookup sampleCommands s h ∧ 0 ∈ h ∧ 1 ∈ h := by
  obtain ⟨s, hs, hp⟩ := sample_run
  obtain ⟨hsender, hreader⟩ := Prod.mk.inj hp
  obtain ⟨h, hseq, _⟩ := one_sequential_order hs.reachable
  refine ⟨s, h, hs.reachable, hseq, (hseq.mem 0).mpr ?_, (hseq.mem 1).mpr ?_⟩
  · rw [hsender]
    rfl
  · rw [hreader]
    rfl

end OsCourse.MessageSlot
