import OsCourse.Foundations.DescriptorTable
import OsCourse.Foundations.Machine

/-! # myshell

`shell.c` and `myshell.c` as a machine: the shell and its children take turns, one system call
a step, and signals come at any moment. A child is what its branch of the source has still to
do before `execvp`; afterwards it is any program that only works on what it holds.
-/

namespace OsCourse.Shell
open Foundations

/-- `sa_handler`, where `SIG_DFL` is the null pointer. -/
inductive Handler where
  | SIG_DFL
  | SIG_IGN
  | valyrian_steel
  deriving DecidableEq, Repr

/-- What `handle_sigint` installs for `SIGINT`. -/
def handleSigint (mode : ℤ) : Handler := if mode = 0 then .SIG_IGN else .SIG_DFL

structure Sigaction where
  sa_handler : Handler

/-- `memset` of a `struct sigaction` to zero. -/
def Sigaction.zero (_ : Sigaction) : Sigaction := ⟨.SIG_DFL⟩

/-- What `execute_single_command` installs for `SIGCHLD`. -/
def longclaw : Sigaction := Sigaction.zero ⟨.valyrian_steel⟩

/-- An open file: an end of the shell's `n`th pipe, or anything else. -/
inductive File where
  | other (k : ℕ)
  | readEnd (n : ℕ)
  | writeEnd (n : ℕ)
  deriving DecidableEq, Repr

/-- The `descriptors` of `pipe_processes`, with the number of the pipe. -/
structure Descriptors where
  pipe : ℕ
  read : ℕ
  write : ℕ
  deriving DecidableEq, Repr

/-! ## Children -/

inductive Syscall where
  | sigint (handler : Handler)
  | close (d : ℕ)
  | dup2 (d d' : ℕ)
  | opens (d k : ℕ)
  deriving DecidableEq, Repr

def Syscall.handler : Syscall → Handler → Handler
  | .sigint handler, _ => handler
  | _, handler => handler

def Syscall.table : Syscall → Table File → Table File
  | .sigint _, files => files
  | .close d, files => files.close d
  | .dup2 d d', files => files.dup2 d d'
  | .opens d k, files => files.opened d (.other k)

/-- The branch of the source that a child runs. -/
inductive Kind where
  | regular
  | background
  | first (descriptors : Descriptors)
  | second (descriptors : Descriptors)
  deriving DecidableEq, Repr

/-- The calls of the branch before its `execvp`. -/
def Kind.calls : Kind → List Syscall
  | .regular => [.sigint (handleSigint 1)]
  | .background => []
  | .first descriptors =>
    [.sigint (handleSigint 1), .close descriptors.read, .dup2 descriptors.write 1,
      .close descriptors.write]
  | .second descriptors =>
    [.sigint (handleSigint 1), .close descriptors.write, .dup2 descriptors.read 0,
      .close descriptors.read]

inductive Life where
  | running
  | stopped
  | zombie
  | reaped
  deriving DecidableEq, Repr

/-- `announced` says of a zombie that the `SIGCHLD` of its termination has been delivered. -/
structure Child where
  kind : Kind
  arglist : List String
  todo : List Syscall
  executing : Bool
  sigint : Handler
  files : Table File
  life : Life
  announced : Bool

/-- What becomes of a child that terminates: a shell that ignores `SIGCHLD` need not wait for it,
and only a handler can be late. -/
def Child.terminated (sigchld : Handler) (c : Child) : Child :=
  { c with
    files := Table.empty
    life := if sigchld = .SIG_IGN then .reaped else .zombie
    announced := decide (sigchld ≠ .valyrian_steel) }

/-- What `waitpid` does to a child that it is asked for. -/
def Child.reap (c : Child) : Child :=
  if c.life = .zombie then { c with life := .reaped } else c

inductive ChildAction where
  | call (call : Syscall) (ok : Bool)
  | execvp (ok : Bool)
  | terminate
  | stop
  | resume
  deriving DecidableEq, Repr

/-- The actions that a child does not survive. -/
def ChildAction.Ends (c : Child) : ChildAction → Prop
  | .execvp ok => ¬ (ok = true ∧ c.arglist ≠ [])
  | .terminate => True
  | _ => False

instance (c : Child) : DecidablePred (ChildAction.Ends c)
  | .call _ _ => inferInstanceAs (Decidable False)
  | .execvp _ => inferInstanceAs (Decidable (¬ _))
  | .terminate => inferInstanceAs (Decidable True)
  | .stop => inferInstanceAs (Decidable False)
  | .resume => inferInstanceAs (Decidable False)

def Child.perform (call : Syscall) (ok : Bool) (c : Child) : Child :=
  if ok then { c with sigint := call.handler c.sigint, files := call.table c.files } else c

/-- One step of a child of a shell with `sigchld`. The branches of the source go on if a call fails,
and exit if `execvp` does. A command without words has a `NULL` for its first one: `execvp` then
reads through it, and the child ends. -/
def Child.step (sigchld : Handler) (c : Child) : ChildAction → Option Child
  | .call call ok =>
    if c.life ≠ .running then none
    else if c.executing then some (c.perform call ok)
    else match c.todo with
      | [] => none
      | next :: rest => if call = next then some { c.perform call ok with todo := rest } else none
  | .execvp ok =>
    if c.life ≠ .running ∨ c.executing ∨ c.todo ≠ [] then none
    else if ok = true ∧ c.arglist ≠ [] then some { c with executing := true }
    else some (c.terminated sigchld)
  | .terminate =>
    if c.life = .running ∨ c.life = .stopped then some (c.terminated sigchld) else none
  | .stop => if c.life = .running then some { c with life := .stopped } else none
  | .resume => if c.life = .stopped then some { c with life := .running } else none

/-! ## The command line -/

inductive CommandType where
  | regular
  | pipe
  | parallel
  deriving DecidableEq, Repr

/-- The type of a command line, and the line itself, which loses a final `&`. -/
def disclosePipeOrParallel : List String → CommandType × List String
  | [] => (.regular, [])
  | word :: arglist =>
    if word = "|" then (.pipe, word :: arglist)
    else if arglist = [] ∧ word = "&" then (.parallel, [])
    else
      let (type, arglist) := disclosePipeOrParallel arglist
      (type, word :: arglist)

def command1 (arglist : List String) : List String := arglist.takeWhile (· ≠ "|")

def command2 (arglist : List String) : List String := (arglist.dropWhile (· ≠ "|")).tail

/-- Where the shell is: at `getline`, in `process_arglist`, in `pipe_processes`, in
`execute_single_command`, or no longer running. -/
inductive Pc where
  | prompt
  | ignoring (arglist : List String)
  | piping (command1 command2 : List String)
  | forkingFirst (descriptors : Descriptors) (command1 command2 : List String)
  | forkingSecond (descriptors : Descriptors) (first : ℕ) (command2 : List String)
  | closingRead (descriptors : Descriptors) (first second : ℕ)
  | closingWrite (descriptors : Descriptors) (first second : ℕ)
  | waitingFirst (first second : ℕ)
  | waitingSecond (second : ℕ)
  | forking (arglist : List String) (background : Bool)
  | waiting (pid : ℕ)
  | installing
  | exited
  | killed
  deriving DecidableEq, Repr

def Pc.Live (pc : Pc) : Prop := pc ≠ .exited ∧ pc ≠ .killed

instance (pc : Pc) : Decidable pc.Live := inferInstanceAs (Decidable (_ ∧ _))

/-- Where `process_arglist` goes on after `handle_sigint(0)`. -/
def processArglist (arglist : List String) : Pc :=
  match disclosePipeOrParallel arglist with
  | (.pipe, arglist) => .piping (command1 arglist) (command2 arglist)
  | (.parallel, arglist) => .forking arglist true
  | (.regular, arglist) => .forking arglist false

/-- The child that the next `fork` makes under the number `pid`, and where the shell goes on. -/
def Pc.fork (pid : ℕ) : Pc → Option (Kind × List String × Pc)
  | .forkingFirst descriptors command1 command2 =>
    some (.first descriptors, command1, .forkingSecond descriptors pid command2)
  | .forkingSecond descriptors first command2 =>
    some (.second descriptors, command2, .closingRead descriptors first pid)
  | .forking arglist true => some (.background, arglist, .installing)
  | .forking arglist false => some (.regular, arglist, .waiting pid)
  | _ => none

/-- The descriptor that the shell closes next. -/
def Pc.close : Pc → Option (ℕ × Pc)
  | .closingRead descriptors first second =>
    some (descriptors.read, .closingWrite descriptors first second)
  | .closingWrite descriptors first second =>
    some (descriptors.write, .waitingFirst first second)
  | _ => none

/-- The child that the shell waits for. A `waitpid` that fails does so with `ECHILD`, and the shell
goes on as well. -/
def Pc.wait : Pc → Option (ℕ × Pc)
  | .waitingFirst first second => some (first, .waitingSecond second)
  | .waitingSecond second => some (second, .prompt)
  | .waiting pid => some (pid, .prompt)
  | _ => none

/-! ## The shell -/

/-- A child's number is its position in `children`. -/
structure State where
  pc : Pc
  sigint : Handler
  sigchld : Handler
  files : Table File
  children : List Child
  pipes : ℕ

/-- What the shell inherits: the open files, and which signals are ignored. -/
structure Boot where
  inherited : ℕ → Option ℕ
  sigintIgnored : Bool
  sigchldIgnored : Bool

def Boot.files (b : Boot) : Table File := fun d => (b.inherited d).map .other

def inheritedHandler (ignored : Bool) : Handler := if ignored then .SIG_IGN else .SIG_DFL

/-- A shell on a terminal. -/
def terminal : Boot where
  inherited d := if d < 3 then some d else none
  sigintIgnored := false
  sigchldIgnored := false

/-- The shell after `prepare`, which does nothing. -/
def Boot.state (b : Boot) : State where
  pc := .prompt
  sigint := inheritedHandler b.sigintIgnored
  sigchld := inheritedHandler b.sigchldIgnored
  files := b.files
  children := []
  pipes := 0

namespace State

/-- The shell ends, and its descriptors are closed. -/
def leave (s : State) (pc : Pc) : State := { s with pc := pc, files := Table.empty }

def setChild (s : State) (pid : ℕ) (c : Child) : State :=
  { s with children := s.children.set pid c }

/-- The child of a successful `fork`, with the shell's descriptors and its action for `SIGINT`. -/
def newborn (s : State) (kind : Kind) (arglist : List String) : Child where
  kind := kind
  arglist := arglist
  todo := kind.calls
  executing := false
  sigint := s.sigint
  files := s.files
  life := .running
  announced := false

def spawn (s : State) (kind : Kind) (arglist : List String) (pc : Pc) : State :=
  { s with pc := pc, children := s.children ++ [s.newborn kind arglist] }

/-- A successful `pipe`. -/
def openPipe (s : State) (read write : ℕ) (command1 command2 : List String) : State :=
  { s with
    pc := .forkingFirst ⟨s.pipes, read, write⟩ command1 command2
    files := (s.files.opened read (.readEnd s.pipes)).opened write (.writeEnd s.pipes)
    pipes := s.pipes + 1 }

/-- The handler waits for children until none is left that has terminated. -/
def valyrianSteel (s : State) : State := { s with children := s.children.map Child.reap }

/-- `waitpid(pid, &status, WUNTRACED)`, which returns when the child is not running. -/
def waitpid (s : State) (pid : ℕ) : Option State :=
  if s.children[pid]?.map Child.life = some .running then none
  else some { s with children := s.children.modify pid Child.reap }

/-- A signal for which `handler` is installed is delivered, and is one that ends a process. -/
def deliver (s : State) : Handler → State
  | .SIG_DFL => s.leave .killed
  | .SIG_IGN => s
  | .valyrian_steel => s.valyrianSteel

end State

inductive Action where
  | getline (line : Option (List String))
  | ignoreSigint (ok : Bool)
  | pipe (descriptors : Option (ℕ × ℕ))
  | fork (ok : Bool)
  | close (ok : Bool)
  | waitpid
  | installLongclaw (ok : Bool)
  | sigint
  | sigchld
  | child (pid : ℕ) (action : ChildAction)
  deriving DecidableEq, Repr

/-- One step. `getline` returns no line at the end of the input, or memory for its words is lacking;
the shell exits then, and after a `pipe`, a `fork` or a `sigaction` for `SIGCHLD` that failed. -/
def step (s : State) : Action → Option State
  | .getline line =>
    if s.pc ≠ .prompt then none
    else match line with
      | none => some (s.leave .exited)
      | some [] => some s
      | some (word :: words) => some { s with pc := .ignoring (word :: words) }
  | .ignoreSigint ok =>
    match s.pc with
    | .ignoring arglist =>
      some { s with
        pc := processArglist arglist
        sigint := if ok then handleSigint 0 else s.sigint }
    | _ => none
  | .pipe descriptors =>
    match s.pc, descriptors with
    | .piping _ _, none => some (s.leave .exited)
    | .piping command1 command2, some (read, write) =>
      if read ≠ write ∧ s.files read = none ∧ s.files write = none then
        some (s.openPipe read write command1 command2)
      else none
    | _, _ => none
  | .fork ok =>
    (s.pc.fork s.children.length).map fun (kind, arglist, pc) =>
      if ok then s.spawn kind arglist pc else s.leave .exited
  | .close ok =>
    s.pc.close.map fun (d, pc) =>
      { s with pc := pc, files := if ok then s.files.close d else s.files }
  | .waitpid => s.pc.wait.bind fun (pid, pc) => (s.waitpid pid).map ({ · with pc := pc })
  | .installLongclaw ok =>
    if s.pc ≠ .installing then none
    else if ok then some { s with pc := .prompt, sigchld := longclaw.sa_handler }
    else some (s.leave .exited)
  | .sigint => if s.pc.Live then some (s.deliver s.sigint) else none
  | .sigchld =>
    if s.pc.Live ∧ s.sigchld = .valyrian_steel then some s.valyrianSteel else none
  | .child pid action =>
    s.children[pid]?.bind fun c => (c.step s.sigchld action).map (s.setChild pid)

/-- The shell and its children. -/
def shell (b : Boot) : Machine State Action := Machine.ofFun b.state step

end OsCourse.Shell
