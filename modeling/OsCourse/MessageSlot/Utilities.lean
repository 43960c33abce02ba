import OsCourse.MessageSlot.LastWrite

/-! # The programs that send and read messages

`message_sender.c` and `message_reader.c` as processes over the module. Every process runs
one of the two on its own arguments and has its own open file; they take turns, and a turn
ends with one system call. The module has no locks. Its calls are taken one at a time here,
and what calls that overlap do to each other is left open.
-/

namespace OsCourse.MessageSlot
open Foundations

/-- Linux limits each argument to 32 pages. -/
abbrev MAX_ARG_STRLEN : ℕ := 131072

/-- An argument of a process: it ends at its first zero byte. -/
structure CString where
  bytes : List Byte
  terminated : 0#8 ∉ bytes
  bounded : bytes.length < MAX_ARG_STRLEN

namespace CString

def empty : CString := ⟨[], by simp, by decide⟩

/-- The readable memory behind the pointer to a string. -/
def memory (s : CString) (l : ℕ) : Option Byte := (s.bytes ++ [0#8])[l]?

def strlen (s : CString) : ℕ := (s.bytes ++ [0#8]).findIdx (· = 0#8)

/-- `isspace` in the C locale. -/
def isspace (c : Byte) : Bool := c = 0x20#8 ∨ 0x09#8 ≤ c ∧ c ≤ 0x0D#8

/-- The value of the digits that a string starts with, after digits of value `n`. -/
def digits (n : ℕ) : List Byte → ℕ
  | [] => n
  | c :: s => if 0x30#8 ≤ c ∧ c ≤ 0x39#8 then digits (10 * n + (c.toNat - 0x30)) s else n

/-- `strtol` to the base 10: blanks, a sign, digits; a value that does not fit is cut to the range of
`long`. -/
def strtol (s : List Byte) : ℤ :=
  match s.dropWhile isspace with
  | 0x2D#8 :: s => max (-2 ^ 63) (-digits 0 s)
  | 0x2B#8 :: s => min (2 ^ 63 - 1) (digits 0 s)
  | s => min (2 ^ 63 - 1) (digits 0 s)

def atoi (s : CString) : BitVec 32 := BitVec.ofInt 32 (strtol s.bytes)

theorem strlen_eq (s : CString) : s.strlen = s.bytes.length := by
  have hnot : s.bytes.findIdx (· = 0#8) = s.bytes.length := by
    refine List.findIdx_eq_length_of_false fun c hc => ?_
    rw [decide_eq_false_iff_not]
    rintro rfl
    exact s.terminated hc
  rw [strlen, List.findIdx_append, hnot, if_neg (lt_irrefl _)]
  simp

theorem memory_isSome (s : CString) {l : ℕ} (hl : l < s.bytes.length) : (s.memory l).isSome := by
  rw [memory, List.getElem?_append_left hl, List.getElem?_eq_getElem hl]
  rfl

/-- The bytes of a string are what a write of its length passes on. -/
theorem payload_memory (s : CString) : Store.payload s.memory s.bytes.length = s.bytes := by
  refine List.ext_getElem (Store.payload_length ..) fun l h _ => ?_
  rw [Store.payload_length] at h
  simp [Store.payload, memory, List.getElem?_append_left h, List.getElem?_eq_getElem h]

end CString

/-! ## Processes -/

inductive Utility where
  | message_sender
  | message_reader
  deriving DecidableEq, Repr

/-- The number of arguments that `main` insists on. -/
def Utility.argc : Utility → ℕ
  | .message_sender => 4
  | .message_reader => 3

/-- The program that a process runs, and on what. -/
structure Command where
  utility : Utility
  argv : List CString

/-- What a path leads to: nothing that can be opened, a file that is no message slot, on which an
`ioctl` fails, or a slot. -/
inductive Target where
  | missing
  | other
  | slot (minor_num : Minor)
  deriving DecidableEq, Repr

/-- Where a process is: at its start, or before the system call of that name. A call of `close` is
followed by `exit` with `status`, and before it by the complaints `late`. -/
inductive Pc where
  | start
  | ioctl
  | transfer
  | print (message : List Byte)
  | close (status : ℕ) (late : List String)
  | exited (status : ℕ)
  | killed
  deriving DecidableEq, Repr

/-- What becomes of a write to the standard output. On a pipe that nobody reads it raises `SIGPIPE`,
which none of the programs catches; where it is ignored, the write fails. -/
inductive Output where
  | written (write_val : ℕ)
  | failed
  | sigpipe
  deriving DecidableEq, Repr

structure Process where
  pc : Pc
  stdout : List Byte
  stderr : List String
  deriving DecidableEq, Repr

/-- What a turn finds outside: the leftovers in the blocks of `kmalloc` and on the stack behind the
bytes that were read, and the standard output. -/
structure Env where
  channel_num : BitVec 64
  data_message : DataMessage
  stack : List Byte
  stdout : Output

namespace Command

/-- `argv[i]`. -/
def arg (c : Command) (i : ℕ) : CString := c.argv[i]?.getD .empty

/-- `channel_id = atoi(argv[2])`: an `int` becomes an `unsigned long`. -/
def channel_id (c : Command) : BitVec 64 := (c.arg 2).atoi.signExtend 64

end Command

namespace Process

def fresh : Process := ⟨.start, [], []⟩

def goto (p : Process) (pc : Pc) : Process := { p with pc := pc }

/-- `perror` and `fprintf` both get the text. The standard error takes what is written to it. -/
def complain (p : Process) (text : String) : Process := { p with stderr := p.stderr ++ [text, text] }

end Process

variable (grants : ℕ → Bool) (lookup : List Byte → Target) (commands : ℕ → Command)

/-- A system call on a message slot. -/
def issue (s : System) (op : Op) : Option (System × Ret) :=
  (call grants s.kernel op).toOption.map fun r => (⟨r.1, s.journal.record op r.2⟩, r.2)

/-- What the C library makes of the result of a system call. -/
def libc (value : ℤ) : ℤ := if value < 0 then -1 else value

/-- `open(argv[1], O_RDWR)`, after `main` has checked `argc`. The file of process `n` is named `n`. -/
def openFile (n : ℕ) (c : Command) (env : Env) (s : System) (p : Process) :
    Option (System × Process) :=
  if c.argv.length ≠ c.utility.argc then some (s, (p.complain "Invalid command").goto (.exited 1))
  else
    match lookup (c.arg 1).bytes with
    | .missing => some (s, (p.complain "Error opening file").goto (.exited 1))
    | .other => some (s, p.goto .ioctl)
    | .slot minor_num => do
      let (s, ret) ← issue grants s (.open n minor_num env.channel_num)
      if ret.value ≠ 0 then some (s, (p.complain "Error opening file").goto (.exited 1))
      else some (s, p.goto .ioctl)

/-- `ioctl(file, MSG_SLOT_CHANNEL, channel_id)`. -/
def setChannel (n : ℕ) (c : Command) (s : System) (p : Process) : Option (System × Process) :=
  match lookup (c.arg 1).bytes with
  | .slot _ => do
    let (s, ret) ← issue grants s (.ioctl n MSG_SLOT_CHANNEL c.channel_id)
    let value := libc ret.value
    if value < 0 then some (s, (p.complain "Error setting channel").goto (.close 1 []))
    else some (s, p.goto .transfer)
  | _ => some (s, (p.complain "Error setting channel").goto (.close 1 []))

/-- `write(file, argv[3], strlen(argv[3]))`. The `int` that it returns is compared with a `size_t`. -/
def sendMessage (n : ℕ) (c : Command) (env : Env) (s : System) (p : Process) :
    Option (System × Process) := do
  let length := BitVec.ofNat 64 (c.arg 3).strlen
  let (s, ret) ← issue grants s (.write n (some (c.arg 3).memory) length env.data_message)
  let write_val := libc ret.value
  if BitVec.ofInt 64 write_val ≠ length then
    some (s, (p.complain "Error sending message").goto (.close 1 []))
  else some (s, p.goto (.close 0 []))

/-- `read(file, message, BUFFER_LENGTH)`. -/
def readMessage (n : ℕ) (env : Env) (s : System) (p : Process) : Option (System × Process) := do
  let (s, ret) ← issue grants s (.read n (some fun _ => true) (BitVec.ofNat 64 BUFFER_LENGTH))
  let value := libc ret.value
  let message := ret.bytes ++ env.stack
  if value < 0 then some (s, (p.complain "Error reading message").goto (.close 1 []))
  else some (s, p.goto (.print (message.take value.toNat)))

/-- The file is closed, by the process or by the kernel when the process ends. -/
def release (n : ℕ) (c : Command) (s : System) : Option System :=
  match lookup (c.arg 1).bytes with
  | .slot _ => (issue grants s (.release n)).map Prod.fst
  | _ => some s

/-- `write(STDOUT_FILENO, message, value)`. Its failure is reported after the file has been closed. -/
def printMessage (n : ℕ) (c : Command) (message : List Byte) (env : Env) (s : System) (p : Process) :
    Option (System × Process) :=
  match env.stdout with
  | .written write_val => some (s, { p with
    pc := .close 0 []
    stdout := p.stdout ++ message.take write_val })
  | .failed => some (s, p.goto (.close 0 ["Error printing read message"]))
  | .sigpipe => (release grants lookup n c s).map fun s => (s, p.goto .killed)

/-- `close(file)`, and `exit`. -/
def closeFile (n : ℕ) (c : Command) (status : ℕ) (late : List String) (s : System) (p : Process) :
    Option (System × Process) :=
  (release grants lookup n c s).map fun s =>
    (s, { p with pc := .exited status, stderr := p.stderr ++ late })

/-- `main` of a utility, from one system call to the next. -/
def main (n : ℕ) (c : Command) (env : Env) (s : System) (p : Process) : Option (System × Process) :=
  match p.pc with
  | .start => openFile grants lookup n c env s p
  | .ioctl => setChannel grants lookup n c s p
  | .transfer =>
    match c.utility with
    | .message_sender => sendMessage grants n c env s p
    | .message_reader => readMessage grants n env s p
  | .print message => printMessage grants lookup n c message env s p
  | .close status late => closeFile grants lookup n c status late s p
  | .exited _ | .killed => none

/-! ## The machine -/

/-- The module with all processes. -/
structure Users where
  module : System
  processes : ℕ → Process

/-- A turn of process `n`. Its system call is finished before another process takes a turn. -/
def Users.turn (s : Users) (a : ℕ × Env) : Option Users :=
  (main grants lookup a.1 (commands a.1) a.2 s.module (s.processes a.1)).map fun r =>
    ⟨r.1, Function.update s.processes a.1 r.2⟩

/-- The runs of all processes, from the loading of the module on, in which their calls do not overlap. -/
def users : Machine Users (ℕ × Env) where
  init s := prepare grants = .ok s.module.kernel ∧ s.module.journal = .empty ∧
    s.processes = fun _ => .fresh
  step s a t := s.turn grants lookup commands a = some t

end OsCourse.MessageSlot
