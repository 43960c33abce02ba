import OsCourse.Pcc.Strings

/-! # What `pcc_client.c` sends

The client announces the size of the file and copies the file into a block of that size,
byte by byte: a zero byte ends the copy and a newline starts it over. It then sends the
string that is in the block.
-/

namespace OsCourse.Pcc

def NEWLINE : Byte := 10#8

/-- `memory[index] = c`. -/
def put (memory : List Byte) (index : ℕ) (c : Byte) : Except Undefined (List Byte) :=
  if index < memory.length then .ok (memory.set index c) else .error .outOfBounds

/-- The reading loop on the rest of the file. `index` is an `unsigned int` that never wraps, as it is
at most the size of the file. -/
def readLoop (memory : List Byte) (index : ℕ) : List Byte → Except Undefined (List Byte)
  | [] => put memory index 0#8
  | temp :: file =>
    if temp = 0#8 then .ok memory
    else if temp = NEWLINE then do
      let memory ← put memory index 0#8
      readLoop memory 0 file
    else do
      let memory ← put memory index temp
      readLoop memory (index + 1) file

/-- `htonl`. -/
def htonl (o : ByteOrder) (v : BitVec 32) : BitVec 32 := ntohl o v

/-- What the client passes to its two sends. -/
structure Sent where
  header : Word
  message : List Byte

/-- `main` on a file, up to the second `send`. `malloc` returns a block of the file's size with some
bytes reserved behind it, or `NULL`, which is written to in any case. -/
def client (o : ByteOrder) (file : List Byte) (malloc : Option (List Byte)) :
    Except Undefined Sent := do
  let size := BitVec.ofNat 32 file.length
  let header := store o (htonl o size)
  match malloc with
  | none => .error .outOfBounds
  | some reserved =>
    let memory ← readLoop (List.replicate size.toNat 0#8 ++ reserved) 0 file
    let n ← strlen memory
    .ok ⟨header, memory.take n⟩

/-- The message is the file, and as long as the header announces. -/
def SendsFile (o : ByteOrder) (file : List Byte) (malloc : Option (List Byte)) : Prop :=
  ∃ sent, client o file malloc = .ok sent ∧ sent.message = file ∧
    (load .big sent.header).toNat = sent.message.length

/-- A byte that the reading loop copies. -/
def Ordinary (c : Byte) : Prop := c ≠ 0#8 ∧ c ≠ NEWLINE

instance (c : Byte) : Decidable (Ordinary c) := inferInstanceAs (Decidable (_ ∧ _))

theorem store_rev (v : BitVec 32) : store .little v = store .big v ∘ Fin.rev := by
  funext k
  fin_cases k <;> rfl

theorem load_rev (w : Word) : load .big (w ∘ Fin.rev) = load .little w := rfl

theorem htonl_header (o : ByteOrder) (v : BitVec 32) : load .big (store o (htonl o v)) = v := by
  cases o with
  | big => exact load_store .big v
  | little => rw [htonl, ntohl, store_rev, store_load, load_rev, load_store]

/-! ## The reading loop -/

theorem put_eq {memory : List Byte} {index : ℕ} (h : index < memory.length) (c : Byte) :
    put memory index c = .ok (memory.set index c) := if_pos h

theorem put_ok {memory memory' : List Byte} {index : ℕ} {c : Byte}
    (h : put memory index c = .ok memory') : memory'[index]? = some c := by
  rw [put] at h
  split at h
  case isTrue hlt =>
    rw [← Except.ok.inj h, List.getElem?_set_self hlt]
  case isFalse => cases h

theorem bind_eq_ok {A B : Type} {x : Except Undefined A} {f : A → Except Undefined B} {b : B}
    (h : x >>= f = .ok b) : ∃ a, x = .ok a ∧ f a = .ok b := by
  cases x with
  | error u => cases h
  | ok a => exact ⟨a, rfl, h⟩

theorem ok_bind_undefined {A B : Type} (a : A) (f : A → Except Undefined B) :
    (Except.ok a >>= f) = f a := rfl

/-- Ordinary bytes are copied behind each other, with a zero byte at their end. -/
theorem readLoop_ordinary {file : List Byte} (hfile : ∀ c ∈ file, Ordinary c) (p rest : List Byte) :
    readLoop (p ++ rest) p.length file =
      if file.length < rest.length then .ok (p ++ file ++ 0#8 :: rest.drop (file.length + 1))
      else .error .outOfBounds := by
  induction file generalizing p rest with
  | nil =>
    cases rest with
    | nil => simp [readLoop, put]
    | cons c rest => simp [readLoop, put]
  | cons c file ih =>
    obtain ⟨h0, hnl⟩ := hfile c List.mem_cons_self
    rw [readLoop, if_neg h0, if_neg hnl]
    cases rest with
    | nil =>
      rw [put, if_neg (by simp)]
      rfl
    | cons r rest =>
      have hset : (p ++ r :: rest).set p.length c = p ++ [c] ++ rest := by simp
      have hrest := ih (fun c' hc' => hfile c' (List.mem_cons_of_mem _ hc')) (p ++ [c]) rest
      rw [List.length_append, List.length_singleton] at hrest
      rw [put_eq (by simp), ok_bind_undefined, hset, hrest]
      simp

/-- In a file without zero bytes, the loop ends with a zero byte at an index that it has reached, and
short of the end if there was a newline. -/
theorem readLoop_zero {file memory memory' : List Byte} {index : ℕ} (hfile : 0#8 ∉ file)
    (h : readLoop memory index file = .ok memory') :
    ∃ j ≤ index + file.length, memory'[j]? = some 0#8 ∧
      (NEWLINE ∈ file → j < index + file.length) := by
  induction file generalizing memory index with
  | nil => exact ⟨index, le_rfl, put_ok h, fun hnl => by cases hnl⟩
  | cons c file ih =>
    rw [List.mem_cons, not_or] at hfile
    rw [readLoop, if_neg (Ne.symm hfile.1)] at h
    rw [List.length_cons]
    by_cases hc : c = NEWLINE
    · rw [if_pos hc] at h
      obtain ⟨m, _, hloop⟩ := bind_eq_ok h
      obtain ⟨j, hj, hzero, _⟩ := ih hfile.2 hloop
      exact ⟨j, by omega, hzero, fun _ => by omega⟩
    · rw [if_neg hc] at h
      obtain ⟨m, _, hloop⟩ := bind_eq_ok h
      obtain ⟨j, hj, hzero, hnl⟩ := ih hfile.2 hloop
      refine ⟨j, by omega, hzero, fun hmem => ?_⟩
      have := hnl ((List.mem_cons.mp hmem).resolve_left (Ne.symm hc))
      omega

/-! ## The message -/

theorem strlen_take {memory : List Byte} {n : ℕ} (h : strlen memory = .ok n) :
    memory.take n = cString memory := by
  by_cases hmem : 0#8 ∈ memory
  · obtain ⟨p, q, rfl, hp⟩ := exists_split_of_mem hmem
    rw [strlen_append hp] at h
    rw [← Except.ok.inj h, List.take_left, cString_append hp]
  · rw [strlen_of_not_mem hmem] at h
    cases h

variable {o : ByteOrder} {file : List Byte} {malloc : Option (List Byte)}

theorem client_ok {sent : Sent} (hsize : file.length < 2 ^ 32) (h : client o file malloc = .ok sent) :
    ∃ reserved memory, malloc = some reserved ∧
      readLoop (List.replicate file.length 0#8 ++ reserved) 0 file = .ok memory ∧
      sent.message = cString memory := by
  cases malloc with
  | none => cases h
  | some reserved =>
    rw [client] at h
    obtain ⟨memory, hloop, h⟩ := bind_eq_ok h
    obtain ⟨n, hn, h⟩ := bind_eq_ok h
    rw [BitVec.toNat_ofNat, Nat.mod_eq_of_lt hsize] at hloop
    refine ⟨reserved, memory, rfl, hloop, ?_⟩
    rw [← Except.ok.inj h, ← strlen_take hn]

/-- A file of ordinary bytes, in a block with a byte to spare for the terminator. -/
theorem sendsFile_of_ordinary (hsize : file.length < 2 ^ 32) (hfile : ∀ c ∈ file, Ordinary c)
    {reserved : List Byte} (hres : reserved ≠ []) : SendsFile o file (some reserved) := by
  have hlen : file.length < (List.replicate file.length 0#8 ++ reserved).length := by
    have := List.length_pos_iff.mpr hres
    simp
    omega
  have hloop := readLoop_ordinary hfile [] (List.replicate file.length 0#8 ++ reserved)
  rw [List.nil_append, List.nil_append, if_pos hlen] at hloop
  have hzero : 0#8 ∉ file := fun h => (hfile _ h).1 rfl
  refine ⟨⟨store o (htonl o (BitVec.ofNat 32 file.length)), file⟩, ?_, rfl, ?_⟩
  · rw [client]
    rw [BitVec.toNat_ofNat, Nat.mod_eq_of_lt hsize]
    rw [show readLoop _ 0 file = _ from hloop, ok_bind_undefined, strlen_append hzero,
      ok_bind_undefined, List.take_left]
  · rw [htonl_header, BitVec.toNat_ofNat, Nat.mod_eq_of_lt hsize]

/-- The client sends the file exactly if it holds no zero byte and no newline, and `malloc` has
returned a block with a byte to spare. -/
theorem sendsFile_iff (hsize : file.length < 2 ^ 32) :
    SendsFile o file malloc ↔
      (∀ c ∈ file, Ordinary c) ∧ ∃ reserved, malloc = some reserved ∧ reserved ≠ [] := by
  constructor
  · rintro ⟨sent, hsent, hmessage, _⟩
    obtain ⟨reserved, memory, rfl, hloop, hstring⟩ := client_ok hsize hsent
    rw [hmessage] at hstring
    have hzero : 0#8 ∉ file := hstring ▸ not_mem_cString memory
    obtain ⟨j, hj, hat, hnl⟩ := readLoop_zero hzero hloop
    have hlen : file.length ≤ j := hstring ▸ length_cString_le hat
    have hnewline : NEWLINE ∉ file := fun hmem => by
      have := hnl hmem
      omega
    have hordinary : ∀ c ∈ file, Ordinary c := fun c hc =>
      ⟨fun h => hzero (h ▸ hc), fun h => hnewline (h ▸ hc)⟩
    refine ⟨hordinary, reserved, rfl, fun hnil => ?_⟩
    have hfull := readLoop_ordinary hordinary [] (List.replicate file.length 0#8 ++ reserved)
    rw [List.nil_append, hnil, List.append_nil, if_neg (by simp)] at hfull
    rw [hnil, List.append_nil] at hloop
    exact absurd (hfull.symm.trans hloop) (by simp)
  · rintro ⟨hordinary, reserved, rfl, hres⟩
    exact sendsFile_of_ordinary hsize hordinary hres

theorem sendsFile_iff_sample : SendsFile .little [65#8, 66#8] (some [0#8]) :=
  (sendsFile_iff (by decide)).mpr ⟨by decide, [0#8], rfl, by decide⟩

/-- Of the file `A` and a newline nothing is sent, though two bytes are announced. -/
theorem file_not_sent : client .little [65#8, NEWLINE] (some [0#8]) =
    .ok ⟨![0#8, 0#8, 0#8, 2#8], []⟩ ∧ ¬ SendsFile .little [65#8, NEWLINE] (some [0#8]) := by
  have hsent : client .little [65#8, NEWLINE] (some [0#8]) = .ok ⟨![0#8, 0#8, 0#8, 2#8], []⟩ := by
    have hheader : store .little (htonl .little (BitVec.ofNat 32 2)) = ![0#8, 0#8, 0#8, 2#8] := by
      decide
    rw [client, List.length_cons, List.length_singleton, hheader]
    rfl
  refine ⟨hsent, fun h => ?_⟩
  obtain ⟨sent, hok, hmessage, _⟩ := h
  rw [← Except.ok.inj (hsent.symm.trans hok)] at hmessage
  cases hmessage

end OsCourse.Pcc
