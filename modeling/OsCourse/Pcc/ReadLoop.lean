import OsCourse.Pcc.Client

/-! # The bounds of the reading loop

The block has as many bytes as the file, and the loop puts a zero byte behind each line of it,
the last one included. So it leaves the block exactly where a line fills the block, which is where
the file is a single line without its newline.
-/

namespace OsCourse.Pcc

variable {file line memory : List Byte} {o : ByteOrder}

/-- The block that the client takes from `malloc` and clears. -/
def cleared (file : List Byte) : List Byte :=
  List.replicate (BitVec.ofNat 32 file.length).toNat 0#8

/-- Every store of the loop is inside the block, and `strlen` finds a zero byte there. -/
def StaysInside (file : List Byte) : Prop :=
  ∃ memory n, readLoop (cleared file) 0 file = .ok memory ∧ strlen memory = .ok n

/-- What the loop reads, line by line. -/
def lines (file : List Byte) : List (List Byte) := (cString file).splitOn NEWLINE

theorem staysInside_iff_client :
    StaysInside file ↔ ∃ sent, client o file (some []) = .ok sent := by
  constructor
  · rintro ⟨memory, n, hloop, hn⟩
    refine ⟨⟨store o (htonl o (BitVec.ofNat 32 file.length)), memory.take n⟩, ?_⟩
    rw [client, List.append_nil]
    rw [cleared] at hloop
    rw [hloop, ok_bind_undefined, hn, ok_bind_undefined]
  · rintro ⟨sent, hsent⟩
    rw [client, List.append_nil] at hsent
    obtain ⟨memory, hloop, hsent⟩ := bind_eq_ok hsent
    obtain ⟨n, hn, _⟩ := bind_eq_ok hsent
    exact ⟨memory, n, hloop, hn⟩

/-! ## Lines -/

theorem cString_zero {p : List Byte} (hp : ∀ c ∈ p, Ordinary c) (q : List Byte) :
    cString (p ++ 0#8 :: q) = p :=
  cString_append (fun h => (hp _ h).1 rfl) q

theorem cString_whole (h : 0#8 ∉ file) : cString file = file := by
  rw [cString, List.takeWhile_eq_self_iff]
  intro c hc
  rw [decide_eq_true_eq]
  rintro rfl
  exact h hc

theorem cString_ordinary {p : List Byte} (hp : ∀ c ∈ p, Ordinary c) (q : List Byte) :
    cString (p ++ q) = p ++ cString q := by
  rw [cString, List.takeWhile_append_of_pos fun c hc => decide_eq_true (hp c hc).1]
  rfl

theorem cString_newline (q : List Byte) : cString (NEWLINE :: q) = NEWLINE :: cString q := by
  rw [cString, List.takeWhile_cons_of_pos (by decide)]
  rfl

variable {p : List Byte}

theorem not_mem_ordinary (hp : ∀ c ∈ p, Ordinary c) : NEWLINE ∉ p := fun h => (hp _ h).2 rfl

theorem lines_zero (hp : ∀ c ∈ p, Ordinary c) (q : List Byte) : lines (p ++ 0#8 :: q) = [p] := by
  rw [lines, cString_zero hp, List.splitOn_eq_singleton (not_mem_ordinary hp)]

theorem lines_ordinary (hp : ∀ c ∈ p, Ordinary c) : lines p = [p] := by
  rw [lines, cString_whole fun h => (hp _ h).1 rfl, List.splitOn_eq_singleton (not_mem_ordinary hp)]

theorem lines_newline (hp : ∀ c ∈ p, Ordinary c) (q : List Byte) :
    lines (p ++ NEWLINE :: q) = p :: lines q := by
  rw [lines, cString_ordinary hp, cString_newline,
    List.splitOn_append_cons_self_of_not_mem (not_mem_ordinary hp), lines]

theorem ordinary_snoc {c : Byte} (hp : ∀ c ∈ p, Ordinary c) (hc : Ordinary c) :
    ∀ d ∈ p ++ [c], Ordinary d :=
  List.forall_mem_append.mpr ⟨hp, List.forall_mem_singleton.mpr hc⟩

/-- Ordinary bytes belong to one line. -/
theorem exists_line (hp : ∀ c ∈ p, Ordinary c) (q : List Byte) :
    ∃ line ∈ lines (p ++ q), p.length ≤ line.length := by
  induction q generalizing p with
  | nil => exact ⟨p, by rw [List.append_nil, lines_ordinary hp, List.mem_singleton], le_rfl⟩
  | cons c q ih =>
    by_cases h0 : c = 0#8
    · exact ⟨p, by rw [h0, lines_zero hp, List.mem_singleton], le_rfl⟩
    by_cases hnl : c = NEWLINE
    · exact ⟨p, by rw [hnl, lines_newline hp]; exact List.mem_cons_self, le_rfl⟩
    · obtain ⟨line, hline, hle⟩ := ih (ordinary_snoc hp ⟨h0, hnl⟩)
      rw [← List.append_cons] at hline
      rw [List.length_append] at hle
      exact ⟨line, hline, by omega⟩

/-! ## The loop -/

variable {size : ℕ}

theorem set_last {index : ℕ} {c : Byte} (hlen : memory.length = size)
    (hzero : memory[size - 1]? = some 0#8) (hindex : index < size) (hc : c = 0#8 ∨ index + 1 < size) :
    (memory.set index c)[size - 1]? = some 0#8 := by
  by_cases hlast : index = size - 1
  · rw [hlast, List.getElem?_set_self (by omega)]
    obtain rfl | hlt := hc
    · rfl
    · omega
  · rw [List.getElem?_set_ne hlast, hzero]

/-- If every line is shorter than the block, the last byte of the block stays zero. -/
theorem readLoop_inside (hp : ∀ c ∈ p, Ordinary c) (hlen : memory.length = size)
    (hzero : memory[size - 1]? = some 0#8)
    (hlines : ∀ line ∈ lines (p ++ file), line.length < size) :
    ∃ memory', readLoop memory p.length file = .ok memory' ∧ memory'[size - 1]? = some 0#8 := by
  induction file generalizing p memory with
  | nil =>
    rw [List.append_nil, lines_ordinary hp, List.forall_mem_singleton] at hlines
    exact ⟨_, put_eq (hlen ▸ hlines) 0#8, set_last hlen hzero hlines (Or.inl rfl)⟩
  | cons c file ih =>
    rw [readLoop]
    by_cases h0 : c = 0#8
    · rw [if_pos h0]
      exact ⟨memory, rfl, hzero⟩
    rw [if_neg h0]
    by_cases hnl : c = NEWLINE
    · rw [hnl, lines_newline hp, List.forall_mem_cons] at hlines
      rw [if_pos hnl, put_eq (hlen ▸ hlines.1), ok_bind_undefined]
      have hset := set_last hlen hzero hlines.1 (Or.inl rfl)
      exact ih (p := []) (List.forall_mem_nil _) (by rw [List.length_set, hlen]) hset hlines.2
    · have hp' := ordinary_snoc hp ⟨h0, hnl⟩
      rw [List.append_cons] at hlines
      obtain ⟨line, hline, hle⟩ := exists_line hp' file
      have hlt : p.length + 1 < size := by
        have := hlines line hline
        rw [List.length_append, List.length_singleton] at hle
        omega
      rw [if_neg hnl, put_eq (by omega), ok_bind_undefined]
      have hset := set_last (c := c) hlen hzero (by omega) (Or.inr hlt)
      have hrest := ih hp' (by rw [List.length_set, hlen]) hset hlines
      rwa [List.length_append, List.length_singleton] at hrest

theorem put_inv {memory' : List Byte} {index : ℕ} {c : Byte}
    (h : put memory index c = .ok memory') :
    index < memory.length ∧ memory' = memory.set index c := by
  rw [put] at h
  split at h
  case isTrue hlt => exact ⟨hlt, (Except.ok.inj h).symm⟩
  case isFalse => cases h

theorem isPrefix_set (hmemory : p <+: memory) (hlt : p.length < memory.length) (c : Byte) :
    p ++ [c] <+: memory.set p.length c := by
  obtain ⟨rest, rfl⟩ := hmemory
  cases rest with
  | nil => simp at hlt
  | cons r rest => exact ⟨rest, by simp⟩

/-- A loop that stays in its block and leaves a zero byte there has read lines that are shorter than
the block: each of them lies in the block and has either been terminated there or is followed by
that zero byte. -/
theorem lines_short (hp : ∀ c ∈ p, Ordinary c) (hmemory : p <+: memory)
    (hlen : memory.length = size) {memory' : List Byte}
    (hloop : readLoop memory p.length file = .ok memory') (hzero : 0#8 ∈ memory') :
    ∀ line ∈ lines (p ++ file), line.length < size := by
  induction file generalizing p memory with
  | nil =>
    rw [List.append_nil, lines_ordinary hp, List.forall_mem_singleton, ← hlen]
    exact (put_inv hloop).1
  | cons c file ih =>
    rw [readLoop] at hloop
    by_cases h0 : c = 0#8
    · rw [if_pos h0] at hloop
      obtain rfl := Except.ok.inj hloop
      rw [h0, lines_zero hp, List.forall_mem_singleton, ← hlen]
      refine lt_of_le_of_ne hmemory.length_le fun hfull => ?_
      rw [← hmemory.eq_of_length hfull] at hzero
      exact (hp _ hzero).1 rfl
    rw [if_neg h0] at hloop
    by_cases hnl : c = NEWLINE
    · rw [if_pos hnl] at hloop
      obtain ⟨m, hput, hloop⟩ := bind_eq_ok hloop
      obtain ⟨hlt, rfl⟩ := put_inv hput
      rw [hnl, lines_newline hp, List.forall_mem_cons]
      refine ⟨hlen ▸ hlt, ?_⟩
      exact ih (p := []) (List.forall_mem_nil _) List.nil_prefix
        (by rw [List.length_set, hlen]) hloop
    · rw [if_neg hnl] at hloop
      obtain ⟨m, hput, hloop⟩ := bind_eq_ok hloop
      obtain ⟨hlt, rfl⟩ := put_inv hput
      rw [List.append_cons]
      refine ih (ordinary_snoc hp ⟨h0, hnl⟩) (isPrefix_set hmemory hlt c) (by rw [List.length_set, hlen]) ?_
      rwa [List.length_append, List.length_singleton]

/-! ## Files -/

theorem length_cString_lt (h : 0#8 ∈ file) : (cString file).length < file.length := by
  obtain ⟨p, q, rfl, hp⟩ := exists_split_of_mem h
  rw [cString_append hp, List.length_append, List.length_cons]
  omega

/-- A line is shorter than the text by the newlines that separate it from others. -/
theorem length_line (text : List Byte) : ∀ line ∈ text.splitOn NEWLINE,
    line.length ≤ text.length ∧ (NEWLINE ∈ text → line.length < text.length) := by
  by_cases h : NEWLINE ∈ text
  · obtain ⟨p, q, rfl, hp⟩ := List.eq_append_cons_of_mem h
    rw [List.splitOn_append_cons_self_of_not_mem hp, List.forall_mem_cons, List.length_append,
      List.length_cons]
    refine ⟨⟨by omega, fun _ => by omega⟩, fun line hline => ?_⟩
    have hle := (length_line q line hline).1
    exact ⟨by omega, fun _ => by omega⟩
  · rw [List.splitOn_eq_singleton h, List.forall_mem_singleton]
    exact ⟨le_rfl, fun hnl => absurd hnl h⟩
termination_by text.length
decreasing_by
  subst_vars
  rw [List.length_append, List.length_cons]
  omega

theorem lines_short_iff :
    (∀ line ∈ lines file, line.length < file.length) ↔ 0#8 ∈ file ∨ NEWLINE ∈ file := by
  constructor
  · intro hlines
    by_contra hnone
    rw [not_or] at hnone
    have hfile : ∀ c ∈ file, Ordinary c := fun c hc =>
      ⟨fun h => hnone.1 (h ▸ hc), fun h => hnone.2 (h ▸ hc)⟩
    rw [lines_ordinary hfile, List.forall_mem_singleton] at hlines
    exact lt_irrefl _ hlines
  · intro hsome line hline
    have hle := length_line (cString file) line hline
    by_cases h0 : 0#8 ∈ file
    · exact lt_of_le_of_lt hle.1 (length_cString_lt h0)
    · rw [cString_whole h0] at hle
      exact hle.2 (hsome.resolve_left h0)

theorem strlen_isOk_iff : (∃ n, strlen memory = .ok n) ↔ 0#8 ∈ memory := by
  constructor
  · rintro ⟨n, hn⟩
    by_contra hmem
    rw [strlen_of_not_mem hmem] at hn
    cases hn
  · intro hmem
    obtain ⟨p, q, rfl, hp⟩ := exists_split_of_mem hmem
    exact ⟨p.length, strlen_append hp q⟩

theorem staysInside_iff_lines :
    StaysInside file ↔ ∀ line ∈ lines file, line.length < (cleared file).length := by
  constructor
  · rintro ⟨memory, n, hloop, hn⟩
    exact lines_short (p := []) (List.forall_mem_nil _) List.nil_prefix rfl hloop
      (strlen_isOk_iff.mp ⟨n, hn⟩)
  · intro hlines
    obtain ⟨line, hline, _⟩ := exists_line (p := []) (List.forall_mem_nil _) file
    have hpos := hlines line hline
    have hlast : (cleared file)[(cleared file).length - 1]? = some 0#8 := by
      rw [cleared, List.length_replicate, List.getElem?_replicate, if_pos]
      rw [cleared, List.length_replicate] at hpos
      omega
    obtain ⟨memory, hloop, hzero⟩ :=
      readLoop_inside (p := []) (List.forall_mem_nil _) rfl hlast hlines
    obtain ⟨n, hn⟩ := strlen_isOk_iff.mpr (List.mem_of_getElem? hzero)
    exact ⟨memory, n, hloop, hn⟩

/-- The loop stays inside the block exactly if each line that it reads is shorter than the block;
of a file below 4 GiB, which gets a block of its own size, exactly if there is a zero byte or a
newline in it. -/
theorem staysInside_iff (file : List Byte) :
    (StaysInside file ↔
      ∀ line ∈ lines file, line.length < (BitVec.ofNat 32 file.length).toNat) ∧
    (file.length < 2 ^ 32 → (StaysInside file ↔ 0#8 ∈ file ∨ NEWLINE ∈ file)) := by
  have hiff : StaysInside file ↔ _ := staysInside_iff_lines
  rw [cleared, List.length_replicate] at hiff
  refine ⟨hiff, fun hsize => ?_⟩
  rw [hiff, BitVec.toNat_ofNat, Nat.mod_eq_of_lt hsize]
  exact lines_short_iff

theorem staysInside_iff_sample : StaysInside [65#8, NEWLINE] :=
  ((staysInside_iff [65#8, NEWLINE]).2 (by decide)).mpr (by decide)

/-- The file `A` has its terminator stored behind its block of one byte. -/
theorem leaves_block : readLoop (cleared [65#8]) 0 [65#8] = .error .outOfBounds ∧
    ¬ StaysInside [65#8] := by
  refine ⟨rfl, ?_⟩
  rintro ⟨memory, n, hloop, _⟩
  cases hloop

end OsCourse.Pcc
