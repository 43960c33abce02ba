import OsCourse.Pcc.Ledger

/-! # Blocks taken for strings

A message is a block of as many bytes as were announced; `strlen` looks for a zero byte in
it. The server counts what comes before that byte, so it counts the whole message only
where the block has one and nothing printable behind it.
-/

namespace OsCourse.Pcc
open Foundations

/-- `strlen` on a block; a read behind the block is undefined. -/
def strlen : List Byte → Except Undefined ℕ
  | [] => .error .outOfBounds
  | c :: block => if c = 0#8 then .ok 0 else (strlen block).map (· + 1)

theorem strlen_append {p : List Byte} (hp : 0#8 ∉ p) (q : List Byte) :
    strlen (p ++ 0#8 :: q) = .ok p.length := by
  induction p with
  | nil => rfl
  | cons c p ih =>
    rw [List.mem_cons, not_or] at hp
    rw [List.cons_append, strlen, if_neg (Ne.symm hp.1), ih hp.2, List.length_cons]
    rfl

theorem strlen_of_not_mem {block : List Byte} (h : 0#8 ∉ block) :
    strlen block = .error .outOfBounds := by
  induction block with
  | nil => rfl
  | cons c block ih =>
    rw [List.mem_cons, not_or] at h
    rw [strlen, if_neg (Ne.symm h.1), ih h.2]
    rfl

/-- The first zero byte of a block. -/
theorem exists_split_of_mem {block : List Byte} (h : 0#8 ∈ block) :
    ∃ p q, block = p ++ 0#8 :: q ∧ 0#8 ∉ p := by
  obtain ⟨p, q, rfl, hp⟩ := List.eq_append_cons_of_mem h
  exact ⟨p, q, rfl, hp⟩

/-- A string ends at the first zero byte, whatever lies behind. -/
theorem cString_append {p : List Byte} (hp : 0#8 ∉ p) (q : List Byte) :
    cString (p ++ 0#8 :: q) = p := by
  have hall : ∀ c ∈ p, (decide (c ≠ 0#8)) = true := by
    intro c hc
    rw [decide_eq_true_eq]
    rintro rfl
    exact hp hc
  rw [cString, List.takeWhile_append_of_pos hall]
  simp

theorem not_mem_cString (memory : List Byte) : 0#8 ∉ cString memory := by
  intro h
  have hne := List.mem_takeWhile_imp h
  simp at hne

/-- A string is no longer than the index of a zero byte. -/
theorem length_cString_le {memory : List Byte} {j : ℕ} (h : memory[j]? = some 0#8) :
    (cString memory).length ≤ j := by
  induction memory generalizing j with
  | nil => cases h
  | cons c memory ih =>
    rw [cString, List.takeWhile_cons]
    by_cases hc : c = 0#8
    · simp [hc]
    · cases j with
      | zero =>
        rw [List.getElem?_cons_zero, Option.some.injEq] at h
        exact absurd h hc
      | succ j =>
        rw [List.getElem?_cons_succ] at h
        rw [if_pos (by simpa using hc), List.length_cons]
        exact Nat.succ_le_succ (ih h)

/-! ## The count of a whole message -/

/-- What the server owes to a message that `recv` has stored whole: `count_chars` stays in the block,
the count that is sent is that of all its bytes, and so are the counters. -/
structure CountsAll (host : Host) (s : Server) (message beyond : List Byte) (res : Except ℤ ℕ) :
    Prop where
  inside : ∃ n, strlen message = .ok n
  counted : ∃ t, Machine.perform (step host) s
      [.io (.recvMessage (.ok message) beyond), .io .tau, .io (.send res)] = some t ∧
    t.exchange.reply.map Prod.fst =
      some (store host.order (BitVec.ofNat 32 (printables message))) ∧
    ∀ i, t.totals.pccTotalTemp i =
      s.totals.pccTotalTemp i + BitVec.ofNat 32 (message.count (charAt i))

variable {host : Host} {s : Server} {N_host : BitVec 32} {message beyond : List Byte}
  {res : Except ℤ ℕ}

theorem messageFromHome_whole (hlen : message.length = N_host.toNat) (beyond : List Byte) :
    messageFromHome N_host message beyond = cString (message ++ beyond) := by
  rw [messageFromHome, hlen, Nat.sub_self]
  simp

theorem afterSend_reply (s : Server) (message : List Byte) (count : BitVec 32) (res : Except ℤ ℕ)
    (host : Host) :
    (afterSend s message count res host).exchange.reply = some (store host.order count, res) ∧
      (afterSend s message count res host).totals = s.totals := by
  cases res with
  | ok n => exact ⟨rfl, rfl⟩
  | error errno =>
    obtain ⟨pc, heq, _⟩ := afterSend_error s message count errno host
    rw [heq]
    exact ⟨rfl, rfl⟩

/-- The three steps on a string that can be counted. -/
theorem perform_count (host : Host) (res : Except ℤ ℕ) (hpc : s.pc = .recvMessage N_host)
    (hlen : message.length = N_host.toNat)
    (hcount : (cString (message ++ beyond)).length < 2 ^ 31) :
    ∃ t, Machine.perform (step host) s
        [.io (.recvMessage (.ok message) beyond), .io .tau, .io (.send res)] = some t ∧
      t.exchange.reply = some (store host.order
        (BitVec.ofNat 32 (printables (cString (message ++ beyond)))), res) ∧
      t.totals.pccTotalTemp = addCounts s.totals.pccTotalTemp (cString (message ++ beyond)) := by
  generalize hstring : cString (message ++ beyond) = string at hcount ⊢
  obtain ⟨s₁, hrecv, hs₁⟩ : ∃ s₁, step host s (.io (.recvMessage (.ok message) beyond)) =
      some (goto s₁ (.count string)) ∧ s₁.totals = s.totals := by
    refine ⟨{ s with exchange := { s.exchange with message := some (.ok message) } }, ?_, rfl⟩
    rw [step, hpc, turn, afterRecvMessage]
    dsimp only
    rw [if_pos hlen.le, messageFromHome_whole hlen, hstring]
    rfl
  obtain ⟨s₂, hcounted, hs₂⟩ : ∃ s₂, step host (goto s₁ (.count string)) (.io .tau) =
      some (goto s₂ (.send string (BitVec.ofNat 32 (printables string)))) ∧
      s₂.totals.pccTotalTemp = addCounts s₁.totals.pccTotalTemp string := by
    rw [step, goto, turn, countMessage, countChars_eq _ _ hcount]
    exact ⟨_, rfl, rfl⟩
  have hsend := afterSend_reply (goto s₂ (.send string (BitVec.ofNat 32 (printables string))))
    string (BitVec.ofNat 32 (printables string)) res host
  refine ⟨_, ?_, hsend.1, ?_⟩
  · rw [Machine.perform, hrecv, Option.bind_some, Machine.perform, hcounted, Option.bind_some]
    rfl
  · rw [hsend.2, ← hs₁]
    exact hs₂

theorem printables_append (p q : List Byte) :
    printables (p ++ q) = printables p + printables q := by
  rw [printables, printables, printables, List.countP_append]

theorem printables_le_length (message : List Byte) : printables message ≤ message.length :=
  List.countP_le_length

/-- Behind a string with its terminator, printable characters are what the count misses. -/
theorem count_string_iff {p q : List Byte} (hlen : (p ++ 0#8 :: q).length < 2 ^ 31)
    (a : Counters) :
    (BitVec.ofNat 32 (printables p) = BitVec.ofNat 32 (printables (p ++ 0#8 :: q)) ∧
      ∀ i, addCounts a p i = a i + BitVec.ofNat 32 ((p ++ 0#8 :: q).count (charAt i))) ↔
    ∀ c ∈ q, ¬ Printable c := by
  have hzero : ¬ Printable 0#8 := by decide
  have hall : printables (p ++ 0#8 :: q) = printables p + printables q := by
    rw [printables_append, show 0#8 :: q = [0#8] ++ q from rfl, printables_append]
    simp [printables, hzero]
  have hq : printables q = 0 ↔ ∀ c ∈ q, ¬ Printable c := by
    simp [printables, List.countP_eq_zero]
  have hlt := lt_of_le_of_lt (printables_le_length (p ++ 0#8 :: q)) hlen
  rw [← hq]
  constructor
  · rintro ⟨hres, -⟩
    have hnat := congrArg BitVec.toNat hres
    rw [BitVec.toNat_ofNat, BitVec.toNat_ofNat, Nat.mod_eq_of_lt, Nat.mod_eq_of_lt] at hnat <;> omega
  · intro h0
    refine ⟨by rw [hall, h0, Nat.add_zero], fun i => ?_⟩
    have hne : ∀ c ∈ 0#8 :: q, c ≠ charAt i := by
      rintro c hc rfl
      rcases List.mem_cons.mp hc with hc | hc
      · exact hzero (hc ▸ charAt_printable i)
      · exact hq.mp h0 _ hc (charAt_printable i)
    have hcount : (0#8 :: q).count (charAt i) = 0 :=
      List.count_eq_zero.mpr fun hc => hne _ hc rfl
    rw [addCounts, List.count_append, hcount, Nat.add_zero]

/-- A message that has arrived whole is counted whole exactly if it has a zero byte, and nothing
printable behind the first one. -/
theorem countsAll_iff (hpc : s.pc = .recvMessage N_host) (hN : N_host.toNat < 2 ^ 31)
    (hlen : message.length = N_host.toNat) (beyond : List Byte) (res : Except ℤ ℕ) :
    CountsAll host s message beyond res ↔
      ∃ p q, message = p ++ 0#8 :: q ∧ 0#8 ∉ p ∧ ∀ c ∈ q, ¬ Printable c := by
  by_cases hmem : 0#8 ∈ message
  · obtain ⟨p, q, rfl, hp⟩ := exists_split_of_mem hmem
    have hstring : cString (p ++ 0#8 :: q ++ beyond) = p := by
      rw [List.append_assoc, List.cons_append, cString_append hp]
    have hbound : (p ++ 0#8 :: q).length < 2 ^ 31 := hlen ▸ hN
    have hplen : p.length < 2 ^ 31 := by
      rw [List.length_append] at hbound
      omega
    obtain ⟨t, ht, hreply, htemp⟩ := perform_count host res hpc hlen
      (by rwa [hstring])
    rw [hstring] at hreply htemp
    have hiff : CountsAll host s (p ++ 0#8 :: q) beyond res ↔ ∀ c ∈ q, ¬ Printable c := by
      rw [← count_string_iff hbound s.totals.pccTotalTemp]
      constructor
      · rintro ⟨_, t', ht', hreply', htemp'⟩
        obtain rfl := Option.some.inj (ht.symm.trans ht')
        rw [hreply, Option.map_some, Option.some.injEq] at hreply'
        refine ⟨?_, fun i => by rw [← htemp', htemp]⟩
        have hload := congrArg (load host.order) hreply'
        rwa [load_store, load_store] at hload
      · rintro ⟨hres, htotals⟩
        refine ⟨⟨p.length, strlen_append hp q⟩, t, ht, ?_, fun i => ?_⟩
        · rw [hreply, hres, Option.map_some]
        · rw [htemp, htotals]
    rw [hiff]
    constructor
    · exact fun hq => ⟨p, q, rfl, hp, hq⟩
    · rintro ⟨p', q', heq, hp', hq'⟩
      have hpp := congrArg cString heq
      rw [cString_append hp, cString_append hp'] at hpp
      subst hpp
      rw [List.append_cancel_left_eq, List.cons.injEq] at heq
      exact heq.2 ▸ hq'
  · refine iff_of_false (fun h => ?_) ?_
    · obtain ⟨n, hn⟩ := h.inside
      rw [strlen_of_not_mem hmem] at hn
      cases hn
    · rintro ⟨p, q, rfl, _⟩
      simp at hmem

/-- The length and the message of one client are received, up to the count. -/
def receiving (header : List Byte) : List Event :=
  opening 5 ++ [.io (.recvLength (.ok header) fun _ => 0#8), .io (.malloc true)]

/-- The server of a little-endian host with a signed `char`. -/
abbrev sampleHost : Host := ⟨.little, true, false⟩

theorem reachable_receiving (header : List Byte) (N : BitVec 32)
    (h : (Machine.perform (step sampleHost) .start (receiving header)).map Server.pc =
      some (.recvMessage N)) :
    ∃ s, (server sampleHost).Reachable s ∧ s.pc = .recvMessage N := by
  obtain ⟨s, hs, hpc⟩ := Option.map_eq_some_iff.mp h
  exact ⟨s, ⟨_, Machine.run_ofFun.mpr hs⟩, hpc⟩

/-- For the message `A`, zero, `B` the count that is sent is 1, not 2; and for `AB` the count reads
behind the block. -/
theorem message_not_counted :
    (∃ s t, (server sampleHost).Reachable s ∧ s.pc = .recvMessage 3#32 ∧
      Machine.perform (step sampleHost) s [.io (.recvMessage (.ok [65#8, 0#8, 66#8]) []), .io .tau,
        .io (.send (.ok 4))] = some t ∧
      t.exchange.reply.map Prod.fst = some (store .little 1#32) ∧
      printables [65#8, 0#8, 66#8] = 2 ∧ ¬ CountsAll sampleHost s [65#8, 0#8, 66#8] [] (.ok 4)) ∧
    ∃ s, (server sampleHost).Reachable s ∧ s.pc = .recvMessage 2#32 ∧
      strlen [65#8, 66#8] = .error .outOfBounds ∧
      ¬ CountsAll sampleHost s [65#8, 66#8] [] (.ok 4) := by
  constructor
  · obtain ⟨s, hs, hpc⟩ := reachable_receiving [0#8, 0#8, 0#8, 3#8] 3#32 (by decide +kernel)
    obtain ⟨t, ht, hreply, -⟩ := perform_count sampleHost (.ok 4) hpc
      (show [65#8, 0#8, 66#8].length = _ from rfl) (show (cString (_ ++ [])).length < _ by decide)
    have hsent : t.exchange.reply.map Prod.fst = some (store .little 1#32) := by
      rw [hreply]
      rfl
    refine ⟨s, t, hs, hpc, ht, hsent, by decide, fun h => ?_⟩
    obtain ⟨t', ht', hreply', -⟩ := h.counted
    obtain rfl := Option.some.inj (ht.symm.trans ht')
    rw [hsent] at hreply'
    revert hreply'
    decide
  · obtain ⟨s, hs, hpc⟩ := reachable_receiving [0#8, 0#8, 0#8, 2#8] 2#32 (by decide +kernel)
    refine ⟨s, hs, hpc, rfl, fun h => ?_⟩
    obtain ⟨n, hn⟩ := h.inside
    cases hn

theorem countsAll_iff_sample : ∃ s, (server sampleHost).Reachable s ∧ s.pc = .recvMessage 3#32 ∧
    CountsAll sampleHost s [65#8, 66#8, 0#8] [] (.ok 4) := by
  obtain ⟨s, hs, hpc⟩ := reachable_receiving [0#8, 0#8, 0#8, 3#8] 3#32 (by decide +kernel)
  refine ⟨s, hs, hpc, (countsAll_iff hpc (by decide) rfl [] (.ok 4)).mpr ?_⟩
  exact ⟨[65#8, 66#8], [], rfl, by decide, by simp⟩

end OsCourse.Pcc
