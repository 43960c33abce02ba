import OsCourse.Foundations.Words
import OsCourse.Shell.Program

/-! # A command line in memory

`shell.c` cuts the line with `strtok`, which writes zero bytes into it, and fills `arglist` with
pointers to the words. `myshell.c` then looks for `|` and `&` behind these pointers, and ends a
command by a `NULL` among them.
-/

namespace OsCourse.Shell
open Foundations

abbrev Byte := BitVec 8

abbrev INT_MAX : ℕ := 2 ^ 31 - 1

/-- The bytes at which `strtok` cuts. -/
def delim (c : Byte) : Bool := c = 0x20#8 ∨ c = 0x09#8 ∨ c = 0x0A#8

/-- How many bytes with `p` a block starts with; a read behind the block has no result. -/
def span (p : Byte → Bool) : List Byte → Option ℕ
  | [] => none
  | c :: block => if p c then (span p block).map (· + 1) else some 0

/-- The string that a block starts with. -/
def cString : List Byte → Option (List Byte)
  | [] => none
  | c :: block => if c = 0#8 then some [] else (cString block).map (c :: ·)

/-- `strtok` from `save_ptr` on: the line, where the next call goes on, and the token if one is left. -/
def strtok (line : List Byte) (save_ptr : ℕ) : Option (List Byte × ℕ × Option ℕ) := do
  let skipped ← span delim (line.drop save_ptr)
  let token := save_ptr + skipped
  let length ← span (fun c => c ≠ 0#8 && !delim c) (line.drop token)
  if length = 0 then some (line, token, none)
  else
    let stop := token + length
    let c ← (line.drop stop).head?
    if c = 0#8 then some (line, stop, some token)
    else some (line.set stop 0#8, stop + 1, some token)

/-- A line with its zero bytes, and the pointers into it. -/
structure Arglist where
  line : List Byte
  arglist : List (Option ℕ)
  deriving DecidableEq

/-- The loop of `main`, from one call of `strtok` to the next. The shell exits if there is no memory
for more than `room` pointers. An overflow of `++count`, or of `count + 1` in the new size, has no
result. -/
def fillArglist (room : ℕ) : ℕ → List Byte → ℕ → List (Option ℕ) → Option (Option Arglist)
  | 0, _, _, _ => none
  | fuel + 1, line, save_ptr, arglist => do
    let (line, save_ptr, token) ← strtok line save_ptr
    let count := arglist.length
    let arglist := arglist ++ [token]
    if token = none then some (some ⟨line, arglist⟩)
    else if INT_MAX < count + 2 then none
    else if room < count + 2 then some none
    else fillArglist room fuel line save_ptr arglist

/-- What `main` makes of a line that `getline` has stored; `none` inside if it exits. -/
def readArglist (room : ℕ) (line : List Byte) : Option (Option Arglist) :=
  if room = 0 then some none
  else fillArglist room (line.length + 1) (line ++ [0#8]) 0 []

/-- The characters of a string. -/
def text (w : List Byte) : String := String.ofList (w.map fun c => Char.ofNat c.toNat)

namespace Arglist

/-- `strcmp(arglist[i], s) == 0`, which has no result if `arglist[i]` is `NULL` or not a pointer. -/
def strcmp (a : Arglist) (i : ℕ) (s : List Byte) : Option Bool := do
  let p ← (← a.arglist[i]?)
  let w ← cString (a.line.drop p)
  some (decide (w = s))

/-- `arglist[i] = NULL`. -/
def setNull (a : Arglist) (i : ℕ) : Arglist := { a with arglist := a.arglist.set i none }

/-- `disclose_pipe_or_parallel` in its last `k` rounds of `count`. -/
def disclosePipeOrParallel (a : Arglist) (count : ℕ) : ℕ → Option (CommandType × Arglist)
  | 0 => some (.regular, a)
  | k + 1 => do
    let i := count - (k + 1)
    if ← a.strcmp i [0x7C#8] then some (.pipe, a)
    else if ← if i = count - 1 then a.strcmp i [0x26#8] else some false then
      some (.parallel, a.setNull i)
    else a.disclosePipeOrParallel count k

/-- The loop of `process_arglist` that ends the first command, in its last `k` rounds of `count`, with
the index at which `command2` starts. A `command2` that is not set has no value. -/
def splitPipe (a : Arglist) (count : ℕ) : ℕ → Option (Arglist × ℕ)
  | 0 => none
  | k + 1 => do
    let i := count - (k + 1)
    if ← a.strcmp i [0x7C#8] then some (a.setNull i, i + 1) else a.splitPipe count k

/-- The strings behind pointers, up to a `NULL`. -/
def strings (line : List Byte) : List (Option ℕ) → Option (List (List Byte))
  | [] => none
  | none :: _ => some []
  | some p :: arglist => do
    let w ← cString (line.drop p)
    let ws ← strings line arglist
    some (w :: ws)

/-- What `execvp` makes of the pointers from index `i` on. -/
def argv (a : Arglist) (i : ℕ) : Option (List String) :=
  (strings a.line (a.arglist.drop i)).map (List.map text)

/-- `process_arglist` after `handle_sigint(0)`. -/
def processArglist (a : Arglist) (count : ℕ) : Option Pc := do
  let (command_type, a) ← a.disclosePipeOrParallel count count
  match command_type with
  | .pipe => do
    let (a, i) ← a.splitPipe count count
    let command1 ← a.argv 0
    let command2 ← a.argv i
    some (.piping command1 command2)
  | .parallel => do
    let arglist ← a.argv 0
    some (.forking arglist true)
  | .regular => do
    let arglist ← a.argv 0
    some (.forking arglist false)

end Arglist

/-! ## What `strtok` finds -/

variable {c : Byte} {d w t tail pre line : List Byte}

theorem delim_ne_zero (h : delim c = true) : c ≠ 0#8 := by
  rintro rfl
  cases h

theorem span_append {p : Byte → Bool} (hw : ∀ c ∈ w, p c = true) (hc : p c = false)
    (l : List Byte) : span p (w ++ c :: l) = some w.length := by
  induction w with
  | nil => rw [List.nil_append, span, hc]; rfl
  | cons a w ih =>
    rw [List.forall_mem_cons] at hw
    rw [List.cons_append, span, if_pos hw.1, ih hw.2]
    rfl

theorem cString_append (hw : 0#8 ∉ w) (l : List Byte) : cString (w ++ 0#8 :: l) = some w := by
  induction w with
  | nil => rfl
  | cons a w ih =>
    rw [List.mem_cons, not_or] at hw
    rw [List.cons_append, cString, if_neg (Ne.symm hw.1), ih hw.2]
    rfl

/-- Only delimiters are left. -/
theorem strtok_blank (hd : ∀ c ∈ d, delim c = true) (pre tail : List Byte) :
    strtok (pre ++ (d ++ 0#8 :: tail)) pre.length =
      some (pre ++ (d ++ 0#8 :: tail), (pre ++ d).length, none) := by
  have hskip : span delim (d ++ 0#8 :: tail) = some d.length := span_append hd rfl tail
  have hnone : span (fun c => c ≠ 0#8 && !delim c) (0#8 :: tail) = some 0 := rfl
  rw [strtok, List.drop_left, hskip, Option.bind_eq_bind, Option.bind_some]
  dsimp only
  rw [← List.length_append, ← List.append_assoc, List.drop_left, hnone]
  rfl

/-- The next token ends at the byte `c`, which becomes zero. -/
theorem strtok_word (hd : ∀ c ∈ d, delim c = true) (hw : IsWord delim w) (hzero : 0#8 ∉ w)
    (hc : c = 0#8 ∨ delim c = true) (pre l : List Byte) :
    strtok (pre ++ (d ++ (w ++ c :: l))) pre.length =
      some (pre ++ (d ++ (w ++ 0#8 :: l)),
        (pre ++ (d ++ w)).length + if c = 0#8 then 0 else 1, some (pre ++ d).length) := by
  obtain ⟨a, w', rfl⟩ := List.exists_cons_of_ne_nil hw.ne_nil
  have ha : delim a = false := hw.clean a List.mem_cons_self
  have hskip : span delim (d ++ (a :: w' ++ c :: l)) = some d.length := span_append hd ha _
  have hlen : span (fun c => c ≠ 0#8 && !delim c) (a :: w' ++ c :: l) = some (a :: w').length := by
    refine span_append (fun b hb => ?_) ?_ l
    · have hne : b ≠ 0#8 := by
        rintro rfl
        exact hzero hb
      simp [hne, hw.clean b hb]
    · obtain rfl | hc := hc
      · rfl
      · simp [hc]
  have hset : (pre ++ d ++ a :: w' ++ c :: l).set (pre ++ d ++ a :: w').length 0#8 =
      pre ++ d ++ a :: w' ++ 0#8 :: l := by
    rw [List.set_append_right _ _ le_rfl, Nat.sub_self]
    rfl
  rw [strtok, List.drop_left, hskip, Option.bind_eq_bind, Option.bind_some]
  dsimp only
  rw [← List.length_append, ← List.append_assoc pre, List.drop_left, hlen, Option.bind_some,
    if_neg (by simp), ← List.length_append, ← List.append_assoc (pre ++ d), List.drop_left,
    List.head?_cons, Option.bind_eq_bind, Option.bind_some, hset]
  simp only [← List.append_assoc]
  by_cases hc0 : c = 0#8
  · rw [if_pos hc0, if_pos hc0, hc0]
    rfl
  · rw [if_neg hc0, if_neg hc0]

/-! ## What `arglist` holds -/

/-- The string behind a pointer into the line. -/
def stringAt (line : List Byte) (p : ℕ) : Option (List Byte) := cString (line.drop p)

/-- The pointers lead to the words `ws`. -/
def Leads (line : List Byte) : List ℕ → List (List Byte) → Prop :=
  List.Forall₂ fun p w => stringAt line p = some w

theorem stringAt_word (hw : 0#8 ∉ w) (pre d l : List Byte) :
    stringAt (pre ++ (d ++ (w ++ 0#8 :: l))) (pre ++ d).length = some w := by
  rw [stringAt, ← List.append_assoc, List.drop_left, cString_append hw]

/-- What the loop does with the rest `t` of a line, once the words before it have been found. -/
structure Fills (room fuel : ℕ) (tail t : List Byte) : Prop where
  exits : ∀ pre arglist, arglist.length < room →
    room ≤ arglist.length + (words delim t).length → room < INT_MAX →
    fillArglist room fuel (pre ++ (t ++ 0#8 :: tail)) pre.length arglist = some none
  overflows : ∀ pre arglist, arglist.length < INT_MAX → INT_MAX ≤ room →
    INT_MAX ≤ arglist.length + (words delim t).length →
    fillArglist room fuel (pre ++ (t ++ 0#8 :: tail)) pre.length arglist = none
  fills : ∀ pre arglist, arglist.length + (words delim t).length < room →
    arglist.length + (words delim t).length < INT_MAX →
    ∃ t' ps, t'.length = t.length ∧ Leads (pre ++ (t' ++ 0#8 :: tail)) ps (words delim t) ∧
      fillArglist room fuel (pre ++ (t ++ 0#8 :: tail)) pre.length arglist =
        some (some ⟨pre ++ (t' ++ 0#8 :: tail), arglist ++ (ps.map some ++ [none])⟩)

theorem fills_blank (room fuel : ℕ) (tail : List Byte) (hd : ∀ c ∈ d, delim c = true) :
    Fills room (fuel + 1) tail d := by
  refine ⟨fun pre arglist hroom hlack => ?_, fun pre arglist hcount _ hover => ?_,
    fun pre arglist hroom hcount => ?_⟩
  · rw [words_delims hd] at hlack
    exact absurd hroom (not_lt.mpr hlack)
  · rw [words_delims hd] at hover
    exact absurd hcount (not_lt.mpr hover)
  · refine ⟨d, [], rfl, ?_, ?_⟩
    · rw [words_delims hd]
      exact .nil
    · rw [fillArglist, strtok_blank hd]
      rfl

/-- A token, behind which the loop goes on with `t₁`. -/
theorem Fills.token {room fuel : ℕ} {t₁ : List Byte} (h : Fills room fuel tail t₁)
    (mid : List Byte) (hwords : words delim t = w :: words delim t₁) (hlen : t.length = (mid ++ t₁).length)
    (hstring : ∀ pre t', t'.length = t₁.length →
      stringAt (pre ++ (mid ++ (t' ++ 0#8 :: tail))) (pre ++ d).length = some w)
    (htok : ∀ pre, strtok (pre ++ (t ++ 0#8 :: tail)) pre.length =
      some ((pre ++ mid) ++ (t₁ ++ 0#8 :: tail), (pre ++ mid).length, some (pre ++ d).length)) :
    Fills room (fuel + 1) tail t := by
  have hstep : ∀ pre arglist,
      fillArglist room (fuel + 1) (pre ++ (t ++ 0#8 :: tail)) pre.length arglist =
        if INT_MAX < arglist.length + 2 then none
        else if room < arglist.length + 2 then some none
        else fillArglist room fuel ((pre ++ mid) ++ (t₁ ++ 0#8 :: tail)) (pre ++ mid).length
          (arglist ++ [some (pre ++ d).length]) := by
    intro pre arglist
    rw [fillArglist, htok, Option.bind_eq_bind, Option.bind_some]
    dsimp only
    rw [if_neg (Option.some_ne_none _)]
  refine ⟨fun pre arglist hroom hlack hmax => ?_, fun pre arglist hcount hmax hover => ?_,
    fun pre arglist hroom hcount => ?_⟩
  · rw [hwords, List.length_cons] at hlack
    rw [hstep, if_neg (by omega)]
    split
    case isTrue => rfl
    case isFalse hlast =>
      refine h.exits _ _ ?_ ?_ hmax <;> rw [List.length_append, List.length_singleton] <;> omega
  · rw [hwords, List.length_cons] at hover
    rw [hstep]
    split
    case isTrue => rfl
    case isFalse hne =>
      rw [if_neg (by omega)]
      refine h.overflows _ _ ?_ hmax ?_ <;> rw [List.length_append, List.length_singleton] <;> omega
  · rw [hwords, List.length_cons] at hroom hcount
    obtain ⟨t', ps, ht', hleads, hfill⟩ := h.fills (pre ++ mid)
      (arglist ++ [some (pre ++ d).length])
      (by rw [List.length_append, List.length_singleton]; omega)
      (by rw [List.length_append, List.length_singleton]; omega)
    refine ⟨mid ++ t', (pre ++ d).length :: ps, ?_, ?_, ?_⟩
    · rw [hlen, List.length_append, List.length_append, ht']
    · rw [hwords, List.append_assoc mid]
      refine .cons (hstring pre t' ht') ?_
      rwa [List.append_assoc] at hleads
    · rw [hstep, if_neg (by omega), if_neg (by omega), hfill]
      simp only [List.append_assoc, List.map_cons, List.cons_append, List.nil_append]

/-- The loop ends, in the line and on the words of the rest. -/
theorem fills (room : ℕ) {fuel : ℕ} (tail : List Byte) (hzero : 0#8 ∉ t) (hfuel : t.length < fuel) :
    Fills room fuel tail t := by
  induction fuel generalizing t with
  | zero => exact absurd hfuel (Nat.not_lt_zero _)
  | succ fuel ih =>
    cases leading delim t with
    | blank hd => exact fills_blank room fuel tail hd
    | @last d w hd hw =>
      have hw0 : 0#8 ∉ w := fun h => hzero (List.mem_append_right d h)
      have hrest : Fills room fuel tail [] := by
        refine ih List.not_mem_nil ?_
        have hpos := List.length_pos_iff.mpr hw.ne_nil
        rw [List.length_append] at hfuel
        rw [List.length_nil]
        omega
      refine hrest.token (w := w) (d := d) (d ++ w) ?_ ?_ (fun pre t' ht' => ?_) fun pre => ?_
      · rw [words_delims_append hd, words_self hw]
        rfl
      · rw [List.append_nil]
      · rw [List.eq_nil_of_length_eq_zero ht', List.append_assoc]
        exact stringAt_word hw0 pre d tail
      · rw [List.append_assoc d, strtok_word hd hw hw0 (Or.inl rfl)]
        simp only [List.append_assoc, List.nil_append, if_pos, Nat.add_zero]
    | @next d w l a hd hw ha =>
      have hw0 : 0#8 ∉ w := fun h => hzero (List.mem_append_right d (List.mem_append_left _ h))
      have hl0 : 0#8 ∉ l := fun h =>
        hzero (List.mem_append_right d (List.mem_append_right w (List.mem_cons_of_mem a h)))
      have hrest : Fills room fuel tail l := by
        refine ih hl0 ?_
        simp only [List.length_append, List.length_cons] at hfuel
        omega
      refine hrest.token (w := w) (d := d) (d ++ (w ++ [0#8])) ?_ ?_ (fun pre t' _ => ?_)
        fun pre => ?_
      · rw [words_delims_append hd, words_append_cons hw ha]
      · simp only [List.length_append, List.length_cons, List.length_nil]
        omega
      · have h := stringAt_word hw0 pre d (t' ++ 0#8 :: tail)
        simpa only [List.append_assoc, List.cons_append, List.nil_append] using h
      · have h := strtok_word hd hw hw0 (Or.inr ha) pre (l ++ 0#8 :: tail)
        rw [if_neg (delim_ne_zero ha)] at h
        simpa only [List.append_assoc, List.cons_append, List.nil_append, List.length_append,
          List.length_cons, List.length_nil, Nat.add_assoc] using h

/-- The words of a line: what `strtok` does not reach, behind a zero byte, is lost. -/
def lineWords (line : List Byte) : List (List Byte) := words delim (line.takeWhile (· ≠ 0#8))

/-- The pointers, with a `NULL` behind them, lead to the words `ws`. -/
def Arglist.Holds (a : Arglist) (ws : List (List Byte)) : Prop :=
  ∃ ps : List ℕ, a.arglist = ps.map some ++ [none] ∧ Leads a.line ps ws

theorem exists_tail (line : List Byte) :
    ∃ tail, line ++ [0#8] = line.takeWhile (· ≠ 0#8) ++ 0#8 :: tail := by
  induction line with
  | nil => exact ⟨[], rfl⟩
  | cons c line ih =>
    obtain ⟨tail, ih⟩ := ih
    by_cases hc : c = 0#8
    · exact ⟨line ++ [0#8], by simp [hc]⟩
    · exact ⟨tail, by simp [hc, ih]⟩

theorem readArglist_fills (room : ℕ) (line : List Byte) : ∃ tail,
    line ++ [0#8] = [] ++ (line.takeWhile (· ≠ 0#8) ++ 0#8 :: tail) ∧
      Fills room (line.length + 1) tail (line.takeWhile (· ≠ 0#8)) := by
  obtain ⟨tail, htail⟩ := exists_tail line
  refine ⟨tail, htail, fills room tail (fun h => ?_) ?_⟩
  · simpa using List.mem_takeWhile_imp h
  · exact Nat.lt_succ_of_le (List.takeWhile_prefix _).length_le

theorem readArglist_of_lack {room : ℕ} (hlack : room ≤ (lineWords line).length)
    (hmax : room < INT_MAX) : readArglist room line = some none := by
  obtain ⟨tail, htail, h⟩ := readArglist_fills room line
  rw [readArglist]
  split
  case isTrue => rfl
  case isFalse hroom =>
    rw [htail]
    exact h.exits [] [] (Nat.pos_of_ne_zero hroom) (by simpa [lineWords] using hlack) hmax

theorem readArglist_of_overflow {room : ℕ} (hmax : INT_MAX ≤ room)
    (hover : INT_MAX ≤ (lineWords line).length) : readArglist room line = none := by
  obtain ⟨tail, htail, h⟩ := readArglist_fills room line
  have hpos : 0 < INT_MAX := by decide
  rw [readArglist, if_neg (Nat.ne_zero_of_lt (hpos.trans_le hmax)), htail]
  exact h.overflows [] [] (by decide) hmax (by simpa [lineWords] using hover)

theorem readArglist_of_room {room : ℕ} (hroom : (lineWords line).length < room)
    (hcount : (lineWords line).length < INT_MAX) :
    ∃ a, readArglist room line = some (some a) ∧ a.Holds (lineWords line) := by
  obtain ⟨tail, htail, h⟩ := readArglist_fills room line
  obtain ⟨t', ps, _, hleads, hfill⟩ := h.fills [] [] (by simpa [lineWords] using hroom)
    (by simpa [lineWords] using hcount)
  refine ⟨⟨[] ++ (t' ++ 0#8 :: tail), ps.map some ++ [none]⟩, ?_, ps, rfl, hleads⟩
  rw [readArglist, if_neg (Nat.ne_zero_of_lt hroom), htail]
  exact hfill

/-! ## What `process_arglist` makes of it -/

theorem text_injective : Function.Injective text := by
  intro w w' h
  have hchars := congrArg String.toList h
  rw [text, text, String.toList_ofList, String.toList_ofList] at hchars
  refine List.map_injective_iff.mpr (fun c c' hc => ?_) hchars
  have hvalid : ∀ c : Byte, (Char.ofNat c.toNat).toNat = c.toNat := by
    intro c
    have hlt : c.toNat < 256 := c.isLt
    exact (Char.toNat_ofNat _).trans (if_pos (Or.inl (by omega)))
  have hnat := congrArg Char.toNat hc
  rw [hvalid, hvalid] at hnat
  exact BitVec.eq_of_toNat_eq hnat

theorem disclosePipeOrParallel_eq (ws : List String) :
    disclosePipeOrParallel ws =
      if "|" ∈ ws then (.pipe, ws)
      else if ws.getLast? = some "&" then (.parallel, ws.dropLast) else (.regular, ws) := by
  induction ws with
  | nil => rfl
  | cons w ws ih =>
    rw [disclosePipeOrParallel, ih]
    by_cases hpipe : w = "|"
    · simp [hpipe]
    · cases ws with
      | nil => by_cases hpar : w = "&" <;> simp [hpipe, hpar, Ne.symm hpipe]
      | cons w' ws => 
        by_cases hmem : "|" ∈ w' :: ws <;>
          by_cases hlast : (w' :: ws).getLast? = some "&" <;>
          simp_all [Ne.symm hpipe]

namespace Arglist
variable {a : Arglist} {ws ws' : List (List Byte)}

/-- The pointers before, at and behind a word. -/
theorem Holds.split (h : a.Holds (ws ++ w :: ws')) : ∃ (ps : List ℕ) (p : ℕ) (ps' : List ℕ),
    a.arglist = ps.map some ++ some p :: (ps'.map some ++ [none]) ∧ ps.length = ws.length ∧
      Leads a.line ps ws ∧ stringAt a.line p = some w ∧ Leads a.line ps' ws' := by
  obtain ⟨ps, hps, hleads⟩ := h
  have hbefore := List.forall₂_take_append _ _ _ hleads
  have hrest := List.forall₂_drop_append _ _ _ hleads
  generalize hdrop : ps.drop ws.length = rest at hrest
  cases hrest with
  | @cons p _ ps' _ hw hafter =>
    refine ⟨ps.take ws.length, p, ps', ?_, hbefore.length_eq, hbefore, hw, hafter⟩
    have hmap : ps.map some = (ps.take ws.length).map some ++ some p :: ps'.map some := by
      rw [← List.map_cons, ← List.map_append, ← hdrop, List.take_append_drop]
    rw [hps, hmap, List.append_assoc, List.cons_append]

theorem strcmp_eq (h : a.Holds (ws ++ w :: ws')) (s : List Byte) :
    a.strcmp ws.length s = some (decide (w = s)) := by
  obtain ⟨ps, p, ps', hps, hlen, _, hw, _⟩ := h.split
  have hget : a.arglist[ws.length]? = some (some p) := by
    rw [hps, ← hlen, ← List.length_map some]
    exact List.getElem?_append_right (le_refl _) |>.trans (by simp)
  rw [strcmp, hget]
  change (stringAt a.line p).bind (fun w => some (decide (w = s))) = _
  rw [hw, Option.bind_some]

theorem strings_eq {ps : List ℕ} (h : Leads line ps ws) (rest : List (Option ℕ)) :
    strings line (ps.map some ++ none :: rest) = some ws := by
  induction h with
  | nil => rfl
  | cons hw _ ih =>
    rw [List.map_cons, List.cons_append, strings, ← stringAt, hw, ih]
    rfl

theorem argv_eq (h : a.Holds ws) : a.argv 0 = some (ws.map text) := by
  obtain ⟨ps, hps, hleads⟩ := h
  rw [argv, hps, List.drop_zero, strings_eq hleads]
  rfl

/-- A `NULL` in the place of a word ends the command before it. -/
theorem argv_setNull (h : a.Holds (ws ++ w :: ws')) :
    (a.setNull ws.length).argv 0 = some (ws.map text) ∧
      (a.setNull ws.length).argv (ws.length + 1) = some (ws'.map text) := by
  obtain ⟨ps, p, ps', hps, hlen, hbefore, _, hafter⟩ := h.split
  have hset : (a.setNull ws.length).arglist =
      ps.map some ++ none :: (ps'.map some ++ [none]) := by
    rw [setNull, hps, ← hlen, ← List.length_map some, List.set_append_right _ _ le_rfl, Nat.sub_self]
    rfl
  have hdrop : (a.setNull ws.length).arglist.drop (ws.length + 1) = ps'.map some ++ [none] := by
    rw [hset, ← hlen, ← List.length_map some, List.drop_length_add_append]
    rfl
  rw [argv, argv, hdrop, hset, List.drop_zero]
  constructor
  · exact congrArg _ (strings_eq hbefore _)
  · exact congrArg _ (strings_eq hafter [])

variable (ws) in
/-- The rounds that are left look at the words `ws'`. -/
theorem disclose_eq (h : a.Holds (ws ++ ws')) :
    a.disclosePipeOrParallel (ws ++ ws').length ws'.length =
      some (if [0x7C#8] ∈ ws' then (.pipe, a)
        else if ws'.getLast? = some [0x26#8] then (.parallel, a.setNull ((ws ++ ws').length - 1))
        else (.regular, a)) := by
  induction ws' generalizing ws with
  | nil => rfl
  | cons w ws' ih =>
    have hi : (ws ++ w :: ws').length - (ws'.length + 1) = ws.length := by simp
    have hlast : (ws.length = (ws ++ w :: ws').length - 1) ↔ ws' = [] := by
      rw [List.length_append, List.length_cons, ← List.length_eq_zero_iff]
      omega
    have hrest : (ws ++ [w]) ++ ws' = ws ++ w :: ws' := by simp
    have hih := ih (ws ++ [w]) (hrest ▸ h)
    rw [hrest] at hih
    rw [List.length_cons, disclosePipeOrParallel]
    dsimp only
    rw [hi, strcmp_eq h, strcmp_eq h, hih, if_congr hlast rfl rfl]
    by_cases hpipe : w = [0x7C#8]
    · simp [hpipe]
    · cases ws' with
      | nil =>
        by_cases hpar : w = [0x26#8]
        · simp [hpar]
        · simp [hpipe, hpar, Ne.symm hpipe]
      | cons w' ws' =>
        simp [hpipe, Ne.symm hpipe]

variable (ws) in
/-- The first `|` is behind the words `ws'`. -/
theorem splitPipe_eq {ws'' : List (List Byte)} (h : a.Holds (ws ++ (ws' ++ [0x7C#8] :: ws'')))
    (hfirst : [0x7C#8] ∉ ws') :
    a.splitPipe (ws ++ (ws' ++ [0x7C#8] :: ws'')).length (ws' ++ [0x7C#8] :: ws'').length =
      some (a.setNull (ws ++ ws').length, (ws ++ ws').length + 1) := by
  induction ws' generalizing ws with
  | nil =>
    rw [List.nil_append] at h ⊢
    have hi : (ws ++ [0x7C#8] :: ws'').length - (ws''.length + 1) = ws.length := by simp
    rw [List.length_cons, splitPipe, hi, strcmp_eq h, List.append_nil]
    rfl
  | cons w ws' ih =>
    rw [List.mem_cons, not_or] at hfirst
    rw [List.cons_append] at h ⊢
    have hrest : (ws ++ [w]) ++ (ws' ++ [0x7C#8] :: ws'') = ws ++ w :: (ws' ++ [0x7C#8] :: ws'') := by
      simp
    have hih := ih (ws ++ [w]) (hrest ▸ h) hfirst.2
    have hi : (ws ++ w :: (ws' ++ [0x7C#8] :: ws'')).length -
        ((ws' ++ [0x7C#8] :: ws'').length + 1) = ws.length := by simp
    rw [hrest, List.append_assoc, List.singleton_append] at hih
    rw [List.length_cons, splitPipe, hi, strcmp_eq h, hih, decide_eq_false (Ne.symm hfirst.1)]
    rfl

theorem pipe_eq : text [0x7C#8] = "|" := by decide

theorem ampersand_eq : text [0x26#8] = "&" := by decide

/-- `process_arglist` sees the words of the line and nothing else. -/
theorem processArglist_eq (h : a.Holds ws) :
    a.processArglist ws.length = some (Shell.processArglist (ws.map text)) := by
  have hmem : "|" ∈ ws.map text ↔ [0x7C#8] ∈ ws := by
    rw [← pipe_eq, List.mem_map_of_injective text_injective]
  have hlast : (ws.map text).getLast? = some "&" ↔ ws.getLast? = some [0x26#8] := by
    rw [List.getLast?_map, ← ampersand_eq, ← Option.map_some,
      (Option.map_injective text_injective).eq_iff]
  have hdisclose := disclose_eq [] h
  rw [List.nil_append] at hdisclose
  rw [processArglist, hdisclose, Shell.processArglist,
    Shell.disclosePipeOrParallel_eq, if_congr hmem rfl (if_congr hlast rfl rfl)]
  by_cases hpipe : [0x7C#8] ∈ ws
  · obtain ⟨ws₁, ws₂, rfl, hfirst⟩ := List.eq_append_cons_of_mem hpipe
    obtain ⟨hcommand1, hcommand2⟩ := argv_setNull h
    have hsplit := splitPipe_eq [] h hfirst
    rw [List.nil_append, List.nil_append] at hsplit
    have htext : ∀ w ∈ ws₁.map text, decide (w ≠ "|") = true := by
      intro w hw
      rw [decide_eq_true_eq]
      rintro rfl
      rw [← pipe_eq, List.mem_map_of_injective text_injective] at hw
      exact hfirst hw
    rw [if_pos hpipe, if_pos hpipe]
    dsimp only [Option.bind_eq_bind, Option.bind_some]
    rw [hsplit]
    dsimp only [Option.bind_eq_bind, Option.bind_some]
    rw [hcommand1, hcommand2, command1, command2, List.map_append, List.map_cons, pipe_eq,
      List.takeWhile_append_of_pos htext, List.dropWhile_append_of_pos htext]
    simp
  · rw [if_neg hpipe, if_neg hpipe]
    by_cases hpar : ws.getLast? = some [0x26#8]
    · obtain ⟨ws₁, rfl⟩ := List.getLast?_eq_some_iff.mp hpar
      rw [if_pos hpar, if_pos hpar]
      dsimp only [Option.bind_eq_bind, Option.bind_some]
      have hindex : (ws₁ ++ [[0x26#8]]).length - 1 = ws₁.length := by simp
      rw [hindex, (argv_setNull h).1, List.map_append, List.map_singleton, List.dropLast_concat]
      rfl
    · rw [if_neg hpar, if_neg hpar]
      dsimp only [Option.bind_eq_bind, Option.bind_some]
      rw [argv_eq h]
      rfl

end Arglist

end OsCourse.Shell
