import OsCourse.Foundations.HeapList
import OsCourse.MessageSlot.Kernel

/-! # The store of the module

The table leads to slots, a slot to its list of channels, a channel to its message, and
an open file to its private data; nothing is shared. Every operation is described once
on such a store.
-/

namespace OsCourse.MessageSlot
open Foundations

/-- `NULL`, or an address that has not been handed out yet. -/
def Kernel.Unused (k : Kernel) (p : Ptr) : Prop := p = 0 ∨ k.fresh ≤ p

/-- The list of channels that starts at `root`. -/
abbrev Kernel.ListAt (k : Kernel) (root : Ptr) (l : List Ptr) : Prop :=
  Chain k.channels MessageChannel.next_node 0 root l

/-- The channel `c` is stored in the node `p`. -/
abbrev Kernel.At (k : Kernel) (p : Ptr) (c : MessageChannel) : Prop := k.channels p = some c

/-- What a node stores besides its link. -/
def Kernel.data (k : Kernel) (p : Ptr) : Option (ℤ × Ptr × BitVec 32) :=
  (k.channels p).map fun c => (c.size, c.message, c.channel_id)

/-- Nothing but links differs between the channels of `k` and `k'`. -/
def SameData (k k' : Kernel) : Prop := ∀ p, k'.data p = k.data p

theorem Kernel.At.data {k : Kernel} {p : Ptr} {c : MessageChannel} (h : k.At p c) :
    k.data p = some (c.size, c.message, c.channel_id) := by
  rw [Kernel.data, h, Option.map_some]

theorem SameData.at {k k' : Kernel} (h : SameData k k') {p : Ptr} {c' : MessageChannel}
    (hc : k'.At p c') : ∃ c, k.At p c ∧ c'.size = c.size ∧ c'.message = c.message ∧
      c'.channel_id = c.channel_id := by
  have hd := (h p).symm.trans hc.data
  obtain ⟨c, hc', he⟩ := Option.map_eq_some_iff.mp hd
  simp only [Prod.mk.injEq] at he
  exact ⟨c, hc', he.1.symm, he.2.1.symm, he.2.2.symm⟩

/-- `nodes` are the channels of each slot, in the order of its list. -/
structure Store (k : Kernel) (d : MessageSlotsDevices) (nodes : Minor → List Ptr) : Prop where
  table : k.devices = some d
  fresh_pos : 0 < k.fresh
  privates_none : ∀ p, k.Unused p → k.privates p = none
  slots_none : ∀ p, k.Unused p → k.slots p = none
  channels_none : ∀ p, k.Unused p → k.channels p = none
  messages_none : ∀ p, k.Unused p → k.messages p = none
  slot_inj : ∀ m m', d.minors m = d.minors m' → d.minors m ≠ 0 → m = m'
  slot : ∀ m, d.minors m ≠ 0 → ∃ root, k.slots (d.minors m) = some root ∧ k.ListAt root (nodes m)
  no_slot : ∀ m, d.minors m = 0 → nodes m = []
  disjoint : ∀ m m' p, p ∈ nodes m → p ∈ nodes m' → m = m'
  node : ∀ m, ∀ p ∈ nodes m, ∀ c, k.At p c →
    0 ≤ c.size ∧ c.size ≤ BUFFER_LENGTH ∧ ∃ b, k.messages c.message = some b
  ids : ∀ m, ∀ p ∈ nodes m, ∀ q ∈ nodes m, ∀ c c', k.At p c → k.At q c' →
    c.channel_id = c'.channel_id → p = q
  file : ∀ i f, k.files i = some f →
    d.minors f.f_inode ≠ 0 ∧ ∃ b, k.privates f.private_data = some b ∧ b.minor_num = f.f_inode
  file_inj : ∀ i j f g, k.files i = some f → k.files j = some g →
    f.private_data = g.private_data → i = j

theorem deref_eq_ok {α : Type} {b : Option α} {a : α} : deref b = .ok a ↔ b = some a := by
  cases b with
  | none => simp [deref]
  | some b => simp [deref]

@[simp] theorem deref_some {α : Type} (a : α) : deref (some a) = .ok a := rfl

@[simp] theorem ok_bind {α β : Type} (a : α) (f : α → Except Fault β) :
    (Except.ok a >>= f) = f a := rfl

/-! ## Walking a list -/

section
variable {k : Kernel} {root : Ptr} {l : List Ptr} {id : BitVec 32} {fuel : ℕ}

theorem findChannel_none (h : k.ListAt root l) (hl : l.length < fuel)
    (hid : ∀ p ∈ l, ∀ c, k.At p c → c.channel_id ≠ id) : findChannel k id fuel root = .ok 0 := by
  induction l generalizing root fuel with
  | nil =>
    cases h
    cases fuel with
    | zero => cases hl
    | succ fuel => rfl
  | cons p l ih =>
    obtain ⟨rfl, hp, c, hc, h⟩ := h
    cases fuel with
    | zero => cases hl
    | succ fuel =>
      have hne := hid root List.mem_cons_self c hc
      rw [findChannel, if_neg hp, hc, deref_some, ok_bind, if_neg hne]
      exact ih h (Nat.lt_of_succ_lt_succ hl) fun q hq => hid q (List.mem_cons_of_mem _ hq)

theorem findChannel_some (h : k.ListAt root l) (hl : l.length < fuel) {p : Ptr} (hp : p ∈ l)
    {c : MessageChannel} (hc : k.At p c) (hcid : c.channel_id = id)
    (hid : ∀ q ∈ l, ∀ c, k.At q c → c.channel_id = id → q = p) :
    findChannel k id fuel root = .ok p := by
  induction l generalizing root fuel with
  | nil => cases hp
  | cons q l ih =>
    obtain ⟨rfl, hq, c', hc', h⟩ := h
    cases fuel with
    | zero => cases hl
    | succ fuel =>
      rw [findChannel, if_neg hq, hc', deref_some, ok_bind]
      by_cases heq : c'.channel_id = id
      · rw [if_pos heq, hid root List.mem_cons_self c' hc' heq]
      · have hne : p ≠ root := by
          rintro rfl
          rw [show k.channels p = some c from hc, Option.some.injEq] at hc'
          exact heq (hc' ▸ hcid)
        rw [if_neg heq]
        exact ih h (Nat.lt_of_succ_lt_succ hl) ((List.mem_cons.mp hp).resolve_left hne)
          fun q hq => hid q (List.mem_cons_of_mem _ hq)

theorem addNode_last {last new_node : Ptr} {c : MessageChannel}
    (h : k.ListAt root (l ++ [last])) (hl : l.length < fuel) (hc : k.At last c) :
    addNode k new_node fuel root = .ok { k with
      channels := Function.update k.channels last (some { c with next_node := new_node }) } := by
  induction l generalizing root fuel with
  | nil =>
    have hlast := h.next_last (l := []) hc
    obtain ⟨rfl, _, _⟩ := h
    cases fuel with
    | zero => cases hl
    | succ fuel =>
      rw [addNode, show k.channels root = some c from hc, deref_some, ok_bind, if_neg (by simp [hlast])]
  | cons q l ih =>
    obtain ⟨rfl, _, c', hc', h⟩ := h
    have hnext : c'.next_node ≠ 0 := by
      cases l with
      | nil => exact h.2.1
      | cons r l => exact h.2.1
    cases fuel with
    | zero => cases hl
    | succ fuel =>
      rw [addNode, hc', deref_some, ok_bind, if_pos hnext]
      exact ih h (Nat.lt_of_succ_lt_succ hl)

end

namespace Store
variable {k : Kernel} {d : MessageSlotsDevices} {nodes : Minor → List Ptr}

theorem lt_fresh (h : Store k d nodes) {p : Ptr} {c : MessageChannel} (hc : k.At p c) :
    p ≠ 0 ∧ p < k.fresh := by
  have hu : ¬ k.Unused p := by
    intro hu
    rw [Kernel.At, h.channels_none p hu] at hc
    cases hc
  exact ⟨fun h0 => hu (Or.inl h0), Nat.lt_of_not_le fun hle => hu (Or.inr hle)⟩

theorem at_of_mem (h : Store k d nodes) {m : Minor} {p : Ptr} (hp : p ∈ nodes m) :
    ∃ c, k.At p c := by
  have hm : d.minors m ≠ 0 := by
    intro h0
    rw [h.no_slot m h0] at hp
    cases hp
  obtain ⟨root, _, hl⟩ := h.slot m hm
  exact (hl.cell_of_mem hp).2

/-- A loop over the list of a slot ends before the fuel does. -/
theorem length_lt (h : Store k d nodes) {m : Minor} {root : Ptr} (hl : k.ListAt root (nodes m)) :
    (nodes m).length < k.fresh := by
  have hsub : (nodes m).toFinset ⊆ Finset.Ico 1 k.fresh := by
    intro p hp
    rw [List.mem_toFinset] at hp
    obtain ⟨c, hc⟩ := h.at_of_mem hp
    obtain ⟨h0, hlt⟩ := h.lt_fresh hc
    exact Finset.mem_Ico.mpr ⟨Nat.pos_of_ne_zero h0, hlt⟩
  have hcard := Finset.card_le_card hsub
  rw [List.toFinset_card_of_nodup hl.nodup, Nat.card_Ico] at hcard
  have := h.fresh_pos
  omega

/-! ## Small changes of the memory -/

/-- An address that has been handed out. -/
theorem unused_bump {n : ℕ} {p : Ptr} (hp : ({ k with fresh := k.fresh + n } : Kernel).Unused p) :
    k.Unused p :=
  hp.imp id (Nat.le_of_add_right_le ·)

theorem bump (h : Store k d nodes) (n : ℕ) : Store { k with fresh := k.fresh + n } d nodes :=
  { h with
    fresh_pos := Nat.lt_of_lt_of_le h.fresh_pos (Nat.le_add_right ..)
    privates_none := fun p hp => h.privates_none p (unused_bump hp)
    slots_none := fun p hp => h.slots_none p (unused_bump hp)
    channels_none := fun p hp => h.channels_none p (unused_bump hp)
    messages_none := fun p hp => h.messages_none p (unused_bump hp) }

theorem update_none {α : Type} {f : Ptr → Option α} {a : Ptr} {v : Option α} (ha : ¬ k.Unused a)
    (hf : ∀ p, k.Unused p → f p = none) (p : Ptr) (hp : k.Unused p) :
    Function.update f a v p = none := by
  have hne : p ≠ a := by
    rintro rfl
    exact ha hp
  rw [Function.update_of_ne hne, hf p hp]

theorem ne_of_none {α : Type} {f : Ptr → Option α} {a p : Ptr} {v : α} (ha : f a = none)
    (hp : f p = some v) : p ≠ a := by
  rintro rfl
  rw [ha] at hp
  cases hp

/-- The private data of a file is new, or is changed for its own file. -/
theorem setPrivate (h : Store k d nodes) {a : Ptr} (ha : ¬ k.Unused a) (b : PrivateData)
    (hb : ∀ i f, k.files i = some f → f.private_data = a → b.minor_num = f.f_inode) :
    Store { k with privates := Function.update k.privates a (some b) } d nodes :=
  { h with
    privates_none := update_none ha h.privates_none
    file := fun i f hf => by
      refine ⟨(h.file i f hf).1, ?_⟩
      by_cases hfa : f.private_data = a
      · exact ⟨b, by dsimp only; rw [hfa, Function.update_self], hb i f hf hfa⟩
      · simp only [Function.update_of_ne hfa]
        exact (h.file i f hf).2 }

theorem putMessage (h : Store k d nodes) {a : Ptr} (ha : ¬ k.Unused a) (hn : k.messages a = none)
    (b : DataMessage) :
    Store { k with messages := Function.update k.messages a (some b) } d nodes :=
  { h with
    messages_none := update_none ha h.messages_none
    node := fun m p hp c hc => by
      obtain ⟨h₁, h₂, b', hb'⟩ := h.node m p hp c hc
      exact ⟨h₁, h₂, b', by dsimp only; rw [Function.update_of_ne (ne_of_none hn hb'), hb']⟩ }

theorem not_mem_of_none (h : Store k d nodes) {a : Ptr} (hn : k.channels a = none) (m : Minor) :
    a ∉ nodes m := by
  intro ha
  obtain ⟨c, hc⟩ := h.at_of_mem ha
  exact ne_of_none hn hc rfl

theorem at_putChannel {a p : Ptr} {c c' : MessageChannel} (hne : p ≠ a)
    (hc : Function.update k.channels a (some c') p = some c) : k.At p c := by
  rwa [Function.update_of_ne hne] at hc

theorem at_putChannel_self {a : Ptr} {c c' : MessageChannel}
    (hc : Function.update k.channels a (some c') a = some c) : c' = c := by
  rwa [Function.update_self, Option.some.injEq] at hc

/-- A node that is in no list yet. -/
theorem putChannel (h : Store k d nodes) {a : Ptr} (ha : ¬ k.Unused a) (hn : k.channels a = none)
    (c : MessageChannel) :
    Store { k with channels := Function.update k.channels a (some c) } d nodes := by
  have hne : ∀ m, ∀ p ∈ nodes m, p ≠ a := by
    rintro m p hp rfl
    exact h.not_mem_of_none hn m hp
  exact { h with
    channels_none := update_none ha h.channels_none
    slot := fun m hm => by
      obtain ⟨root, hr, hl⟩ := h.slot m hm
      exact ⟨root, hr, hl.update_of_not_mem (h.not_mem_of_none hn m) _⟩
    node := fun m p hp c' hc' => h.node m p hp c' (at_putChannel (hne m p hp) hc')
    ids := fun m p hp q hq c₁ c₂ h₁ h₂ => h.ids m p hp q hq c₁ c₂
      (at_putChannel (hne m p hp) h₁) (at_putChannel (hne m q hq) h₂) }

theorem setTable (h : Store k d nodes) {d' : MessageSlotsDevices} (hd : d'.minors = d.minors) :
    Store { k with devices := some d' } d' nodes :=
  { h with
    table := rfl
    slot_inj := by rw [hd]; exact h.slot_inj
    slot := by rw [hd]; exact h.slot
    no_slot := by rw [hd]; exact h.no_slot
    file := by rw [hd]; exact h.file }

theorem putSlot (h : Store k d nodes) {a : Ptr} (ha : ¬ k.Unused a) (hn : k.slots a = none)
    {m : Minor} (hm : d.minors m = 0) (n : ℤ) :
    Store { k with
      slots := Function.update k.slots a (some 0)
      devices := some { d with minors := Function.update d.minors m a }
      numOfDrivers := n } { d with minors := Function.update d.minors m a } nodes := by
  have hother : ∀ m', d.minors m' ≠ 0 → d.minors m' ≠ a := by
    intro m' hm' he
    obtain ⟨root, hr, _⟩ := h.slot m' hm'
    rw [he, hn] at hr
    cases hr
  have ha0 : a ≠ 0 := fun h0 => ha (Or.inl h0)
  have hne : ∀ {m'}, m' ≠ m → Function.update d.minors m a m' = d.minors m' :=
    fun hm' => Function.update_of_ne hm' _ _
  exact { h with
    table := rfl
    slots_none := update_none ha h.slots_none
    slot_inj := fun m₁ m₂ he h0 => by
      by_cases h₁ : m₁ = m <;> by_cases h₂ : m₂ = m
      · rw [h₁, h₂]
      · subst h₁
        simp only [Function.update_self, hne h₂] at he
        exact absurd he.symm (hother m₂ (by rw [← he]; exact ha0))
      · subst h₂
        simp only [Function.update_self, hne h₁] at he h0
        exact absurd he (hother m₁ h0)
      · simp only [hne h₁, hne h₂] at he h0
        exact h.slot_inj m₁ m₂ he h0
    slot := fun m' h0 => by
      by_cases hm' : m' = m
      · subst hm'
        refine ⟨0, by simp, ?_⟩
        rw [h.no_slot m' hm]
        rfl
      · simp only [hne hm'] at h0 ⊢
        obtain ⟨root, hr, hl⟩ := h.slot m' h0
        exact ⟨root, by rw [Function.update_of_ne (hother m' h0), hr], hl⟩
    no_slot := fun m' h0 => by
      by_cases hm' : m' = m
      · subst hm'
        exact h.no_slot m' hm
      · exact h.no_slot m' (by rwa [← hne hm'])
    file := fun i f hf => by
      obtain ⟨h0, hb⟩ := h.file i f hf
      refine ⟨?_, hb⟩
      by_cases hfm : f.f_inode = m
      · simp [hfm, ha0]
      · simpa only [hne hfm] using h0 }

theorem putFile (h : Store k d nodes) {i : ℕ} {f : File} {b : PrivateData} (hm : d.minors f.f_inode ≠ 0)
    (hb : k.privates f.private_data = some b) (hbm : b.minor_num = f.f_inode)
    (hown : ∀ j g, k.files j = some g → g.private_data ≠ f.private_data) :
    Store { k with files := Function.update k.files i (some f) } d nodes :=
  { h with
    file := fun j g hg => by
      by_cases hj : j = i
      · subst hj
        simp only [Function.update_self, Option.some.injEq] at hg
        subst hg
        exact ⟨hm, b, hb, hbm⟩
      · exact h.file j g (by simpa only [Function.update_of_ne hj] using hg)
    file_inj := fun j j' g g' hg hg' he => by
      by_cases hj : j = i <;> by_cases hj' : j' = i
      · rw [hj, hj']
      · subst hj
        simp only [Function.update_self, Option.some.injEq, Function.update_of_ne hj'] at hg hg'
        subst hg
        exact absurd he.symm (hown j' g' hg')
      · subst hj'
        simp only [Function.update_self, Option.some.injEq, Function.update_of_ne hj] at hg hg'
        subst hg'
        exact absurd he (hown j g hg)
      · simp only [Function.update_of_ne hj, Function.update_of_ne hj'] at hg hg'
        exact h.file_inj j j' g g' hg hg' he }

theorem dropFile (h : Store k d nodes) {i : ℕ} {f : File} (hf : k.files i = some f) :
    Store { k with
      privates := Function.update k.privates f.private_data none
      files := Function.update k.files i none } d nodes := by
  have hrest : ∀ {j g}, Function.update k.files i none j = some g → j ≠ i ∧ k.files j = some g := by
    intro j g hg
    by_cases hj : j = i
    · subst hj
      simp at hg
    · exact ⟨hj, by simpa only [Function.update_of_ne hj] using hg⟩
  exact { h with
    privates_none := fun p hp => by
      by_cases hpf : p = f.private_data
      · simp [hpf]
      · simp only [Function.update_of_ne hpf]
        exact h.privates_none p hp
    file := fun j g hg => by
      obtain ⟨hj, hg⟩ := hrest hg
      have hne : g.private_data ≠ f.private_data := fun he => hj (h.file_inj j i g f hg hf he)
      simp only [Function.update_of_ne hne]
      exact h.file j g hg
    file_inj := fun j j' g g' hg hg' =>
      h.file_inj j j' g g' (hrest hg).2 (hrest hg').2 }

/-! ## Changes of the lists -/

/-- The nodes after `a` has been appended to the list of `m`. -/
def appended (nodes : Minor → List Ptr) (m : Minor) (a : Ptr) : Minor → List Ptr :=
  Function.update nodes m (nodes m ++ [a])

theorem mem_appended {m m' : Minor} {a p : Ptr} :
    p ∈ appended nodes m a m' ↔ p ∈ nodes m' ∨ m' = m ∧ p = a := by
  by_cases hm : m' = m
  · subst hm
    simp [appended]
  · simp [appended, hm]

/-- A new channel, stored in the unlinked node `a`, may join the list of `m`. -/
structure Joins (k : Kernel) (nodes : Minor → List Ptr) (m : Minor) (a : Ptr) (c : MessageChannel) :
    Prop where
  here : k.At a c
  next : c.next_node = 0
  unlinked : ∀ m', a ∉ nodes m'
  size : 0 ≤ c.size ∧ c.size ≤ BUFFER_LENGTH
  message : ∃ b, k.messages c.message = some b
  id : ∀ p ∈ nodes m, ∀ c', k.At p c' → c'.channel_id ≠ c.channel_id

section
variable {k' : Kernel} {m : Minor} {a : Ptr} {c : MessageChannel}

theorem appended_disjoint (h : Store k d nodes) (hj : Joins k nodes m a c) :
    ∀ m₁ m₂ p, p ∈ appended nodes m a m₁ → p ∈ appended nodes m a m₂ → m₁ = m₂ := by
  intro m₁ m₂ p h₁ h₂
  rw [mem_appended] at h₁ h₂
  rcases h₁ with h₁ | ⟨rfl, rfl⟩ <;> rcases h₂ with h₂ | ⟨rfl, hp⟩
  · exact h.disjoint m₁ m₂ p h₁ h₂
  · exact absurd (hp ▸ h₁) (hj.unlinked m₁)
  · exact absurd h₂ (hj.unlinked m₂)
  · rfl

theorem appended_node (h : Store k d nodes) (hj : Joins k nodes m a c) (hs : SameData k k')
    (hm : k'.messages = k.messages) :
    ∀ m', ∀ p ∈ appended nodes m a m', ∀ c', k'.At p c' →
      0 ≤ c'.size ∧ c'.size ≤ BUFFER_LENGTH ∧ ∃ b, k'.messages c'.message = some b := by
  intro m' p hp c' hc'
  obtain ⟨c₀, hc₀, hsize, hmessage, _⟩ := hs.at hc'
  rw [hsize, hmessage, hm]
  rcases mem_appended.mp hp with hp | ⟨rfl, rfl⟩
  · exact h.node m' p hp c₀ hc₀
  · obtain rfl : c = c₀ := Option.some.inj (hj.here.symm.trans hc₀)
    exact ⟨hj.size.1, hj.size.2, hj.message⟩

theorem appended_ids (h : Store k d nodes) (hj : Joins k nodes m a c) (hs : SameData k k') :
    ∀ m', ∀ p ∈ appended nodes m a m', ∀ q ∈ appended nodes m a m', ∀ c₁ c₂,
      k'.At p c₁ → k'.At q c₂ → c₁.channel_id = c₂.channel_id → p = q := by
  intro m' p hp q hq c₁ c₂ h₁ h₂ he
  obtain ⟨d₁, hd₁, _, _, hid₁⟩ := hs.at h₁
  obtain ⟨d₂, hd₂, _, _, hid₂⟩ := hs.at h₂
  rw [hid₁, hid₂] at he
  rcases mem_appended.mp hp with hpm | ⟨hmp, rfl⟩ <;> rcases mem_appended.mp hq with hqm | ⟨hmq, rfl⟩
  · exact h.ids m' p hpm q hqm d₁ d₂ hd₁ hd₂ he
  · subst hmq
    obtain rfl : c = d₂ := Option.some.inj (hj.here.symm.trans hd₂)
    exact absurd he (hj.id p hpm d₁ hd₁)
  · subst hmp
    obtain rfl : c = d₁ := Option.some.inj (hj.here.symm.trans hd₁)
    exact absurd he.symm (hj.id q hqm d₂ hd₂)
  · rfl

theorem appended_no_slot (h : Store k d nodes) (hm : d.minors m ≠ 0) :
    ∀ m', d.minors m' = 0 → appended nodes m a m' = [] := by
  intro m' h0
  have hmm : m' ≠ m := by
    rintro rfl
    exact hm h0
  simpa only [appended, Function.update_of_ne hmm] using h.no_slot m' h0

theorem linkRoot (h : Store k d nodes) (hm : d.minors m ≠ 0) (hnil : nodes m = [])
    (hj : Joins k nodes m a c) :
    Store { k with slots := Function.update k.slots (d.minors m) (some a) } d
      (appended nodes m a) :=
  { h with
    slots_none := fun p hp => by
      have hne : p ≠ d.minors m := by
        rintro rfl
        obtain ⟨root, hr, _⟩ := h.slot m hm
        rw [h.slots_none _ hp] at hr
        cases hr
      simp only [Function.update_of_ne hne]
      exact h.slots_none p hp
    slot := fun m' h0 => by
      by_cases hmm : m' = m
      · subst hmm
        refine ⟨a, Function.update_self .., ?_⟩
        simp only [appended, Function.update_self, hnil, List.nil_append]
        exact ⟨rfl, (h.lt_fresh hj.here).1, c, hj.here, hj.next⟩
      · have hne : d.minors m' ≠ d.minors m := fun he => hmm (h.slot_inj _ _ he h0)
        obtain ⟨root, hr, hl⟩ := h.slot m' h0
        refine ⟨root, ?_, ?_⟩
        · simpa only [Function.update_of_ne hne] using hr
        · simpa only [appended, Function.update_of_ne hmm] using hl
    no_slot := h.appended_no_slot hm
    disjoint := h.appended_disjoint hj
    node := h.appended_node hj (fun _ => rfl) rfl
    ids := h.appended_ids hj (fun _ => rfl) }

theorem sameData_link {last : Ptr} {cl : MessageChannel} (hl : k.At last cl) (q : Ptr) :
    SameData k { k with
      channels := Function.update k.channels last (some { cl with next_node := q }) } := by
  intro p
  by_cases hp : p = last
  · subst hp
    rw [hl.data]
    simp [Kernel.data]
  · simp [Kernel.data, hp]

theorem linkLast (h : Store k d nodes) (hm : d.minors m ≠ 0) {l : List Ptr} {last : Ptr}
    {cl : MessageChannel} (hnodes : nodes m = l ++ [last]) (hl : k.At last cl)
    (hj : Joins k nodes m a c) :
    Store { k with
      channels := Function.update k.channels last (some { cl with next_node := a }) } d
      (appended nodes m a) := by
  have hlast : last ∈ nodes m := by rw [hnodes]; simp
  exact { h with
    channels_none := fun p hp => by
      have hne : p ≠ last := ne_of_none (h.channels_none p hp) hl |>.symm
      simp only [Function.update_of_ne hne]
      exact h.channels_none p hp
    slot := fun m' h0 => by
      obtain ⟨root, hr, hlist⟩ := h.slot m' h0
      refine ⟨root, hr, ?_⟩
      by_cases hmm : m' = m
      · subst hmm
        rw [hnodes] at hlist
        have ha : a ∉ l ++ [last] := by
          rw [← hnodes]
          exact hj.unlinked m'
        simp only [appended, Function.update_self, hnodes]
        exact hlist.snoc ha (h.lt_fresh hj.here).1 hj.here hj.next rfl
      · have hnot : last ∉ nodes m' := fun hin => hmm (h.disjoint m' m last hin hlast)
        simp only [appended, Function.update_of_ne hmm]
        exact hlist.update_of_not_mem hnot _
    no_slot := h.appended_no_slot hm
    disjoint := h.appended_disjoint hj
    node := h.appended_node hj (sameData_link hl a) rfl
    ids := h.appended_ids hj (sameData_link hl a) }

/-- A channel gets a new message. -/
theorem setContent (h : Store k d nodes) (hp : a ∈ nodes m) (hc : k.At a c) {n : ℕ} {q : Ptr}
    (hn : n ≤ BUFFER_LENGTH) {b : DataMessage} (hb : k.messages q = some b) :
    Store { k with
      channels := Function.update k.channels a (some { c with size := n, message := q }) } d nodes :=
  { h with
    channels_none := fun p hp => by
      have hne : p ≠ a := ne_of_none (h.channels_none p hp) hc |>.symm
      simp only [Function.update_of_ne hne]
      exact h.channels_none p hp
    slot := fun m' h0 => by
      obtain ⟨root, hr, hl⟩ := h.slot m' h0
      exact ⟨root, hr, hl.update_same_next hc rfl⟩
    node := fun m' p hp c' hc' => by
      by_cases hpa : p = a
      · subst hpa
        obtain rfl := at_putChannel_self hc'
        exact ⟨Int.natCast_nonneg n, Int.ofNat_le.mpr hn, b, hb⟩
      · exact h.node m' p hp c' (at_putChannel hpa hc')
    ids := fun m' p hp q' hq c₁ c₂ h₁ h₂ he => by
      have hid : ∀ r c', Function.update k.channels a (some { c with size := n, message := q }) r =
          some c' → ∃ c₀, k.At r c₀ ∧ c'.channel_id = c₀.channel_id := by
        intro r c' hr
        by_cases hra : r = a
        · subst hra
          obtain rfl := at_putChannel_self hr
          exact ⟨c, hc, rfl⟩
        · exact ⟨c', at_putChannel hra hr, rfl⟩
      obtain ⟨d₁, hd₁, hid₁⟩ := hid p c₁ h₁
      obtain ⟨d₂, hd₂, hid₂⟩ := hid q' c₂ h₂
      exact h.ids m' p hp q' hq d₁ d₂ hd₁ hd₂ (by rw [← hid₁, ← hid₂, he]) }

end
end Store
end OsCourse.MessageSlot
