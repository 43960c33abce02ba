import OsCourse.MessageSlot.Store

/-! # The channels that a store shows

What matters of a store to its users: which channels a slot has, and the bytes of each.
-/

namespace OsCourse.MessageSlot

/-- Slot `m` has a channel `id`, and its message is `bytes` (empty if there is none). -/
def Shows (k : Kernel) (nodes : Minor → List Ptr) (m : Minor) (id : BitVec 32)
    (bytes : List Byte) : Prop :=
  ∃ p ∈ nodes m, ∃ n q b, k.data p = some (n, q, id) ∧ k.messages q = some b ∧
    bytes = (List.ofFn b).take n.toNat

/-- Slot `m` has a channel `id`. -/
def Has (k : Kernel) (nodes : Minor → List Ptr) (m : Minor) (id : BitVec 32) : Prop :=
  ∃ bytes, Shows k nodes m id bytes

namespace Store
variable {k k' : Kernel} {d : MessageSlotsDevices} {nodes : Minor → List Ptr} {m m' : Minor}
  {id id' : BitVec 32} {bytes bytes' : List Byte} {a : Ptr} {c : MessageChannel}

theorem at_of_data {p : Ptr} {n : ℤ} {q : Ptr} (h : k.data p = some (n, q, id)) :
    ∃ c, k.At p c ∧ c.size = n ∧ c.message = q ∧ c.channel_id = id := by
  obtain ⟨c, hc, he⟩ := Option.map_eq_some_iff.mp h
  simp only [Prod.mk.injEq] at he
  exact ⟨c, hc, he.1, he.2.1, he.2.2⟩

theorem exists_at_of_has (h : Has k nodes m id) :
    ∃ p ∈ nodes m, ∃ c, k.At p c ∧ c.channel_id = id := by
  obtain ⟨_, p, hp, _, _, _, hdata, _⟩ := h
  obtain ⟨c, hc, _, _, hid⟩ := at_of_data hdata
  exact ⟨p, hp, c, hc, hid⟩

/-- A channel shows its message. -/
theorem shows_of_at (h : Store k d nodes) {p : Ptr} (hp : p ∈ nodes m) (hc : k.At p c) :
    ∃ b, k.messages c.message = some b ∧
      Shows k nodes m c.channel_id ((List.ofFn b).take c.size.toNat) := by
  obtain ⟨_, _, b, hb⟩ := h.node m p hp c hc
  exact ⟨b, hb, p, hp, c.size, c.message, b, hc.data, hb, rfl⟩

theorem shows_unique (h : Store k d nodes) (hs : Shows k nodes m id bytes)
    (hs' : Shows k nodes m id bytes') : bytes = bytes' := by
  obtain ⟨p, hp, n, q, b, hd, hb, rfl⟩ := hs
  obtain ⟨p', hp', n', q', b', hd', hb', rfl⟩ := hs'
  obtain ⟨c, hc, rfl, rfl, rfl⟩ := at_of_data hd
  obtain ⟨c', hc', rfl, rfl, hid⟩ := at_of_data hd'
  obtain rfl := h.ids m p hp p' hp' c c' hc hc' hid.symm
  obtain rfl := Option.some.inj (hc.symm.trans hc')
  rw [hb, Option.some.injEq] at hb'
  rw [hb']

/-- Memory that the lists do not lead to is not shown. -/
theorem shows_congr (h : Store k d nodes) (hd : ∀ m, ∀ p ∈ nodes m, k'.data p = k.data p)
    (hm : ∀ q b, k.messages q = some b → k'.messages q = some b) :
    Shows k' nodes m id bytes ↔ Shows k nodes m id bytes := by
  constructor
  · rintro ⟨p, hp, n, q, b, hdata, hb, rfl⟩
    rw [hd m p hp] at hdata
    obtain ⟨c, hc, rfl, rfl, rfl⟩ := at_of_data hdata
    obtain ⟨_, _, b', hb'⟩ := h.node m p hp c hc
    rw [hm _ b' hb', Option.some.injEq] at hb
    exact ⟨p, hp, _, _, b, hdata, hb ▸ hb', rfl⟩
  · rintro ⟨p, hp, n, q, b, hdata, hb, rfl⟩
    exact ⟨p, hp, n, q, b, (hd m p hp).trans hdata, hm q b hb, rfl⟩

/-- Linking a channel without a message. -/
theorem shows_appended (hj : Joins k nodes m a c) (hs : SameData k k')
    (hm : k'.messages = k.messages) (hsize : c.size = 0) :
    Shows k' (appended nodes m a) m' id bytes ↔
      Shows k nodes m' id bytes ∨ m' = m ∧ id = c.channel_id ∧ bytes = [] := by
  have hshow : ∀ p, (∃ n q b, k'.data p = some (n, q, id) ∧ k'.messages q = some b ∧
      bytes = (List.ofFn b).take n.toNat) ↔ ∃ n q b, k.data p = some (n, q, id) ∧
        k.messages q = some b ∧ bytes = (List.ofFn b).take n.toNat := by
    intro p
    rw [hs p, hm]
  simp only [Shows, hshow, mem_appended, or_and_right, exists_or]
  refine or_congr Iff.rfl ?_
  constructor
  · rintro ⟨p, ⟨rfl, rfl⟩, n, q, b, hd, hb, rfl⟩
    rw [hj.here.data, Option.some.injEq, Prod.mk.injEq, Prod.mk.injEq] at hd
    exact ⟨rfl, hd.2.2.symm, by rw [← hd.1, hsize]; rfl⟩
  · rintro ⟨rfl, rfl, rfl⟩
    obtain ⟨b, hb⟩ := hj.message
    exact ⟨a, ⟨rfl, rfl⟩, _, _, b, hj.here.data, hb, by rw [hsize]; rfl⟩

/-- Storing a message changes the one channel. -/
theorem shows_setContent (h : Store k d nodes) (ha : a ∈ nodes m) (hc : k.At a c) {n : ℕ} {q : Ptr}
    {b : DataMessage} (hb : k.messages q = some b)
    (hself : k'.data a = some ((n : ℤ), q, c.channel_id)) (hother : ∀ p ≠ a, k'.data p = k.data p)
    (hmes : k'.messages = k.messages) :
    Shows k' nodes m' id bytes ↔
      if m' = m ∧ id = c.channel_id then bytes = (List.ofFn b).take n
      else Shows k nodes m' id bytes := by
  simp only [Shows, hmes]
  constructor
  · rintro ⟨p, hp, n', q', b', hd, hb', rfl⟩
    by_cases hpa : p = a
    · subst hpa
      rw [hself, Option.some.injEq, Prod.mk.injEq, Prod.mk.injEq] at hd
      obtain ⟨rfl, rfl, rfl⟩ := hd
      rw [if_pos ⟨h.disjoint m' m p hp ha, rfl⟩]
      rw [hb', Option.some.injEq] at hb
      rw [hb]
      rfl
    · rw [hother p hpa] at hd
      have hne : ¬ (m' = m ∧ id = c.channel_id) := by
        rintro ⟨rfl, rfl⟩
        obtain ⟨c', hc', _, _, hid⟩ := at_of_data hd
        exact hpa (h.ids m' p hp a ha c' c hc' hc hid)
      rw [if_neg hne]
      exact ⟨p, hp, n', q', b', hd, hb', rfl⟩
  · by_cases hm : m' = m ∧ id = c.channel_id
    · rw [if_pos hm]
      rintro rfl
      obtain ⟨rfl, rfl⟩ := hm
      exact ⟨a, ha, n, q, b, hself, hb, rfl⟩
    · rw [if_neg hm]
      rintro ⟨p, hp, n', q', b', hd, hb', rfl⟩
      have hpa : p ≠ a := by
        rintro rfl
        rw [hc.data, Option.some.injEq, Prod.mk.injEq, Prod.mk.injEq] at hd
        exact hm ⟨h.disjoint m' m p hp ha, hd.2.2.symm⟩
      exact ⟨p, hp, n', q', b', by rw [hother p hpa, hd], hb', rfl⟩

end Store
end OsCourse.MessageSlot
