import Mathlib

/-! # Singly linked lists in a heap

`Chain cells next null p l`: from `p` the links lead through the cells `l`, in this
order, and end in `null`. Such a list is finite, so it has no cycle; writing a cell
elsewhere leaves it alone, and linking a fresh cell behind its last one appends.
-/

namespace OsCourse.Foundations
variable {P C : Type*}

def Chain (cells : P → Option C) (next : C → P) (null : P) : P → List P → Prop
  | p, [] => p = null
  | p, q :: l => p = q ∧ p ≠ null ∧ ∃ c, cells p = some c ∧ Chain cells next null (next c) l

namespace Chain
variable {cells cells' : P → Option C} {next : C → P} {null p q : P} {l l' : List P} {c c' : C}

theorem unique (h : Chain cells next null p l) (h' : Chain cells next null p l') : l = l' := by
  induction l generalizing p l' with
  | nil =>
    cases l' with
    | nil => rfl
    | cons q l' => exact absurd h h'.2.1
  | cons q l ih =>
    cases l' with
    | nil => exact absurd h' h.2.1
    | cons q' l' =>
      obtain ⟨rfl, _, c, hc, h⟩ := h
      obtain ⟨rfl, _, c', hc', h'⟩ := h'
      rw [hc, Option.some.injEq] at hc'
      subst hc'
      rw [ih h h']

theorem drop {l₁ l₂ : List P} (h : Chain cells next null p (l₁ ++ q :: l₂)) :
    Chain cells next null q (q :: l₂) := by
  induction l₁ generalizing p with
  | nil =>
    obtain ⟨rfl, h⟩ := h
    exact ⟨rfl, h⟩
  | cons q l₁ ih =>
    obtain ⟨_, _, c, _, h⟩ := h
    exact ih h

theorem cell_of_mem (h : Chain cells next null p l) (hq : q ∈ l) :
    q ≠ null ∧ ∃ c, cells q = some c := by
  obtain ⟨l₁, l₂, rfl⟩ := List.append_of_mem hq
  obtain ⟨_, hn, c, hc, _⟩ := h.drop
  exact ⟨hn, c, hc⟩

theorem nodup (h : Chain cells next null p l) : l.Nodup := by
  induction l generalizing p with
  | nil => exact List.nodup_nil
  | cons q l ih =>
    have hl := h
    obtain ⟨rfl, _, c, _, h⟩ := h
    refine List.nodup_cons.mpr ⟨fun hp => ?_, ih h⟩
    obtain ⟨l₁, l₂, rfl⟩ := List.append_of_mem hp
    have he := congrArg List.length (hl.unique h.drop)
    simp only [List.length_cons, List.length_append] at he
    omega

/-- A chain only depends on the links of its own cells. -/
theorem congr (h : Chain cells next null p l)
    (hc : ∀ q ∈ l, ∀ c, cells q = some c → ∃ c', cells' q = some c' ∧ next c' = next c) :
    Chain cells' next null p l := by
  induction l generalizing p with
  | nil => exact h
  | cons q l ih =>
    obtain ⟨rfl, hn, c, hcell, h⟩ := h
    obtain ⟨c', hcell', hnext⟩ := hc p List.mem_cons_self c hcell
    refine ⟨rfl, hn, c', hcell', ?_⟩
    rw [hnext]
    exact ih h fun q hq => hc q (List.mem_cons_of_mem _ hq)

/-- The last cell of a chain has no successor. -/
theorem next_last {last : P} (h : Chain cells next null p (l ++ [last])) (hc : cells last = some c) :
    next c = null := by
  obtain ⟨_, _, c', hc', h⟩ := h.drop
  rw [hc, Option.some.injEq] at hc'
  rw [hc']
  exact h

section
variable [DecidableEq P]

theorem update_of_not_mem (h : Chain cells next null p l) (hq : q ∉ l) (v : Option C) :
    Chain (Function.update cells q v) next null p l := by
  refine h.congr fun r hr c hc => ⟨c, ?_, rfl⟩
  have hne : r ≠ q := by
    rintro rfl
    exact hq hr
  rw [Function.update_of_ne hne, hc]

/-- Writing a cell without changing its link. -/
theorem update_same_next (h : Chain cells next null p l) (hc : cells q = some c)
    (hn : next c' = next c) : Chain (Function.update cells q (some c')) next null p l := by
  refine h.congr fun r _ d hd => ?_
  by_cases hr : r = q
  · subst hr
    rw [hc, Option.some.injEq] at hd
    exact ⟨c', Function.update_self .., hd ▸ hn⟩
  · exact ⟨d, by rw [Function.update_of_ne hr, hd], rfl⟩

/-- Linking a fresh cell behind the last one. -/
theorem snoc {last : P} (h : Chain cells next null p (l ++ [last])) (hq : q ∉ l ++ [last])
    (hnull : q ≠ null) (hcell : cells q = some c') (hnew : next c' = null) {d : C}
    (hlink : next d = q) :
    Chain (Function.update cells last (some d)) next null p (l ++ [last] ++ [q]) := by
  induction l generalizing p with
  | nil =>
    obtain ⟨rfl, hp, c, hc, _⟩ := h
    refine ⟨rfl, hp, d, Function.update_self .., ?_⟩
    rw [hlink]
    have hqp : q ≠ p := fun he => hq (by simp [he])
    exact ⟨rfl, hnull, c', by rw [Function.update_of_ne hqp, hcell], hnew⟩
  | cons r l ih =>
    have hnd := h.nodup
    obtain ⟨rfl, hp, c, hc, h⟩ := h
    have hpl : p ≠ last := by
      rintro rfl
      simp at hnd
    have hq' : q ∉ l ++ [last] := fun hm => hq (List.mem_cons_of_mem _ hm)
    exact ⟨rfl, hp, c, by rw [Function.update_of_ne hpl, hc], ih h hq'⟩

end
end Chain
end OsCourse.Foundations
