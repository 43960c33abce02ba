import OsCourse.Foundations.HeapList

/-! # Queues in a heap

A linked queue keeps a pointer to its first and one to its last cell; both are null when it
is empty. A cell is appended behind the last one, and the first one can be freed once the
front has been moved on.
-/

namespace OsCourse.Foundations
variable {P C : Type*}

/-- From `front` the links lead through the cells `l` and end in `null`, and `rear` is the last. -/
structure LinkedQueue (cells : P → Option C) (next : C → P) (null front rear : P) (l : List P) :
    Prop where
  chain : Chain cells next null front l
  rear : rear = l.getLast?.getD null

namespace LinkedQueue
variable {cells cells' : P → Option C} {next : C → P} {null front rear p q : P} {l : List P} {c d : C}

theorem empty (cells : P → Option C) (next : C → P) (null : P) :
    LinkedQueue cells next null null null [] := ⟨rfl, rfl⟩

theorem mem (h : LinkedQueue cells next null front rear l) (hp : p ∈ l) :
    p ≠ null ∧ ∃ c, cells p = some c := h.chain.cell_of_mem hp

theorem isSome (h : LinkedQueue cells next null front rear l) (hp : p ∈ l) : (cells p).isSome := by
  obtain ⟨_, c, hc⟩ := h.mem hp
  rw [hc]
  rfl

theorem rear_eq_null_iff (h : LinkedQueue cells next null front rear l) : rear = null ↔ l = [] := by
  rcases List.eq_nil_or_concat l with rfl | ⟨l, last, rfl⟩
  · exact iff_of_true h.rear rfl
  · have hrear := h.rear
    rw [List.concat_eq_append, List.getLast?_concat, Option.getD_some] at hrear
    subst hrear
    exact iff_of_false (h.mem (by simp)).1 (by simp)

theorem rear_mem (h : LinkedQueue cells next null front rear l) (hrear : rear ≠ null) : rear ∈ l := by
  rcases List.eq_nil_or_concat l with rfl | ⟨l, last, rfl⟩
  · exact absurd (h.rear_eq_null_iff.mpr rfl) hrear
  · rw [h.rear]
    simp

theorem congr (h : LinkedQueue cells next null front rear l)
    (hc : ∀ q ∈ l, ∀ c, cells q = some c → ∃ c', cells' q = some c' ∧ next c' = next c) :
    LinkedQueue cells' next null front rear l := ⟨h.chain.congr hc, h.rear⟩

/-- The first cell of a queue. -/
theorem singleton (hq : q ≠ null) (hc : cells q = some c) (hnext : next c = null) :
    LinkedQueue cells next null q q [q] := ⟨⟨rfl, hq, c, hc, hnext⟩, rfl⟩

section
variable [DecidableEq P]

theorem put (h : LinkedQueue cells next null front rear l) (hq : cells q = none) (c : C) :
    LinkedQueue (Function.update cells q (some c)) next null front rear l := by
  refine h.congr fun r _ d hd => ⟨d, ?_, rfl⟩
  have hne : r ≠ q := by
    rintro rfl
    rw [hq] at hd
    cases hd
  rw [Function.update_of_ne hne, hd]

/-- A cell behind the last one of a queue that is not empty. -/
theorem append (h : LinkedQueue cells next null front rear l) (hrear : rear ≠ null) (hq : q ∉ l)
    (hnull : q ≠ null) (hc : cells q = some c) (hnext : next c = null) (hd : next d = q) :
    LinkedQueue (Function.update cells rear (some d)) next null front q (l ++ [q]) := by
  rcases List.eq_nil_or_concat l with rfl | ⟨l, last, rfl⟩
  · exact absurd (h.rear_eq_null_iff.mpr rfl) hrear
  · have hlast := h.rear
    rw [List.concat_eq_append, List.getLast?_concat, Option.getD_some] at hlast
    subst hlast
    rw [List.concat_eq_append] at h hq ⊢
    exact ⟨h.chain.snoc hq hnull hc hnext hd, by rw [List.getLast?_concat, Option.getD_some]⟩

/-- Moving the front on, and freeing the cell that was in front. -/
theorem tail (h : LinkedQueue cells next null front rear (p :: l)) :
    front = p ∧ ∃ c, cells p = some c ∧
      LinkedQueue (Function.update cells p none) next null (next c)
        (if next c = null then null else rear) l := by
  obtain ⟨rfl, _, c, hc, hchain⟩ := h.chain
  refine ⟨rfl, c, hc, hchain.update_of_not_mem (List.nodup_cons.mp h.chain.nodup).1 none, ?_⟩
  cases l with
  | nil => exact if_pos hchain
  | cons q l =>
    rw [if_neg hchain.2.1, h.rear, List.getLast?_cons_cons]

end
end LinkedQueue
end OsCourse.Foundations
