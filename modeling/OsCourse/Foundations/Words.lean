import Mathlib

/-! # Words between delimiters

The words of a list are its longest pieces without a delimiter, as a tokenizer returns them:
delimiters may be repeated, and may stand at either end.
-/

namespace OsCourse.Foundations
variable {α : Type*} {delim : α → Bool} {d w : List α}

def words (delim : α → Bool) (l : List α) : List (List α) :=
  (l.splitOnP delim).filter fun w => !w.isEmpty

/-- A word contains something, but no delimiter. -/
structure IsWord (delim : α → Bool) (w : List α) : Prop where
  ne_nil : w ≠ []
  clean : ∀ a ∈ w, delim a = false

instance (delim : α → Bool) (w : List α) : Decidable (IsWord delim w) :=
  decidable_of_iff (w.isEmpty = false ∧ ∀ a ∈ w, delim a = false)
    ⟨fun h => ⟨by simpa using h.1, h.2⟩, fun h => ⟨by simpa using h.ne_nil, h.clean⟩⟩

theorem words_delims_append (hd : ∀ a ∈ d, delim a = true) (l : List α) :
    words delim (d ++ l) = words delim l := by
  induction d with
  | nil => rfl
  | cons a d ih =>
    rw [List.forall_mem_cons] at hd
    rw [List.cons_append, words, List.splitOnP_cons_eq_if_modifyHead, if_pos hd.1]
    exact ih hd.2

theorem words_delims (hd : ∀ a ∈ d, delim a = true) : words delim d = [] := by
  rw [← List.append_nil d, words_delims_append hd]
  rfl

theorem words_append_cons (hw : IsWord delim w) {a : α} (ha : delim a = true) (l : List α) :
    words delim (w ++ a :: l) = w :: words delim l := by
  rw [words, List.splitOnP_append_cons_of_forall_mem hw.clean a ha]
  exact List.filter_cons_of_pos (by simpa using hw.ne_nil)

theorem words_self (hw : IsWord delim w) : words delim w = [w] := by
  rw [words, List.splitOnP_eq_singleton hw.clean]
  exact List.filter_cons_of_pos (by simpa using hw.ne_nil)

theorem eq_false_of_dropWhile {p : α → Bool} {a : α} {l rest : List α}
    (h : l.dropWhile p = a :: rest) : p a = false := by
  have hhead := List.head_dropWhile_not p (l := l) (by simp [h])
  simpa [h] using hhead

/-- What a list starts with: delimiters, and then a word unless nothing else is left. -/
inductive Leading (delim : α → Bool) : List α → Prop
  | blank {d : List α} (hd : ∀ a ∈ d, delim a = true) : Leading delim d
  | last {d w : List α} (hd : ∀ a ∈ d, delim a = true) (hw : IsWord delim w) :
      Leading delim (d ++ w)
  | next {d w l : List α} {a : α} (hd : ∀ a ∈ d, delim a = true) (hw : IsWord delim w)
      (ha : delim a = true) : Leading delim (d ++ (w ++ a :: l))

theorem leading (delim : α → Bool) (l : List α) : Leading delim l := by
  have hd : ∀ a ∈ l.takeWhile delim, delim a = true := fun a ha => List.mem_takeWhile_imp ha
  rw [← List.takeWhile_append_dropWhile (p := delim) (l := l)]
  generalize hrest : l.dropWhile delim = rest
  cases rest with
  | nil => exact List.append_nil _ ▸ .blank hd
  | cons b rest =>
    have hb : delim b = false := eq_false_of_dropWhile hrest
    have hw : IsWord delim ((b :: rest).takeWhile fun a => !delim a) := by
      refine ⟨by simp [hb], fun a ha => ?_⟩
      simpa using List.mem_takeWhile_imp ha
    rw [← List.takeWhile_append_dropWhile (p := fun a => !delim a) (l := b :: rest)]
    generalize hend : (b :: rest).dropWhile (fun a => !delim a) = after
    cases after with
    | nil => exact List.append_nil _ ▸ .last hd hw
    | cons a after => exact .next hd hw (by simpa using eq_false_of_dropWhile hend)

/-- Words can be written with any delimiters between and around them. -/
theorem words_written {ws : List (List α × List α)} (hw : ∀ x ∈ ws, IsWord delim x.1)
    (hgap : ∀ x ∈ ws, x.2 ≠ [] ∧ ∀ a ∈ x.2, delim a = true) (hd : ∀ a ∈ d, delim a = true) :
    words delim (d ++ ws.flatMap fun x => x.1 ++ x.2) = ws.map Prod.fst := by
  rw [words_delims_append hd]
  induction ws with
  | nil => rfl
  | cons x ws ih =>
    rw [List.forall_mem_cons] at hw hgap
    obtain ⟨hne, hdelims⟩ := hgap.1
    obtain ⟨a, gap, hx⟩ := List.exists_cons_of_ne_nil hne
    rw [hx, List.forall_mem_cons] at hdelims
    rw [List.flatMap_cons, hx, List.append_assoc, List.cons_append, words_append_cons hw.1 hdelims.1,
      words_delims_append hdelims.2, ih hw.2 hgap.2]
    rfl

end OsCourse.Foundations
