import Mathlib

/-! # Trees of tasks

A task leads to further tasks. Where the tree below a task is finite, its nodes can be
listed, and what the tasks are worth can be added up, in whatever order they are done.
-/

namespace OsCourse.Foundations
variable {α M : Type*} (children : α → List α)

/-- The tree below `a` has at most `n` levels. -/
def Bounded : ℕ → α → Prop
  | 0, _ => False
  | n + 1, a => ∀ b ∈ children a, Bounded n b

/-- The upper `n` levels of the tree below `a`, parents first. -/
def nodes : ℕ → α → List α
  | 0, _ => []
  | n + 1, a => a :: (children a).flatMap (nodes n)

variable {children} {n : ℕ} {a : α}

theorem nodes_succ (h : Bounded children n a) :
    nodes children (n + 1) a = nodes children n a := by
  induction n generalizing a with
  | zero => exact h.elim
  | succ n ih =>
    rw [nodes, nodes]
    exact congrArg _ (List.flatMap_congr fun b hb => ih (h b hb))

/-- A bound that is large enough for a node is large enough for all of the tree below it. -/
theorem nodes_eq (h : Bounded children n a) :
    nodes children n a = a :: (children a).flatMap (nodes children n) := by
  rw [← nodes_succ h]
  rfl

/-- The tree below a node holds the children of each of its nodes. -/
theorem mem_nodes_of_child (h : Bounded children n a) {b c : α} (hb : b ∈ nodes children n a)
    (hc : c ∈ children b) : c ∈ nodes children n a := by
  induction n generalizing a with
  | zero => cases hb
  | succ n ih =>
    rcases List.mem_cons.mp hb with rfl | hb
    · rw [nodes_eq h]
      refine List.mem_cons_of_mem _ (List.mem_flatMap.mpr ⟨c, hc, ?_⟩)
      exact List.mem_cons_self
    · obtain ⟨d, hd, hb⟩ := List.mem_flatMap.mp hb
      exact List.mem_cons_of_mem _ (List.mem_flatMap.mpr ⟨d, hd, ih (h d hd) hb⟩)

theorem sum_nodes [AddCommMonoid M] (own : α → M) (h : Bounded children n a) :
    ((nodes children n a).map own).sum =
      own a + ((children a).map fun b => ((nodes children n b).map own).sum).sum := by
  rw [nodes_eq h, List.map_cons, List.sum_cons, List.map_flatMap, List.flatMap_def,
    List.sum_flatten, List.map_map]
  rfl

/-- The nodes below different children are different, so no node is listed twice. -/
theorem nodup_nodes (hself : ∀ a b n, b ∈ children a → a ∉ nodes children n b)
    (hdisjoint : ∀ a n, (children a).Pairwise fun b c =>
      List.Disjoint (nodes children n b) (nodes children n c)) (n : ℕ) (a : α) :
    (nodes children n a).Nodup := by
  induction n generalizing a with
  | zero => exact List.nodup_nil
  | succ n ih =>
    rw [nodes, List.nodup_cons, List.nodup_flatMap]
    refine ⟨fun hmem => ?_, fun b _ => ih b, hdisjoint a n⟩
    obtain ⟨b, hb, hmem⟩ := List.mem_flatMap.mp hmem
    exact hself a b n hb hmem

end OsCourse.Foundations
