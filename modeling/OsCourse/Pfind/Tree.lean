import OsCourse.Foundations.Worklist
import OsCourse.Pfind.Paths

/-! # The tree below a directory

What a search has to find: the directories below a path, each once, and the entries of
them that are no directories and match.
-/

namespace OsCourse.Pfind
open Foundations

variable (fs : FileSystem) (searched_str : Name)

/-- Each entry fits into a path and can be examined, and `P` holds of the subdirectories. -/
def Entries (P : Path → Prop) (directory : Path) (names : List Name) : Prop :=
  ∀ d_name ∈ names, (join directory d_name).length < PATH_MAX ∧
    ∃ st_mode, fs.lstat (join directory d_name) = some st_mode ∧
      (¬ IsDots d_name → S_ISDIR st_mode → P (join directory d_name))

/-- The tree below a path has at most `k` levels, and no call on it fails. -/
def Searchable : ℕ → Path → Prop
  | 0, _ => False
  | k + 1, p => ∃ names, fs.opendir p = some names ∧ Entries fs (Searchable k) p names

def isSubdirectory (directory : Path) (d_name : Name) : Bool :=
  !decide (IsDots d_name) && (fs.lstat (join directory d_name)).any fun st_mode => S_ISDIR st_mode

/-- An entry that is no directory, and whose name contains `searched_str`. -/
def isMatch (directory : Path) (d_name : Name) : Bool :=
  !decide (IsDots d_name) &&
    (fs.lstat (join directory d_name)).any (fun st_mode => !decide (S_ISDIR st_mode)) &&
    decide (searched_str <:+: d_name)

/-- The subdirectories among some entries. -/
def subdirectoriesOf (directory : Path) (names : List Name) : List Path :=
  (names.filter (isSubdirectory fs directory)).map (join directory)

def subdirectories (p : Path) : List Path :=
  subdirectoriesOf fs p ((fs.opendir p).getD [])

/-- The number of matches in a directory itself. -/
def matchesIn (p : Path) : ℕ :=
  ((fs.opendir p).getD []).countP (isMatch fs searched_str p)

/-- The directories of a tree of at most `k` levels. -/
def directories (k : ℕ) (p : Path) : List Path := nodes (subdirectories fs) k p

/-- The matches in a tree of at most `k` levels. -/
def matchesBelow (k : ℕ) (p : Path) : ℕ := ((directories fs k p).map (matchesIn fs searched_str)).sum

instance (P : Path → Prop) [DecidablePred P] (directory : Path) (names : List Name) :
    Decidable (Entries fs P directory names) :=
  have (d_name : Name) : Decidable (∃ st_mode ∈ fs.lstat (join directory d_name),
      (¬ IsDots d_name → S_ISDIR st_mode → P (join directory d_name))) :=
    Option.decidableExistsMem _
  inferInstanceAs (Decidable (∀ d_name ∈ names, (join directory d_name).length < PATH_MAX ∧
    ∃ st_mode ∈ fs.lstat (join directory d_name),
      (¬ IsDots d_name → S_ISDIR st_mode → P (join directory d_name))))

instance decidableSearchable : (k : ℕ) → DecidablePred (Searchable fs k)
  | 0, _ => .isFalse id
  | k + 1, p =>
    have := decidableSearchable k
    inferInstanceAs (Decidable (∃ names ∈ fs.opendir p, Entries fs (Searchable fs k) p names))

variable {fs searched_str} {k : ℕ} {p q : Path}

theorem Entries.mono {P Q : Path → Prop} {names : List Name} (h : Entries fs P p names)
    (hPQ : ∀ q, P q → Q q) : Entries fs Q p names := by
  intro d_name hn
  obtain ⟨hfits, st_mode, hl, hdir⟩ := h d_name hn
  exact ⟨hfits, st_mode, hl, fun hd hm => hPQ _ (hdir hd hm)⟩

theorem Entries.subdirectory {P : Path → Prop} {names : List Name} (h : Entries fs P p names)
    (hq : q ∈ subdirectoriesOf fs p names) : P q := by
  obtain ⟨d_name, hn, rfl⟩ := List.mem_map.mp hq
  rw [List.mem_filter] at hn
  obtain ⟨_, st_mode, hl, hdir⟩ := h d_name hn.1
  have hsub := hn.2
  rw [isSubdirectory, hl] at hsub
  simp only [Option.any_some, Bool.and_eq_true, Bool.not_eq_true', decide_eq_false_iff_not,
    decide_eq_true_eq] at hsub
  exact hdir hsub.1 hsub.2

theorem Searchable.succ (h : Searchable fs k p) : Searchable fs (k + 1) p := by
  induction k generalizing p with
  | zero => exact h.elim
  | succ k ih =>
    obtain ⟨names, hopen, he⟩ := h
    exact ⟨names, hopen, he.mono fun q => ih⟩

theorem Searchable.bounded (h : Searchable fs k p) : Bounded (subdirectories fs) k p := by
  induction k generalizing p with
  | zero => exact h.elim
  | succ k ih =>
    obtain ⟨names, hopen, he⟩ := h
    intro q hq
    rw [subdirectories, hopen] at hq
    exact ih (he.subdirectory hq)

/-- The listing of a searchable directory, with the same bound for its subdirectories. -/
theorem Searchable.opendir (h : Searchable fs k p) :
    ∃ names, fs.opendir p = some names ∧ Entries fs (Searchable fs k) p names := by
  cases k with
  | zero => exact h.elim
  | succ k =>
    obtain ⟨names, hopen, he⟩ := h
    exact ⟨names, hopen, he.mono fun q => Searchable.succ⟩

/-! ## No path is found twice -/

/-- What lies directly below a path has a name there, and each has its own. -/
structure ByName (children : Path → List Path) : Prop where
  named : ∀ p, ∀ q ∈ children p, ∃ d_name, q = join p d_name ∧ d_name ≠ [] ∧ slash ∉ d_name
  nodup : ∀ p, (children p).Nodup

variable (fs) in
theorem byName_filter (f : Path → Name → Bool) :
    ByName fun p => (((fs.opendir p).getD []).filter (f p)).map (join p) where
  named p q hq := by
    obtain ⟨d_name, hd, rfl⟩ := List.mem_map.mp hq
    have hmem := (List.mem_filter.mp hd).1
    cases hopen : fs.opendir p with
    | none =>
      rw [hopen] at hmem
      cases hmem
    | some names =>
      rw [hopen] at hmem
      obtain ⟨hne, _, hs⟩ := fs.name p names hopen d_name hmem
      exact ⟨d_name, rfl, hne, hs⟩
  nodup p := by
    refine (List.Nodup.filter _ ?_).map (join_injective p)
    cases hopen : fs.opendir p with
    | none => exact List.nodup_nil
    | some names => exact fs.names_nodup p names hopen

namespace ByName

variable {children : Path → List Path}

/-- Every path of a tree but its root lies behind the root and a slash. -/
theorem mem_nodes (h : ByName children) (hq : q ∈ nodes children k p) :
    q = p ∨ ∃ r, r ≠ [] ∧ q = withSlash p ++ r := by
  induction k generalizing p with
  | zero => cases hq
  | succ k ih =>
    rcases List.mem_cons.mp hq with rfl | hq
    · exact Or.inl rfl
    · obtain ⟨c, hc, hq⟩ := List.mem_flatMap.mp hq
      obtain ⟨d_name, rfl, hne, hs⟩ := h.named p c hc
      right
      rcases ih hq with rfl | ⟨r, _, rfl⟩
      · exact ⟨d_name, hne, rfl⟩
      · rw [withSlash_join p hne hs]
        exact ⟨d_name ++ [slash] ++ r, by simp, by simp [join]⟩

theorem length_le_of_mem_nodes (h : ByName children) (hq : q ∈ nodes children k p) :
    p.length ≤ q.length := by
  rcases h.mem_nodes hq with rfl | ⟨r, _, rfl⟩
  · exact le_rfl
  · rw [withSlash]
    split <;> simp

/-- The name under which a path lies below `p`. -/
theorem takeWhile_of_mem_nodes (h : ByName children) {d_name : Name} (hne : d_name ≠ [])
    (hs : slash ∉ d_name) (hq : q ∈ nodes children k (join p d_name)) :
    ∃ r, q = withSlash p ++ r ∧ r.takeWhile (· ≠ slash) = d_name := by
  have hall : ∀ c ∈ d_name, decide (c ≠ slash) = true := by
    intro c hc
    simp only [decide_eq_true_eq]
    rintro rfl
    exact hs hc
  rcases h.mem_nodes hq with rfl | ⟨r, _, rfl⟩
  · exact ⟨d_name, rfl, List.takeWhile_eq_self_iff.mpr hall⟩
  · rw [withSlash_join p hne hs]
    refine ⟨d_name ++ slash :: r, by simp [join], ?_⟩
    rw [List.takeWhile_append_of_pos hall, List.takeWhile_cons_of_neg (by simp), List.append_nil]

theorem nodup_nodes (h : ByName children) (k : ℕ) (p : Path) : (nodes children k p).Nodup := by
  refine Foundations.nodup_nodes (fun a b n hb ha => ?_) (fun a n => ?_) k p
  · obtain ⟨d_name, rfl, hne, _⟩ := h.named a b hb
    exact absurd (h.length_le_of_mem_nodes ha) (Nat.not_le.mpr (length_join_gt a hne))
  · refine (h.nodup a).pairwise_of_forall_ne fun b hb c hc hbc => ?_
    obtain ⟨m, rfl, hmne, hms⟩ := h.named a b hb
    obtain ⟨m', rfl, hmne', hms'⟩ := h.named a c hc
    intro q hq hq'
    obtain ⟨r, rfl, hr⟩ := h.takeWhile_of_mem_nodes hmne hms hq
    obtain ⟨r', he, hr'⟩ := h.takeWhile_of_mem_nodes hmne' hms' hq'
    obtain rfl := List.append_cancel_left he
    exact hbc (by rw [← hr, ← hr'])

end ByName

theorem directories_nodup (fs : FileSystem) (k : ℕ) (p : Path) : (directories fs k p).Nodup :=
  (byName_filter fs (isSubdirectory fs)).nodup_nodes k p

/-! ## All the paths of a tree -/

variable (fs) in
/-- The paths that `folder_scan` forms in a directory. -/
def entriesOf (p : Path) : List Path := ((fs.opendir p).getD []).map (join p)

theorem byName_entriesOf (fs : FileSystem) : ByName (entriesOf fs) := by
  have h := byName_filter fs fun _ _ => true
  simp only [List.filter_true] at h
  exact h

variable (fs) in
/-- A path that is too long is not opened, so no tree has more than `PATH_MAX` levels. -/
theorem bounded_entriesOf {k : ℕ} (h : PATH_MAX ≤ p.length + k) :
    Bounded (entriesOf fs) (k + 1) p := by
  induction k generalizing p with
  | zero =>
    have hclosed : fs.opendir p = none := by
      by_contra hopen
      obtain ⟨names, hnames⟩ := Option.ne_none_iff_exists'.mp hopen
      exact absurd (fs.opendir_fits p names hnames) (Nat.not_lt.mpr h)
    intro q hq
    rw [entriesOf, hclosed] at hq
    cases hq
  | succ k ih =>
    intro q hq
    obtain ⟨d_name, rfl, hne, _⟩ := (byName_entriesOf fs).named p q hq
    have hlonger := length_join_gt p hne
    exact ih (by omega)

theorem nodes_entriesOf_nodup (fs : FileSystem) (k : ℕ) (p : Path) :
    (nodes (entriesOf fs) k p).Nodup := (byName_entriesOf fs).nodup_nodes k p

end OsCourse.Pfind
