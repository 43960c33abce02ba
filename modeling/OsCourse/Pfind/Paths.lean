import Mathlib

/-! # The file system that a search sees

Paths and names are C strings without their terminator. `opendir`, `readdir` and `lstat`
are taken from a file system that does not change.
-/

namespace OsCourse.Pfind

abbrev Path := List UInt8
abbrev Name := List UInt8

def PATH_MAX : ℕ := 4096
def NAME_MAX : ℕ := 255

/-- `'/'`. -/
def slash : UInt8 := 47

/-- `'.'`. -/
def dot : UInt8 := 46

/-- `.` or `..`. -/
def IsDots (d_name : Name) : Prop := d_name = [dot] ∨ d_name = [dot, dot]

instance (d_name : Name) : Decidable (IsDots d_name) :=
  inferInstanceAs (Decidable (_ ∨ _))

/-- `S_ISDIR`. -/
def S_ISDIR (st_mode : BitVec 32) : Prop := st_mode &&& 0o170000#32 = 0o040000#32

instance (st_mode : BitVec 32) : Decidable (S_ISDIR st_mode) :=
  inferInstanceAs (Decidable (_ = _))

/-- What `opendir` and `readdir` return for a path (`none` where `opendir` fails), and the
`st_mode` that `lstat` returns (`none` where it fails). -/
structure FileSystem where
  opendir : Path → Option (List Name)
  lstat : Path → Option (BitVec 32)
  opendir_nil : opendir [] = none
  opendir_fits : ∀ p names, opendir p = some names → p.length < PATH_MAX
  names_nodup : ∀ p names, opendir p = some names → names.Nodup
  name : ∀ p names, opendir p = some names → ∀ d_name ∈ names,
    d_name ≠ [] ∧ d_name.length ≤ NAME_MAX ∧ slash ∉ d_name

/-- `directory`, and `/` if it does not end with one. -/
def withSlash (directory : Path) : Path :=
  if directory.getLast? = some slash then directory else directory ++ [slash]

/-- The path of an entry, as `folder_scan` builds it in `result`. -/
def join (directory : Path) (d_name : Name) : Path := withSlash directory ++ d_name

theorem length_join_gt (directory : Path) {d_name : Name} (h : d_name ≠ []) :
    directory.length < (join directory d_name).length := by
  have hpos := List.length_pos_iff.mpr h
  rw [join, withSlash]
  split <;> simp only [List.length_append, List.length_singleton] <;> omega

theorem join_injective (directory : Path) : Function.Injective (join directory) :=
  fun _ _ h => List.append_cancel_left h

/-- A path that ends with a name gets a slash. -/
theorem withSlash_join (directory : Path) {d_name : Name} (h : d_name ≠ []) (hs : slash ∉ d_name) :
    withSlash (join directory d_name) = join directory d_name ++ [slash] := by
  rw [withSlash, if_neg]
  rw [join, List.getLast?_append_of_ne_nil _ h]
  intro hl
  exact hs (List.mem_of_getLast? hl)

/-! ## File systems given by tables -/

/-- What holds of a directory and its entries. -/
def ListingOk (entry : Path × List Name) : Prop :=
  entry.1 ≠ [] ∧ entry.1.length < PATH_MAX ∧ entry.2.Nodup ∧
    ∀ d_name ∈ entry.2, d_name ≠ [] ∧ d_name.length ≤ NAME_MAX ∧ slash ∉ d_name

instance (entry : Path × List Name) : Decidable (ListingOk entry) :=
  inferInstanceAs (Decidable (_ ∧ _))

def lookup {α : Type} (table : List (Path × α)) (p : Path) : Option α :=
  (table.find? fun entry => entry.1 = p).map Prod.snd

theorem mem_of_lookup {α : Type} {table : List (Path × α)} {p : Path} {a : α}
    (h : lookup table p = some a) : (p, a) ∈ table := by
  obtain ⟨⟨q, b⟩, hq, rfl⟩ := Option.map_eq_some_iff.mp h
  have hp : q = p := by simpa using List.find?_some hq
  subst hp
  exact List.mem_of_find?_eq_some hq

/-- The directories that can be opened, with their entries, and the modes that `lstat` finds. -/
def FileSystem.ofTables (listings : List (Path × List Name)) (modes : List (Path × BitVec 32))
    (h : ∀ entry ∈ listings, ListingOk entry) : FileSystem where
  opendir := lookup listings
  lstat := lookup modes
  opendir_nil := Option.eq_none_iff_forall_ne_some.mpr fun _ hn => (h _ (mem_of_lookup hn)).1 rfl
  opendir_fits _ _ hn := (h _ (mem_of_lookup hn)).2.1
  names_nodup _ _ hn := (h _ (mem_of_lookup hn)).2.2.1
  name _ _ hn := (h _ (mem_of_lookup hn)).2.2.2

end OsCourse.Pfind
