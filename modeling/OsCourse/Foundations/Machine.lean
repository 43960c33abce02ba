import Mathlib

/-! # Machines, their runs and the induction rules for them

A machine is a labelled transition system with its starting states. Every
program of the development is one, and every statement about whole runs is proved
through the two invariant rules and the simulation rule below.
-/

namespace OsCourse.Foundations

/-- A labelled transition system together with its starting states. -/
structure Machine (S A : Type*) where
  init : S → Prop
  step : S → A → S → Prop

namespace Machine
variable {S T A B : Type*}

/-- `M.Run as s`: some run of `M` performs the actions `as`, oldest first, and ends in `s`. -/
inductive Run (M : Machine S A) : List A → S → Prop
  | start {s : S} (h : M.init s) : Run M [] s
  | snoc {as : List A} {s t : S} {a : A} (h : Run M as s) (hs : M.step s a t) :
      Run M (as ++ [a]) t

def Reachable (M : Machine S A) (s : S) : Prop := ∃ as, M.Run as s

/-- An invariant may also speak of the actions performed so far. -/
theorem Run.history_invariant {M : Machine S A} {I : List A → S → Prop}
    (h₀ : ∀ s, M.init s → I [] s)
    (hstep : ∀ as s a t, M.Run as s → I as s → M.step s a t → I (as ++ [a]) t)
    {as : List A} {s : S} (h : M.Run as s) : I as s := by
  induction h with
  | start h => exact h₀ _ h
  | snoc h hs ih => exact hstep _ _ _ _ h ih hs

theorem Run.invariant {M : Machine S A} {I : S → Prop} (h₀ : ∀ s, M.init s → I s)
    (hstep : ∀ s a t, I s → M.step s a t → I t) {as : List A} {s : S} (h : M.Run as s) : I s :=
  Run.history_invariant (I := fun _ s => I s) h₀ (fun _ _ _ _ _ hi hs => hstep _ _ _ hi hs) h

theorem Run.reachable {M : Machine S A} {as : List A} {s : S} (h : M.Run as s) :
    M.Reachable s := ⟨as, h⟩

theorem Run.nil_inv {M : Machine S A} {t : S} (h : M.Run [] t) : M.init t := by
  generalize hnil : ([] : List A) = as at h
  cases h with
  | start h => exact h
  | snoc => simp at hnil

theorem Run.snoc_inv {M : Machine S A} {as : List A} {a : A} {t : S} (h : M.Run (as ++ [a]) t) :
    ∃ s, M.Run as s ∧ M.step s a t := by
  generalize hbs : as ++ [a] = bs at h
  cases h with
  | start => simp at hbs
  | @snoc as' s _ a' h hs =>
    obtain ⟨rfl, ha⟩ := List.append_inj' hbs rfl
    rw [List.cons.injEq] at ha
    exact ⟨s, h, ha.1 ▸ hs⟩

/-- In a machine without choices the actions determine the state. -/
theorem Run.unique {M : Machine S A} (h₀ : ∀ s t, M.init s → M.init t → s = t)
    (hstep : ∀ s a t t', M.step s a t → M.step s a t' → t = t') {as : List A} {s t : S}
    (h : M.Run as s) (h' : M.Run as t) : s = t := by
  induction h generalizing t with
  | start h => exact h₀ _ _ h h'.nil_inv
  | snoc h hs ih =>
    obtain ⟨s', h', hs'⟩ := h'.snoc_inv
    rw [ih h'] at hs
    exact hstep _ _ _ _ hs hs'

theorem Reachable.step {M : Machine S A} {s t : S} {a : A} (h : M.Reachable s)
    (hs : M.step s a t) : M.Reachable t := by
  obtain ⟨as, h⟩ := h
  exact ⟨as ++ [a], h.snoc hs⟩

theorem Reachable.invariant {M : Machine S A} {I : S → Prop} (h₀ : ∀ s, M.init s → I s)
    (hstep : ∀ s a t, I s → M.step s a t → I t) {s : S} (h : M.Reachable s) : I s := by
  obtain ⟨as, h⟩ := h
  exact h.invariant h₀ hstep

/-- Some steps of `M` lead from `s` to `t`. -/
def Later (M : Machine S A) : S → S → Prop := Relation.ReflTransGen fun s t => ∃ a, M.step s a t

theorem Later.invariant {M : Machine S A} {I : S → Prop}
    (hstep : ∀ s a t, I s → M.step s a t → I t) {s t : S} (h : M.Later s t) (hs : I s) : I t := by
  induction h with
  | refl => exact hs
  | tail _ hst ih =>
    obtain ⟨a, hst⟩ := hst
    exact hstep _ a _ ih hst

/-- The machine that only takes the steps of `M` allowed by `P`. -/
def guarded (M : Machine S A) (P : S → A → S → Prop) : Machine S A where
  init := M.init
  step s a t := M.step s a t ∧ P s a t

theorem Run.of_guarded {M : Machine S A} {P : S → A → S → Prop} {as : List A} {s : S}
    (h : (M.guarded P).Run as s) : M.Run as s := by
  induction h with
  | start h => exact .start h
  | snoc _ hs ih => exact .snoc ih hs.1

/-- `R` relates every step of `M` to a step of `N` under the same action. The run of `M`
is at hand, so that invariants of `M` may be used. -/
structure Simulation (M : Machine S A) (N : Machine T B) (f : A → B) (R : S → T → Prop) : Prop where
  init : ∀ s, M.init s → ∃ t, N.init t ∧ R s t
  step : ∀ s a s' t, M.Reachable s → M.step s a s' → R s t → ∃ t', N.step t (f a) t' ∧ R s' t'

theorem Simulation.run {M : Machine S A} {N : Machine T B} {f : A → B} {R : S → T → Prop}
    (H : Simulation M N f R) {as : List A} {s : S} (h : M.Run as s) :
    ∃ t, N.Run (as.map f) t ∧ R s t := by
  induction h with
  | start h =>
    obtain ⟨t, ht, hr⟩ := H.init _ h
    exact ⟨t, .start ht, hr⟩
  | snoc h hs ih =>
    obtain ⟨t, ht, hr⟩ := ih
    obtain ⟨t', ht', hr'⟩ := H.step _ _ _ _ h.reachable hs hr
    exact ⟨t', by simpa using ht.snoc ht', hr'⟩

/-! ## Machines given by a partial function -/

/-- The machine that starts in `s₀` and steps by the partial function `f`. -/
def ofFun (s₀ : S) (f : S → A → Option S) : Machine S A where
  init s := s = s₀
  step s a t := f s a = some t

/-- Perform a list of actions, oldest first. -/
def perform (f : S → A → Option S) : S → List A → Option S
  | s, [] => some s
  | s, a :: as => (f s a).bind (perform f · as)

theorem perform_cons {f : S → A → Option S} {s t : S} {a : A} (h : f s a = some t) (as : List A) :
    perform f s (a :: as) = perform f t as := by
  rw [perform, h, Option.bind_some]

theorem perform_append (f : S → A → Option S) (s : S) (as bs : List A) :
    perform f s (as ++ bs) = (perform f s as).bind (perform f · bs) := by
  induction as generalizing s with
  | nil => rfl
  | cons a as ih =>
    cases h : f s a with
    | none => simp [perform, h]
    | some t => rw [List.cons_append, perform_cons h, perform_cons h, ih]

/-- Where `f` only takes steps of `M`, performing actions is a run of `M`. -/
theorem Run.perform {M : Machine S A} {f : S → A → Option S}
    (hf : ∀ s a t, f s a = some t → M.step s a t) {bs as : List A} {s t : S} (h : M.Run bs s)
    (hp : perform f s as = some t) : M.Run (bs ++ as) t := by
  induction as generalizing bs s with
  | nil =>
    obtain rfl := Option.some.inj hp
    rwa [List.append_nil]
  | cons a as ih =>
    obtain ⟨u, hu, hp⟩ := Option.bind_eq_some_iff.mp hp
    rw [List.append_cons]
    exact ih (h.snoc (hf s a u hu)) hp

theorem run_ofFun {s₀ : S} {f : S → A → Option S} {as : List A} {s : S} :
    (ofFun s₀ f).Run as s ↔ perform f s₀ as = some s := by
  constructor
  · intro h
    induction h with
    | start h => cases h; rfl
    | snoc _ hs ih =>
      rw [perform_append, ih]
      exact (Option.bind_some _ _).trans (perform_cons hs [])
  · exact (Run.start rfl).perform fun _ _ _ hs => hs

/-- A guard that can be evaluated gives a machine of the same kind. -/
theorem run_guarded_ofFun {s₀ : S} {f : S → A → Option S} {P : S → A → Prop}
    [∀ s a, Decidable (P s a)] {as : List A} {s : S} :
    ((ofFun s₀ f).guarded fun s a _ => P s a).Run as s ↔
      perform (fun s a => if P s a then f s a else none) s₀ as = some s := by
  rw [← run_ofFun]
  have hstep : ((ofFun s₀ f).guarded fun s a _ => P s a) =
      ofFun s₀ (fun s a => if P s a then f s a else none) := by
    simp only [guarded, ofFun, Option.ite_none_right_eq_some, and_comm]
  rw [hstep]

/-! ## From one state to another -/

/-- Some actions, each of which `P` allows, lead from `s` to `t`. -/
def Leads (f : S → A → Option S) (P : A → Prop) (s t : S) : Prop :=
  ∃ as, (∀ a ∈ as, P a) ∧ perform f s as = some t

theorem Leads.refl {f : S → A → Option S} {P : A → Prop} (s : S) : Leads f P s s :=
  ⟨[], by simp, rfl⟩

theorem Leads.head {f : S → A → Option S} {P : A → Prop} {s t u : S} {a : A} (ha : P a)
    (hs : f s a = some t) (h : Leads f P t u) : Leads f P s u := by
  obtain ⟨as, has, hu⟩ := h
  exact ⟨a :: as, List.forall_mem_cons.mpr ⟨ha, has⟩, by rw [perform, hs]; exact hu⟩

theorem Leads.trans {f : S → A → Option S} {P : A → Prop} {s t u : S} (h : Leads f P s t)
    (h' : Leads f P t u) : Leads f P s u := by
  obtain ⟨as, has, ht⟩ := h
  obtain ⟨bs, hbs, hu⟩ := h'
  exact ⟨as ++ bs, List.forall_mem_append.mpr ⟨has, hbs⟩, by rw [perform_append, ht]; exact hu⟩

theorem Leads.invariant {f : S → A → Option S} {P : A → Prop} {I : S → Prop}
    (hstep : ∀ s a t, I s → f s a = some t → I t) {s t : S} (h : Leads f P s t) (hs : I s) :
    I t := by
  obtain ⟨as, -, ht⟩ := h
  induction as generalizing s with
  | nil => rwa [← Option.some.inj ht]
  | cons a as ih =>
    obtain ⟨u, hu, ht⟩ := Option.bind_eq_some_iff.mp ht
    exact ih (hstep s a u hs hu) ht

/-! ## Runs that come to an end -/

/-- Where every step spends some of a potential, and may use what is granted for its action, a run
is no longer than the potential at its start and the grants allow. -/
theorem Run.length_le {M : Machine S A} (potential : S → ℕ) (grant : A → ℕ) {b : ℕ}
    (h₀ : ∀ s, M.init s → potential s ≤ b)
    (hstep : ∀ s a t, M.step s a t → potential t < potential s + grant a) {as : List A} {s : S}
    (h : M.Run as s) : as.length + potential s ≤ b + (as.map grant).sum := by
  induction h with
  | start h =>
    rw [List.length_nil, List.map_nil, List.sum_nil, Nat.zero_add]
    exact h₀ _ h
  | snoc _ hs ih =>
    have hspent := hstep _ _ _ hs
    rw [List.length_append, List.map_append, List.sum_append, List.length_singleton,
      List.map_singleton, List.sum_singleton]
    omega

/-- Actions that spend a potential cannot be performed for ever. -/
theorem exists_leads_stuck {f : S → A → Option S} {P : A → Prop} (potential : S → ℕ)
    (hstep : ∀ s a t, P a → f s a = some t → potential t < potential s) (s : S) :
    ∃ t, Leads f P s t ∧ ∀ a, P a → f t a = none := by
  induction hn : potential s using Nat.strong_induction_on generalizing s with
  | _ n ih =>
    by_cases hstuck : ∀ a, P a → f s a = none
    · exact ⟨s, .refl s, hstuck⟩
    · push Not at hstuck
      obtain ⟨a, ha, hsome⟩ := hstuck
      obtain ⟨t, ht⟩ := Option.ne_none_iff_exists'.mp hsome
      obtain ⟨u, hu, hend⟩ := ih _ (hn ▸ hstep s a t ha ht) t rfl
      exact ⟨u, hu.head ha ht, hend⟩

end Machine
end OsCourse.Foundations
