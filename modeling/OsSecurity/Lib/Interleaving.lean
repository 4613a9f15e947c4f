import Mathlib.Algebra.BigOperators.Group.Finset.Basic
import Mathlib.Data.Fintype.Basic

/-!
# Interleavings

A system of actors, each of which can take a step in some states and not in others: `step s a` is the state after the step of actor
`a`, or `none` where it cannot take one. A schedule is a list of actors; its run takes their steps in turn. What every step keeps
holds in every reachable state, and a number that every step makes smaller bounds the length of every run.
-/

namespace Interleaving

variable {S A : Type*} (step : S → A → Option S)

/-- The state after the steps of a schedule, where each actor could take its step. -/
def run : S → List A → Option S
  | s, [] => some s
  | s, a :: as => (step s a).bind (fun s' => run s' as)

/-- The states that some schedule leads to. -/
def Reachable (s s' : S) : Prop := ∃ as, run step s as = some s'

/-- No actor can take a step. -/
def Stuck (s : S) : Prop := ∀ a, step s a = none

variable {step} {s s' : S} {a : A} {as : List A}

/-- A run after its first step. -/
theorem run_cons (h : step s a = some s') : run step s (a :: as) = run step s' as := by rw [run, h, Option.bind_some]

/-- Runs follow one another. -/
theorem run_append {bs : List A} (h : run step s as = some s') : run step s (as ++ bs) = run step s' bs := by
  induction as generalizing s with
  | nil =>
    obtain rfl := Option.some.inj h
    rfl
  | cons a as ih =>
    obtain ⟨t, ht, hrest⟩ := Option.bind_eq_some_iff.mp h
    rw [List.cons_append, run_cons ht, ih hrest]

/-- The last step of a run. -/
theorem exists_of_run_concat (h : run step s (as ++ [a]) = some s') : ∃ t, run step s as = some t ∧ step t a = some s' := by
  induction as generalizing s with
  | nil =>
    obtain ⟨t, ht, hrest⟩ := Option.bind_eq_some_iff.mp h
    obtain rfl := Option.some.inj hrest
    exact ⟨s, rfl, ht⟩
  | cons b as ih =>
    obtain ⟨t, ht, hrest⟩ := Option.bind_eq_some_iff.mp h
    obtain ⟨u, hu, hlast⟩ := ih hrest
    exact ⟨u, by rw [run_cons ht, hu], hlast⟩

/-- A state is reached from itself. -/
theorem Reachable.refl (s : S) : Reachable step s s := ⟨[], rfl⟩

/-- A step reaches its state. -/
theorem Reachable.of_step (h : step s a = some s') : Reachable step s s' := ⟨[a], run_cons h⟩

/-- What is reached from a reachable state is reachable. -/
theorem Reachable.trans {s'' : S} (h : Reachable step s s') (h' : Reachable step s' s'') : Reachable step s s'' := by
  obtain ⟨as, has⟩ := h
  obtain ⟨bs, hbs⟩ := h'
  exact ⟨as ++ bs, (run_append has).trans hbs⟩

/-- What every step keeps holds in the end of every run. -/
theorem run_invariant {I : S → Prop} (hstep : ∀ s a s', I s → step s a = some s' → I s') (hs : I s)
    (h : run step s as = some s') : I s' := by
  induction as generalizing s with
  | nil =>
    obtain rfl := Option.some.inj h
    exact hs
  | cons a as ih =>
    obtain ⟨t, ht, hrest⟩ := Option.bind_eq_some_iff.mp h
    exact ih (hstep s a t hs ht) hrest

/-- What every step keeps is kept on the way to every reachable state. -/
theorem Reachable.invariant {I : S → Prop} (h : Reachable step s s') (hs : I s)
    (hstep : ∀ s a s', I s → step s a = some s' → I s') : I s' := by
  obtain ⟨as, has⟩ := h
  exact run_invariant hstep hs has

/-- A number that every step makes smaller bounds the runs. -/
theorem length_add_le {I : S → Prop} {μ : S → Nat} (hstep : ∀ s a s', I s → step s a = some s' → I s')
    (hless : ∀ s a s', I s → step s a = some s' → μ s' < μ s) (hs : I s) (h : run step s as = some s') :
    as.length + μ s' ≤ μ s := by
  induction as generalizing s with
  | nil =>
    obtain rfl := Option.some.inj h
    exact Nat.le_of_eq (Nat.zero_add _)
  | cons a as ih =>
    obtain ⟨t, ht, hrest⟩ := Option.bind_eq_some_iff.mp h
    have hfirst := hless s a t hs ht
    have hlater := ih (hstep s a t hs ht) hrest
    rw [List.length_cons]
    omega

/-- Where every step makes it smaller by one, it tells how long a run is. -/
theorem length_add_eq {μ : S → Nat} (hless : ∀ s a s', step s a = some s' → μ s' + 1 = μ s) (h : run step s as = some s') :
    as.length + μ s' = μ s := by
  induction as generalizing s with
  | nil =>
    obtain rfl := Option.some.inj h
    exact Nat.zero_add _
  | cons a as ih =>
    obtain ⟨t, ht, hrest⟩ := Option.bind_eq_some_iff.mp h
    have hfirst := hless s a t ht
    have hlater := ih hrest
    rw [List.length_cons]
    omega

/-- So every run can be taken on until no actor has a step. -/
theorem exists_stuck {I : S → Prop} {μ : S → Nat} (hstep : ∀ s a s', I s → step s a = some s' → I s')
    (hless : ∀ s a s', I s → step s a = some s' → μ s' < μ s) (hs : I s) : ∃ s', Reachable step s s' ∧ Stuck step s' := by
  induction hn : μ s using Nat.strongRecOn generalizing s with
  | ind m ih =>
    by_cases hstuck : Stuck step s
    · exact ⟨s, Reachable.refl s, hstuck⟩
    · simp only [Stuck, not_forall] at hstuck
      obtain ⟨a, ha⟩ := hstuck
      obtain ⟨t, ht⟩ := Option.ne_none_iff_exists'.mp ha
      obtain ⟨s', ⟨as, has⟩, hend⟩ := ih (μ t) (hn ▸ hless s a t hs ht) (hstep s a t hs ht) rfl
      exact ⟨s', ⟨a :: as, by rw [run_cons ht, has]⟩, hend⟩

/-! ## Two systems -/

section

variable {S' B : Type*} {step' : S' → B → Option S'}

/-- Where each step of the one system is a step of the other or changes nothing there, its runs are runs of the other. -/
theorem Reachable.simulation {I : S → Prop} {f : S → S'} (hstep : ∀ s a s', I s → step s a = some s' → I s')
    (hsim : ∀ s a s', I s → step s a = some s' → f s' = f s ∨ ∃ b, step' (f s) b = some (f s')) (hs : I s)
    (h : Reachable step s s') : Reachable step' (f s) (f s') := by
  obtain ⟨as, has⟩ := h
  induction as generalizing s with
  | nil =>
    obtain rfl := Option.some.inj has
    exact Reachable.refl _
  | cons a as ih =>
    obtain ⟨t, ht, hrest⟩ := Option.bind_eq_some_iff.mp has
    have hlater := ih (hstep s a t hs ht) hrest
    rcases hsim s a t hs ht with hsame | ⟨b, hb⟩
    · rwa [hsame] at hlater
    · exact (Reachable.of_step hb).trans hlater

/-- Where each step of the other system can be taken by a run of the one, so can its runs. -/
theorem Reachable.lift {R : S → S' → Prop}
    (hlift : ∀ s t b t', R s t → step' t b = some t' → ∃ s', Reachable step s s' ∧ R s' t') {t t' : S'} (hR : R s t)
    (h : Reachable step' t t') : ∃ s', Reachable step s s' ∧ R s' t' := by
  obtain ⟨bs, hbs⟩ := h
  induction bs generalizing s t with
  | nil =>
    obtain rfl := Option.some.inj hbs
    exact ⟨s, Reachable.refl s, hR⟩
  | cons b bs ih =>
    obtain ⟨u, hu, hrest⟩ := Option.bind_eq_some_iff.mp hbs
    obtain ⟨s₁, hs₁, hR₁⟩ := hlift s t b u hR hu
    obtain ⟨s₂, hs₂, hR₂⟩ := ih hR₁ hrest
    exact ⟨s₂, hs₁.trans hs₂, hR₂⟩

end

/-! ## Sums over the actors -/

/-- A sum to which one actor contributes something else. -/
theorem sum_change {T α : Type*} [Fintype T] [DecidableEq T] {w w' : T → α} (f : α → Nat) (i : T)
    (h : ∀ j, j ≠ i → w' j = w j) : ∑ j, f (w' j) + f (w i) = ∑ j, f (w j) + f (w' i) := by
  have hrest : ∑ j ∈ Finset.univ.erase i, f (w' j) = ∑ j ∈ Finset.univ.erase i, f (w j) :=
    Finset.sum_congr rfl (fun j hj => by rw [h j (Finset.ne_of_mem_erase hj)])
  rw [← Finset.add_sum_erase _ (fun j => f (w' j)) (Finset.mem_univ i),
    ← Finset.add_sum_erase _ (fun j => f (w j)) (Finset.mem_univ i), hrest]
  omega

end Interleaving
