import Mathlib.Data.List.Basic
import Mathlib.Logic.Function.Iterate

/-!
# Runs of a deterministic system

A system takes actions one after the other: `step s a` is the state after action `a` and what the action answers. An invariant
kept by every step holds after every run, and two runs of the same actions from related states give an observer the same
answers when every step keeps the relation and answers the observer alike (the unwinding argument of noninterference).
-/

namespace Runs

variable {S A O : Type*} (step : S → A → S × O)

/-- The state after a run. -/
def final (s : S) (as : List A) : S := as.foldl (fun s a => (step s a).1) s

/-- The actions of a run, each with its answer. -/
def trace : S → List A → List (A × O)
  | _, [] => []
  | s, a :: as => (a, (step s a).2) :: trace (step s a).1 as

@[simp] theorem final_nil (s : S) : final step s [] = s := rfl

@[simp] theorem final_cons (s : S) (a : A) (as : List A) : final step s (a :: as) = final step (step s a).1 as := rfl

/-- The last action. -/
theorem final_concat (s : S) (as : List A) (a : A) : final step s (as ++ [a]) = (step (final step s as) a).1 := by
  rw [final, List.foldl_concat]
  rfl

@[simp] theorem trace_nil (s : S) : trace step s [] = [] := rfl

@[simp] theorem trace_cons (s : S) (a : A) (as : List A) :
    trace step s (a :: as) = (a, (step s a).2) :: trace step (step s a).1 as := rfl

/-- The trace of a run that goes on. -/
theorem trace_append (s : S) (as bs : List A) :
    trace step s (as ++ bs) = trace step s as ++ trace step (final step s as) bs := by
  induction as generalizing s with
  | nil => rfl
  | cons a as ih => rw [List.cons_append, trace_cons, trace_cons, List.cons_append, ih, final_cons]

/-- The last answer. -/
theorem trace_concat (s : S) (as : List A) (a : A) :
    trace step s (as ++ [a]) = trace step s as ++ [(a, (step (final step s as) a).2)] := trace_append step s as [a]

/-- The actions of a trace are those of the run. -/
@[simp] theorem trace_map_fst (s : S) (as : List A) : (trace step s as).map (·.1) = as := by
  induction as generalizing s with
  | nil => rfl
  | cons a as ih => rw [trace_cons, List.map_cons, ih]

@[simp] theorem length_trace (s : S) (as : List A) : (trace step s as).length = as.length := by
  rw [← List.length_map (·.1), trace_map_fst]

/-- The event of an action in a run. -/
theorem getElem?_trace (s : S) (as : List A) (a : A) (bs : List A) :
    (trace step s (as ++ a :: bs))[as.length]? = some (a, (step (final step s as) a).2) := by
  rw [trace_append, ← length_trace step s as, List.getElem?_append_right (Nat.le_refl _), Nat.sub_self]
  rfl

/-- An event of a run is the answer to its action in the state the actions before it lead to. -/
theorem trace_eq_append_cons {s : S} {as : List A} {t u : List (A × O)} {e : A × O} (h : trace step s as = t ++ e :: u) :
    trace step s (t.map (·.1)) = t ∧ (step (final step s (t.map (·.1))) e.1).2 = e.2 := by
  induction t generalizing s as with
  | nil =>
    cases as with
    | nil => nomatch h
    | cons a as =>
      obtain ⟨rfl, -⟩ := List.cons.inj h
      exact ⟨rfl, rfl⟩
  | cons e' t ih =>
    cases as with
    | nil => nomatch h
    | cons a as =>
      obtain ⟨rfl, hrest⟩ := List.cons.inj h
      obtain ⟨htrace, hlast⟩ := ih hrest
      exact ⟨congrArg _ htrace, hlast⟩

variable {step}

/-- An invariant kept by every allowed action holds after every run of allowed actions. -/
theorem final_invariant {I : S → Prop} {P : A → Prop} (hstep : ∀ s a, P a → I s → I (step s a).1) {s : S} (hs : I s)
    {as : List A} (has : ∀ a ∈ as, P a) : I (final step s as) := by
  induction as generalizing s with
  | nil => exact hs
  | cons a as ih =>
    exact ih (hstep s a (has a List.mem_cons_self) hs) (fun b hb => has b (List.mem_cons_of_mem a hb))

/-- A property of every answer given under an invariant holds of every answer of a run. -/
theorem trace_invariant {I : S → Prop} {P : A → Prop} {Q : A → O → Prop} (hstep : ∀ s a, P a → I s → I (step s a).1)
    (hout : ∀ s a, P a → I s → Q a (step s a).2) {s : S} (hs : I s) {as : List A} (has : ∀ a ∈ as, P a) :
    ∀ e ∈ trace step s as, Q e.1 e.2 := by
  induction as generalizing s with
  | nil => simp
  | cons a as ih =>
    have ha := has a List.mem_cons_self
    intro e he
    rcases List.mem_cons.mp he with rfl | he
    · exact hout s a ha hs
    · exact ih (hstep s a ha hs) (fun b hb => has b (List.mem_cons_of_mem a hb)) e he

/-- A simulation: two systems whose related states answer an action of the one and its image under `f` alike, up to `g`, and stay
related. Then so do their runs. -/
theorem simulation {S' A' O' : Type*} {step' : S' → A' → S' × O'} {R : S → S' → Prop} {P : A → Prop} (f : A → A') (g : O → O')
    (hstep : ∀ s s' a, P a → R s s' → R (step s a).1 (step' s' (f a)).1 ∧ g (step s a).2 = (step' s' (f a)).2)
    {s : S} {s' : S'} (hs : R s s') {as : List A} (has : ∀ a ∈ as, P a) :
    R (final step s as) (final step' s' (as.map f)) ∧
      (trace step s as).map (fun e => (f e.1, g e.2)) = trace step' s' (as.map f) := by
  induction as generalizing s s' with
  | nil => exact ⟨hs, rfl⟩
  | cons a as ih =>
    obtain ⟨hnext, hout⟩ := hstep s s' a (has a List.mem_cons_self) hs
    obtain ⟨hlast, htrace⟩ := ih hnext (fun b hb => has b (List.mem_cons_of_mem a hb))
    refine ⟨hlast, ?_⟩
    rw [List.map_cons, trace_cons, trace_cons, List.map_cons, htrace, hout]

/-- Runs of actions that differ in something no step of the one run looks at: they end in the same state and answer alike. -/
theorem run_congr {R : A → A → Prop} {s : S} {as as' : List A} (has : List.Forall₂ R as as')
    (h : ∀ before a after a', as = before ++ a :: after → R a a' →
      step (final step s before) a = step (final step s before) a') :
    final step s as = final step s as' ∧ (trace step s as).map (·.2) = (trace step s as').map (·.2) := by
  induction has generalizing s with
  | nil => exact ⟨rfl, rfl⟩
  | @cons a a' as as' ha _ ih =>
    have hstep : step s a = step s a' := h [] a as a' rfl ha
    obtain ⟨hlast, htrace⟩ := ih (s := (step s a).1) (fun before b after b' hb => h (a :: before) b after b' (congrArg _ hb))
    rw [final_cons, final_cons, trace_cons, trace_cons, List.map_cons, List.map_cons, ← hstep, htrace]
    exact ⟨hlast, rfl⟩

/-- A counter that goes up by one with the answers that satisfy `p` counts them. -/
theorem final_count (n : S → Nat) (p : O → Bool)
    (hstep : ∀ s a, n (step s a).1 = n s + if p (step s a).2 = true then 1 else 0) (s : S) (as : List A) :
    n (final step s as) = n s + (trace step s as).countP (fun e => p e.2) := by
  induction as generalizing s with
  | nil => rfl
  | cons a as ih =>
    rw [final_cons, ih, hstep, trace_cons, List.countP_cons, Nat.add_assoc, Nat.add_comm (List.countP _ _)]

/-- A counter that goes up by one with every action counts the actions. -/
theorem final_clock (n : S → Nat) (hstep : ∀ s a, n (step s a).1 = n s + 1) (s : S) (as : List A) :
    n (final step s as) = n s + as.length := by
  induction as generalizing s with
  | nil => rfl
  | cons a as ih => rw [final_cons, ih, hstep, List.length_cons, Nat.add_assoc, Nat.add_comm 1]

/-- Unwinding: runs of the same actions from related states answer the actions of an observer alike. -/
theorem unwinding {R : S → S → Prop} {P : A → Prop} (low : A → Bool)
    (hstep : ∀ s t a, P a → R s t → R (step s a).1 (step t a).1)
    (hout : ∀ s t a, P a → R s t → low a = true → (step s a).2 = (step t a).2) {s t : S} (hst : R s t) {as : List A}
    (has : ∀ a ∈ as, P a) :
    (trace step s as).filter (fun e => low e.1) = (trace step t as).filter (fun e => low e.1) := by
  induction as generalizing s t with
  | nil => rfl
  | cons a as ih =>
    have ha := has a List.mem_cons_self
    have htail := ih (hstep s t a ha hst) (fun b hb => has b (List.mem_cons_of_mem a hb))
    simp only [trace_cons, List.filter_cons]
    by_cases hlow : low a = true
    · rw [if_pos hlow, if_pos hlow, htail, hout s t a ha hst hlow]
    · rw [if_neg hlow, if_neg hlow, htail]

/-- A component that only its own actions change, and these by a function of it as long as `P` holds of it: a run takes it as
many steps on as it has such actions. -/
theorem component_iterate {C : Type*} (proj : S → C) (own : A → Bool) (f : C → C) {P : C → Prop}
    (hown : ∀ s a, own a = true → P (proj s) → proj (step s a).1 = f (proj s))
    (hother : ∀ s a, own a = false → proj (step s a).1 = proj s) {s : S} {as : List A}
    (h : ∀ k < as.countP own, P (f^[k] (proj s))) : proj (final step s as) = f^[as.countP own] (proj s) := by
  induction as generalizing s with
  | nil => rfl
  | cons a as ih =>
    rw [final_cons]
    cases ha : own a with
    | true =>
      rw [List.countP_cons_of_pos ha] at h ⊢
      have hnext := hown s a ha (h 0 (Nat.succ_pos _))
      have hlater : ∀ k < as.countP own, P (f^[k] (proj (step s a).1)) := by
        intro k hk
        rw [hnext]
        exact h (k + 1) (Nat.succ_lt_succ hk)
      rw [ih hlater, hnext]
      rfl
    | false =>
      have ha' : ¬ own a = true := by simp [ha]
      rw [List.countP_cons_of_neg ha'] at h ⊢
      have hsame := hother s a ha
      rw [← hsame] at h ⊢
      exact ih h

/-- What holds of an element of a list and those before it, position by position, holds however the list is split. -/
theorem forall_split {P : List A → A → Prop} {as : List A} (h : ∀ n : Fin as.length, P (as.take n) (as.get n)) {before : List A} {a : A}
    {after : List A} (hsplit : as = before ++ a :: after) : P before a := by
  subst hsplit
  have hlt : before.length < (before ++ a :: after).length := by simp
  have hat := h ⟨before.length, hlt⟩
  simpa using hat

end Runs
