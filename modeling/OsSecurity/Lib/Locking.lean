import OsSecurity.Lib.Interleaving
import Mathlib.Data.List.Infix
import Mathlib.Order.WellFounded

/-!
# Threads that take locks

Threads `T` run straight-line code in any order of their steps. A command takes a lock, gives one back, puts something out, or touches
nothing that is shared. Code that gives back what it takes, and takes a lock only above those it has, never waits for ever: a thread
that waits would wait for one that waits for a higher lock. Code that gives back what it takes, without an order of the locks, can
still be run to its end by one thread alone as long as nobody else has a lock that it names.
-/

namespace Locking

/-- A command of a thread. -/
inductive Cmd (L O : Type*) where
  | lock (l : L)
  | unlock (l : L)
  | emit (o : O)
  | pause
  deriving DecidableEq

/-- Who has which lock, what each thread has still to do, and what was put out. -/
structure State (T L O : Type*) where
  owner : L → Option T
  code : T → List (Cmd L O)
  output : List O

variable {T L O : Type*} [DecidableEq T] [DecidableEq L]

/-- A lock can be taken while nobody has it; everything else can always be done. -/
def Cmd.Enabled (owner : L → Option T) : Cmd L O → Prop
  | .lock l => owner l = none
  | _ => True

instance (owner : L → Option T) : (c : Cmd L O) → Decidable (c.Enabled owner)
  | .lock l => inferInstanceAs (Decidable (owner l = none))
  | .unlock _ => inferInstanceAs (Decidable True)
  | .emit _ => inferInstanceAs (Decidable True)
  | .pause => inferInstanceAs (Decidable True)

/-- The owners after a command of the thread `t`. -/
def Cmd.owner (t : T) (owner : L → Option T) : Cmd L O → L → Option T
  | .lock l => Function.update owner l (some t)
  | .unlock l => Function.update owner l none
  | _ => owner

/-- What a command puts out. -/
def Cmd.output : Cmd L O → List O
  | .emit o => [o]
  | _ => []

/-- The thread does its next command. -/
def step (s : State T L O) (t : T) : Option (State T L O) :=
  match s.code t with
  | [] => none
  | c :: cs =>
    if c.Enabled s.owner then
      some { owner := c.owner t s.owner, code := Function.update s.code t cs, output := s.output ++ c.output }
    else none

variable {s s' : State T L O} {t u : T} {l : L} {c : Cmd L O} {cs xs ys : List (Cmd L O)} {ts : List T}

/-- What a step is. -/
theorem step_eq_some : step s t = some s' ↔ ∃ c cs, s.code t = c :: cs ∧ c.Enabled s.owner ∧
    s' = { owner := c.owner t s.owner, code := Function.update s.code t cs, output := s.output ++ c.output } := by
  rw [step]
  cases hcode : s.code t with
  | nil => simp
  | cons c cs =>
    by_cases hen : c.Enabled s.owner
    · simp only [if_pos hen, Option.some.injEq, List.cons.injEq]
      exact ⟨fun h => ⟨c, cs, ⟨rfl, rfl⟩, hen, h.symm⟩, fun ⟨_, _, ⟨hc, hcs⟩, _, h⟩ => hc ▸ hcs ▸ h.symm⟩
    · simp only [if_neg hen, reduceCtorEq, false_iff, not_exists, List.cons.injEq]
      rintro c' cs' ⟨⟨rfl, rfl⟩, h, -⟩
      exact hen h

theorem step_of_code (hcode : s.code t = c :: cs) (hen : c.Enabled s.owner) :
    step s t = some { owner := c.owner t s.owner, code := Function.update s.code t cs, output := s.output ++ c.output } :=
  step_eq_some.mpr ⟨c, cs, hcode, hen, rfl⟩

/-- A thread that cannot take a step has nothing to do or waits for a lock that somebody has. -/
theorem step_eq_none : step s t = none ↔ s.code t = [] ∨ ∃ l cs u, s.code t = .lock l :: cs ∧ s.owner l = some u := by
  rw [step]
  cases hcode : s.code t with
  | nil => simp
  | cons c cs =>
    cases c with
    | lock l => cases hl : s.owner l <;> simp [Cmd.Enabled, hl]
    | unlock l => simp [Cmd.Enabled]
    | emit o => simp [Cmd.Enabled]
    | pause => simp [Cmd.Enabled]

/-! ## Code gets shorter -/

/-- What a thread has still to do is the rest of what it had to do. -/
theorem code_suffix (h : Interleaving.Reachable step s s') (t : T) : s'.code t <:+ s.code t := by
  refine h.invariant (I := fun s₁ => s₁.code t <:+ s.code t) (List.suffix_refl _) ?_
  rintro s₁ u s₂ hs₁ hstep
  obtain ⟨c, cs, hcode, -, rfl⟩ := step_eq_some.mp hstep
  by_cases htu : t = u
  · subst htu
    simp only [Function.update_self]
    exact (List.suffix_cons c cs).trans (hcode ▸ hs₁)
  · simpa only [Function.update_of_ne htu] using hs₁

/-- The commands that are still to be done. -/
def State.remaining [Fintype T] (s : State T L O) : Nat := ∑ t, (s.code t).length

/-- Every step does one of them. -/
theorem remaining_step [Fintype T] (h : step s t = some s') : s'.remaining + 1 = s.remaining := by
  obtain ⟨c, cs, hcode, -, rfl⟩ := step_eq_some.mp h
  have hsum := Interleaving.sum_change List.length t (fun u hu => Function.update_of_ne (v := cs) (f := s.code) hu)
  simp only [Function.update_self, hcode, List.length_cons] at hsum
  simp only [State.remaining]
  omega

/-! ## Code that gives back what it takes -/

/-- What a thread that has the locks `held` has behind the command. -/
def Cmd.held (held : Set L) : Cmd L O → Set L
  | .lock l => insert l held
  | .unlock l => held \ {l}
  | _ => held

/-- A lock is taken by a thread that does not have it, and only above (`r`) those that it has; one that is given back is one that
it has. -/
def Cmd.Allowed (r : L → L → Prop) (held : Set L) : Cmd L O → Prop
  | .lock l => l ∉ held ∧ ∀ k ∈ held, r k l
  | .unlock l => l ∈ held
  | _ => True

/-- Code that keeps to this from the locks `held` on, and has none in the end. -/
def Nested (r : L → L → Prop) : Set L → List (Cmd L O) → Prop
  | held, [] => held = ∅
  | held, c :: cs => c.Allowed r held ∧ Nested r (c.held held) cs

/-- The locks that the thread has. -/
def State.held (s : State T L O) (t : T) : Set L := {l | s.owner l = some t}

/-- Each thread keeps to it from the locks that it has on. -/
def Disciplined (r : L → L → Prop) (s : State T L O) : Prop := ∀ t, Nested r (s.held t) (s.code t)

variable {r : L → L → Prop} {held : Set L}

/-- The first thing that the code does with the lock is to give it back. -/
def owes (l : L) : List (Cmd L O) → Bool
  | [] => false
  | .lock k :: cs => if k = l then false else owes l cs
  | .unlock k :: cs => if k = l then true else owes l cs
  | _ :: cs => owes l cs

/-- So the code tells which locks the thread has. -/
theorem Nested.mem_iff_owes (h : Nested r held cs) : l ∈ held ↔ owes l cs = true := by
  induction cs generalizing held with
  | nil =>
    have hnone : held = ∅ := h
    simp [hnone, owes]
  | cons c cs ih =>
    have hlater := ih h.2
    cases c with
    | lock k =>
      by_cases hkl : k = l
      · subst hkl
        simpa [owes] using h.1.1
      · rw [owes, if_neg hkl, ← hlater]
        simp [Cmd.held, Ne.symm hkl]
    | unlock k =>
      by_cases hkl : k = l
      · subst hkl
        simpa [owes] using (show k ∈ held from h.1)
      · rw [owes, if_neg hkl, ← hlater]
        simp [Cmd.held, Ne.symm hkl]
    | emit o => exact hlater
    | pause => exact hlater

omit [DecidableEq T] in
theorem Disciplined.owner_iff_owes (h : Disciplined r s) : s.owner l = some t ↔ owes l (s.code t) = true := (h t).mem_iff_owes

/-- The locks of the thread and those of the others after a step. -/
theorem held_of_step (hcode : s.code t = c :: cs) (hen : c.Enabled s.owner) (hallowed : c.Allowed r (s.held t))
    (h : step s t = some s') : s'.held t = c.held (s.held t) ∧ ∀ u, u ≠ t → s'.held u = s.held u := by
  obtain rfl := Option.some.inj ((step_of_code hcode hen).symm.trans h)
  cases c with
  | lock l =>
    have hfree : s.owner l = none := hen
    refine ⟨Set.ext fun k => ?_, fun u hu => Set.ext fun k => ?_⟩ <;>
      by_cases hk : k = l <;> simp [State.held, Cmd.held, Cmd.owner, hk, hfree, Ne.symm]
    exact Ne.symm hu
  | unlock l =>
    have hmine : s.owner l = some t := hallowed
    refine ⟨Set.ext fun k => ?_, fun u hu => Set.ext fun k => ?_⟩ <;>
      by_cases hk : k = l <;> simp [State.held, Cmd.held, Cmd.owner, hk, hmine]
    exact Ne.symm hu
  | emit o => exact ⟨rfl, fun _ _ => rfl⟩
  | pause => exact ⟨rfl, fun _ _ => rfl⟩

theorem Disciplined.step (h : Disciplined r s) (hstep : Locking.step s t = some s') : Disciplined r s' := by
  obtain ⟨c, cs, hcode, hen, heq⟩ := step_eq_some.mp hstep
  have ht := h t
  rw [hcode] at ht
  obtain ⟨hmine, hothers⟩ := held_of_step hcode hen ht.1 hstep
  intro u
  by_cases hu : u = t
  · subst hu
    rw [hmine, heq]
    simpa only [Function.update_self] using ht.2
  · rw [hothers u hu, heq]
    simpa only [Function.update_of_ne hu] using h u

theorem Disciplined.reachable (h : Disciplined r s) (hreach : Interleaving.Reachable Locking.step s s') : Disciplined r s' :=
  hreach.invariant h (fun _ _ _ hs hstep => hs.step hstep)

omit [DecidableEq T] [DecidableEq L] in
/-- A thread that has a lock is not at its end. -/
theorem Disciplined.code_ne_nil (h : Disciplined r s) (hl : s.owner l = some t) : s.code t ≠ [] := by
  intro hnil
  have ht := h t
  rw [hnil] at ht
  have hmem : l ∈ s.held t := hl
  rw [show s.held t = ∅ from ht] at hmem
  exact hmem

omit [DecidableEq T] [DecidableEq L] in
theorem Disciplined.owner_eq_none (h : Disciplined r s) (hdone : ∀ t, s.code t = []) (l : L) : s.owner l = none := by
  cases hl : s.owner l with
  | none => rfl
  | some t => exact absurd (hdone t) (h.code_ne_nil hl)

/-! ## Locks taken in an order -/

/-- Where no lock is above itself by way of infinitely many, a thread never waits in a state without a step: it would wait for a
thread that waits for a higher lock. -/
theorem Disciplined.no_waiter (hr : WellFounded (fun l k => r k l)) (h : Disciplined r s)
    (hstuck : Interleaving.Stuck Locking.step s) (l : L) : ∀ t cs, s.code t = .lock l :: cs → s.owner l = none := by
  induction l using hr.induction with
  | _ l ih =>
    intro t cs hcode
    cases hl : s.owner l with
    | none => rfl
    | some u =>
      rcases step_eq_none.mp (hstuck u) with hdone | ⟨k, ks, v, hwaits, hk⟩
      · exact absurd hdone (h.code_ne_nil hl)
      · have hu := h u
        rw [hwaits] at hu
        have habove : r l k := hu.1.2 l hl
        exact absurd (hk.symm.trans (ih k habove u ks hwaits)) (Option.some_ne_none v)

/-- So a state without a step is one where every thread is at its end. -/
theorem Disciplined.done_of_stuck (hr : WellFounded (fun l k => r k l)) (h : Disciplined r s)
    (hstuck : Interleaving.Stuck Locking.step s) (t : T) : s.code t = [] := by
  rcases step_eq_none.mp (hstuck t) with hdone | ⟨l, cs, u, hcode, hl⟩
  · exact hdone
  · exact absurd (hl.symm.trans (h.no_waiter hr hstuck l t cs hcode)) (Option.some_ne_none u)

/-! ## One thread alone -/

/-- A thread can do a first part of its code alone when nobody else has a lock that it takes there. The other threads have what they
had. -/
theorem Disciplined.exists_run (h : Disciplined r s) (hcode : s.code t = xs ++ ys)
    (hfree : ∀ l, .lock l ∈ xs → ∀ u, s.owner l = some u → u = t) :
    ∃ s', Interleaving.Reachable Locking.step s s' ∧ s'.code = Function.update s.code t ys ∧ ∀ u, u ≠ t → s'.held u = s.held u := by
  induction xs generalizing s with
  | nil => exact ⟨s, .refl s, by rw [show ys = s.code t from hcode.symm, Function.update_eq_self], fun _ _ => rfl⟩
  | cons c xs ih =>
    have ht := h t
    rw [hcode] at ht
    have hen : c.Enabled s.owner := by
      cases c with
      | lock l =>
        cases hl : s.owner l with
        | none => exact hl
        | some u => exact absurd (hfree l (List.mem_cons_self ..) u hl ▸ hl) ht.1.1
      | unlock l => trivial
      | emit o => trivial
      | pause => trivial
    have hstep := step_of_code hcode hen
    obtain ⟨hmine, hothers⟩ := held_of_step hcode hen ht.1 hstep
    obtain ⟨s', hreach, hcode', hothers'⟩ := ih (h.step hstep) (Function.update_self ..) (fun l hl u hu => by
      by_contra hne
      have hbefore : l ∈ s.held u := hothers u hne ▸ hu
      exact hne (hfree l (List.mem_cons_of_mem c hl) u hbefore))
    refine ⟨s', (Interleaving.Reachable.of_step hstep).trans hreach, ?_, fun u hu => (hothers' u hu).trans (hothers u hu)⟩
    rw [hcode']
    exact Function.update_idem _ _ _

/-- Where nobody else has a lock, the thread can do the rest of its code, and then all locks are free. -/
theorem Disciplined.exists_done (h : Disciplined r s) (hfree : ∀ l u, s.owner l = some u → u = t) :
    ∃ s', Interleaving.Reachable Locking.step s s' ∧ s'.code t = [] ∧ ∀ l, s'.owner l = none := by
  obtain ⟨s', hreach, hcode, hothers⟩ := h.exists_run (List.append_nil _).symm (fun l _ u hu => hfree l u hu)
  have hdone : s'.code t = [] := by rw [hcode, Function.update_self]
  refine ⟨s', hreach, hdone, fun l => ?_⟩
  cases hl : s'.owner l with
  | none => rfl
  | some u =>
    have hu : u ≠ t := fun heq => (h.reachable hreach).code_ne_nil hl (heq ▸ hdone)
    have hbefore : l ∈ s.held u := hothers u hu ▸ hl
    exact absurd (hfree l u hbefore) hu

/-- Then so can the others, one after the other. -/
theorem Disciplined.exists_all_done_of_mem (h : Disciplined r s) (hfree : ∀ l, s.owner l = none) (ts : List T) :
    ∃ s', Interleaving.Reachable Locking.step s s' ∧ ∀ t ∈ ts, s'.code t = [] := by
  induction ts generalizing s with
  | nil => exact ⟨s, .refl s, fun _ h => nomatch h⟩
  | cons t ts ih =>
    obtain ⟨s₁, hreach₁, hdone₁, hfree₁⟩ := h.exists_done (t := t) (fun l u hu => nomatch (hfree l).symm.trans hu)
    obtain ⟨s', hreach, hdone⟩ := ih (h.reachable hreach₁) hfree₁
    refine ⟨s', hreach₁.trans hreach, ?_⟩
    intro u hu
    rcases List.mem_cons.mp hu with rfl | hu
    · exact List.suffix_nil.mp (hdone₁ ▸ code_suffix hreach u)
    · exact hdone u hu

/-- Where at most one thread has locks, all threads can do the rest of their code. -/
theorem Disciplined.exists_all_done [Fintype T] (h : Disciplined r s) (hfree : ∀ l u, s.owner l = some u → u = t) :
    ∃ s', Interleaving.Reachable Locking.step s s' ∧ ∀ u, s'.code u = [] := by
  obtain ⟨s₁, hreach₁, -, hfree₁⟩ := h.exists_done hfree
  obtain ⟨s', hreach, hdone⟩ := (h.reachable hreach₁).exists_all_done_of_mem hfree₁ Finset.univ.toList
  exact ⟨s', hreach₁.trans hreach, fun u => hdone u (Finset.mem_toList.mpr (Finset.mem_univ u))⟩

end Locking
