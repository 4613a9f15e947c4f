import OsSecurity.Lib.Interleaving
import Mathlib.Logic.Function.Basic

/-!
# Critical sections under one lock

Threads share an object that a lock protects. Outside of the lock a thread takes steps of its own or asks for the lock; with the lock
it takes steps on the object, and the last of them gives the lock back. The threads take their steps in any order. Where a thread with
the lock comes to its end when it goes on alone, the system refines the one in which each critical section is a single step: it happens
when the lock is taken.
-/

namespace CriticalSection

/-- Where a thread is: outside of the lock, or at a point of the critical section. -/
inductive Place (Λ P : Type*) where
  | outside (l : Λ)
  | inside (p : P)

/-- What a thread without the lock does next. -/
inductive Next (Λ P : Type*) where
  | goto (l : Λ)
  | acquire (p : P)

/-- The code of the threads. A step outside can depend on an input, and can be impossible; a step inside is always possible. -/
structure Program (I σ Λ P : Type*) where
  next : Λ → I → Option (Next Λ P)
  inner : σ → P → σ × Place Λ P

/-- The object, the lock, and where the threads are. -/
structure State (T σ Λ P : Type*) where
  shared : σ
  owner : Option T
  thread : T → Place Λ P

/-- The state of the system of single steps. -/
structure Atomic (T σ Λ : Type*) where
  shared : σ
  thread : T → Λ

theorem Atomic.ext {T σ Λ : Type*} {a b : Atomic T σ Λ} (hshared : a.shared = b.shared) (hthread : a.thread = b.thread) : a = b := by
  cases a
  cases b
  exact congrArg₂ Atomic.mk hshared hthread

variable {T I σ Λ P : Type*} [DecidableEq T]

/-- A step of a thread. -/
def step (prog : Program I σ Λ P) (s : State T σ Λ P) (a : T × I) : Option (State T σ Λ P) :=
  match s.thread a.1 with
  | .outside l =>
    match prog.next l a.2 with
    | none => none
    | some (.goto l') => some { s with thread := Function.update s.thread a.1 (.outside l') }
    | some (.acquire p) =>
      if s.owner.isNone then some { s with owner := some a.1, thread := Function.update s.thread a.1 (.inside p) } else none
  | .inside p =>
    match prog.inner s.shared p with
    | (x, .inside p') => some { s with shared := x, thread := Function.update s.thread a.1 (.inside p') }
    | (x, .outside l) => some { shared := x, owner := none, thread := Function.update s.thread a.1 (.outside l) }

/-- A step of a thread where the critical section is a single step. -/
def atomicStep (prog : Program I σ Λ P) (finish : σ → P → σ × Λ) (s : Atomic T σ Λ) (a : T × I) : Option (Atomic T σ Λ) :=
  match prog.next (s.thread a.1) a.2 with
  | none => none
  | some (.goto l) => some { s with thread := Function.update s.thread a.1 l }
  | some (.acquire p) =>
    some { shared := (finish s.shared p).1, thread := Function.update s.thread a.1 (finish s.shared p).2 }

/-- A thread with the lock comes to its end alone, and `finish` tells how. -/
structure Finishes (prog : Program I σ Λ P) (finish : σ → P → σ × Λ) (rank : P → Nat) : Prop where
  goto : ∀ x p x' p', prog.inner x p = (x', .inside p') → finish x p = finish x' p' ∧ rank p' < rank p
  release : ∀ x p x' l, prog.inner x p = (x', .outside l) → finish x p = (x', l)

/-- The steps of a thread, one by one. -/
inductive Steps (prog : Program I σ Λ P) (s : State T σ Λ P) (t : T) (i : I) : State T σ Λ P → Prop where
  | goto {l l' : Λ} (hplace : s.thread t = .outside l) (hnext : prog.next l i = some (.goto l')) :
      Steps prog s t i { s with thread := Function.update s.thread t (.outside l') }
  | acquire {l : Λ} {p : P} (hplace : s.thread t = .outside l) (hnext : prog.next l i = some (.acquire p))
      (hfree : s.owner = none) :
      Steps prog s t i { s with owner := some t, thread := Function.update s.thread t (.inside p) }
  | inner {p p' : P} {x : σ} (hplace : s.thread t = .inside p) (hinner : prog.inner s.shared p = (x, .inside p')) :
      Steps prog s t i { s with shared := x, thread := Function.update s.thread t (.inside p') }
  | release {p : P} {l : Λ} {x : σ} (hplace : s.thread t = .inside p) (hinner : prog.inner s.shared p = (x, .outside l)) :
      Steps prog s t i { shared := x, owner := none, thread := Function.update s.thread t (.outside l) }

/-- The thread with the lock is inside, and no other one is. -/
def Exclusive (s : State T σ Λ P) : Prop := ∀ t, s.owner = some t ↔ ∃ p, s.thread t = .inside p

variable {prog : Program I σ Λ P} {finish : σ → P → σ × Λ} {rank : P → Nat} {s s' : State T σ Λ P} {t u : T} {i : I} {l : Λ} {p : P}

theorem steps_of_step (h : step prog s (t, i) = some s') : Steps prog s t i s' := by
  rw [step] at h
  cases hplace : s.thread t with
  | outside l =>
    simp only [hplace] at h
    cases hnext : prog.next l i with
    | none => simp [hnext] at h
    | some next =>
      simp only [hnext] at h
      cases next with
      | goto l' =>
        obtain rfl := Option.some.inj h
        exact .goto hplace hnext
      | acquire p =>
        dsimp only at h
        split at h
        · rename_i hfree
          obtain rfl := Option.some.inj h
          exact .acquire hplace hnext (Option.isNone_iff_eq_none.mp hfree)
        · exact nomatch h
  | inside p =>
    simp only [hplace] at h
    split at h
    · rename_i hinner
      obtain rfl := Option.some.inj h
      exact .inner hplace hinner
    · rename_i hinner
      obtain rfl := Option.some.inj h
      exact .release hplace hinner

theorem step_of_steps (h : Steps prog s t i s') : step prog s (t, i) = some s' := by
  cases h with
  | goto hplace hnext => simp [step, hplace, hnext]
  | acquire hplace hnext hfree => simp [step, hplace, hnext, hfree]
  | inner hplace hinner => simp [step, hplace, hinner]
  | release hplace hinner => simp [step, hplace, hinner]

/-- How the place of the thread that takes a step changes. -/
inductive Moves (prog : Program I σ Λ P) (i : I) : Place Λ P → Place Λ P → Prop where
  | goto {l l' : Λ} (hnext : prog.next l i = some (.goto l')) : Moves prog i (.outside l) (.outside l')
  | acquire {l : Λ} {p : P} (hnext : prog.next l i = some (.acquire p)) : Moves prog i (.outside l) (.inside p)
  | inner {p p' : P} {x x' : σ} (hinner : prog.inner x p = (x', .inside p')) : Moves prog i (.inside p) (.inside p')
  | release {p : P} {l : Λ} {x x' : σ} (hinner : prog.inner x p = (x', .outside l)) : Moves prog i (.inside p) (.outside l)

/-- The others stay where they are. -/
theorem moves_of_step (h : step prog s (t, i) = some s') :
    Moves prog i (s.thread t) (s'.thread t) ∧ ∀ u, u ≠ t → s'.thread u = s.thread u := by
  cases steps_of_step h with
  | goto hplace hnext =>
    rw [hplace]
    exact ⟨by simpa only [Function.update_self] using .goto hnext, fun u hu => Function.update_of_ne hu _ _⟩
  | acquire hplace hnext hfree =>
    rw [hplace]
    exact ⟨by simpa only [Function.update_self] using .acquire hnext, fun u hu => Function.update_of_ne hu _ _⟩
  | inner hplace hinner =>
    rw [hplace]
    exact ⟨by simpa only [Function.update_self] using .inner hinner, fun u hu => Function.update_of_ne hu _ _⟩
  | release hplace hinner =>
    rw [hplace]
    exact ⟨by simpa only [Function.update_self] using .release hinner, fun u hu => Function.update_of_ne hu _ _⟩

/-- What each move keeps of the place of a thread holds of all threads in every reachable state. -/
theorem forall_thread_of_reachable {Q : Place Λ P → Prop} (hmove : ∀ i a b, Q a → Moves prog i a b → Q b)
    (hs : ∀ t, Q (s.thread t)) (h : Interleaving.Reachable (step prog) s s') (t : T) : Q (s'.thread t) := by
  refine (h.invariant (I := fun s => ∀ t, Q (s.thread t)) hs ?_) t
  rintro s₁ ⟨u, i⟩ s₂ hs₁ hstep v
  obtain ⟨hmoves, hothers⟩ := moves_of_step hstep
  by_cases hv : v = u
  · exact hv ▸ hmove i _ _ (hs₁ u) hmoves
  · exact (hothers v hv).symm ▸ hs₁ v

/-! ## Mutual exclusion -/

omit [DecidableEq T] in
theorem Exclusive.outside (h : Exclusive s) (hu : s.owner ≠ some u) : ∃ l, s.thread u = .outside l := by
  cases hplace : s.thread u with
  | outside l => exact ⟨l, rfl⟩
  | inside p => exact absurd ((h u).mpr ⟨p, hplace⟩) hu

omit [DecidableEq T] in
/-- A thread outside does not have the lock. -/
theorem Exclusive.owner_ne (h : Exclusive s) (ht : s.thread t = .outside l) : s.owner ≠ some t := by
  intro howner
  obtain ⟨p, hp⟩ := (h t).mp howner
  exact nomatch hp.symm.trans ht

theorem Exclusive.step (h : Exclusive s) (hstep : CriticalSection.step prog s (t, i) = some s') : Exclusive s' := by
  intro u
  have hu := h u
  cases steps_of_step hstep with
  | goto hplace hnext =>
    by_cases hut : u = t
    · subst hut
      simpa using h.owner_ne hplace
    · simpa [Function.update_of_ne hut] using hu
  | acquire hplace hnext hfree =>
    by_cases hut : u = t
    · subst hut
      simp
    · rw [hfree] at hu
      simpa [Function.update_of_ne hut, Ne.symm hut] using hu
  | inner hplace hinner =>
    by_cases hut : u = t
    · subst hut
      simpa using hu.mpr ⟨_, hplace⟩
    · simpa [Function.update_of_ne hut] using hu
  | release hplace hinner =>
    have hmine := (h t).mpr ⟨_, hplace⟩
    by_cases hut : u = t
    · subst hut
      simp
    · rw [hmine] at hu
      simpa [Function.update_of_ne hut, Ne.symm hut] using hu

theorem Exclusive.reachable (h : Exclusive s) (hreach : Interleaving.Reachable (CriticalSection.step prog) s s') : Exclusive s' :=
  hreach.invariant h (fun _ _ _ hs hstep => hs.step hstep)

/-! ## Each critical section is one step -/

/-- The state seen as one of single steps: the critical section that has begun is over. -/
def State.abs (finish : σ → P → σ × Λ) (s : State T σ Λ P) : Atomic T σ Λ where
  shared :=
    match s.owner.map s.thread with
    | some (.inside p) => (finish s.shared p).1
    | _ => s.shared
  thread t :=
    match s.thread t with
    | .outside l => l
    | .inside p => (finish s.shared p).2

omit [DecidableEq T] in
theorem abs_shared_of_free (hfree : s.owner = none) : (s.abs finish).shared = s.shared := by
  simp [State.abs, hfree]

omit [DecidableEq T] in
theorem abs_shared_of_inside (howner : s.owner = some t) (hplace : s.thread t = .inside p) :
    (s.abs finish).shared = (finish s.shared p).1 := by
  simp [State.abs, howner, hplace]

omit [DecidableEq T] in
theorem abs_thread_outside (hplace : s.thread t = .outside l) : (s.abs finish).thread t = l := by
  simp [State.abs, hplace]

omit [DecidableEq T] in
theorem abs_thread_inside (hplace : s.thread t = .inside p) : (s.abs finish).thread t = (finish s.shared p).2 := by
  simp [State.abs, hplace]

/-- While `t` has the lock or nobody has it, the others are outside, so their places do not depend on the object. -/
theorem abs_thread_of_ne (h : Exclusive s) (howner : s.owner = some t ∨ s.owner = none) (hu : u ≠ t) (x : σ) (owner : Option T)
    (place : Place Λ P) :
    ((State.mk x owner (Function.update s.thread t place)).abs finish).thread u = (s.abs finish).thread u := by
  have hnot : s.owner ≠ some u := by
    rcases howner with ht | hnone
    · rw [ht]
      exact fun heq => hu (Option.some.inj heq).symm
    · rw [hnone]
      exact nofun
  obtain ⟨l, hl⟩ := h.outside hnot
  rw [abs_thread_outside hl]
  exact abs_thread_outside (by rw [← hl]; exact Function.update_of_ne hu _ _)

/-- A step with the lock changes nothing of that. -/
theorem abs_of_inside (hfin : Finishes prog finish rank) (h : Exclusive s) (hplace : s.thread t = .inside p)
    (hstep : step prog s (t, i) = some s') : s'.abs finish = s.abs finish := by
  have hmine := (h t).mpr ⟨_, hplace⟩
  cases steps_of_step hstep with
  | goto houtside hnext => exact nomatch hplace.symm.trans houtside
  | acquire houtside hnext hfree => exact nomatch hplace.symm.trans houtside
  | @inner p₁ p' x hinside hinner =>
    obtain rfl := Place.inside.inj (hplace.symm.trans hinside)
    have hsame := (hfin.goto _ _ _ _ hinner).1
    refine Atomic.ext ?_ (funext fun u => ?_)
    · rw [abs_shared_of_inside hmine hplace, hsame]
      exact abs_shared_of_inside hmine (Function.update_self ..)
    · by_cases hu : u = t
      · subst hu
        rw [abs_thread_inside hplace, hsame]
        exact abs_thread_inside (Function.update_self ..)
      · exact abs_thread_of_ne h (.inl hmine) hu _ _ _
  | @release p₁ l x hinside hinner =>
    obtain rfl := Place.inside.inj (hplace.symm.trans hinside)
    have hend := hfin.release _ _ _ _ hinner
    refine Atomic.ext ?_ (funext fun u => ?_)
    · rw [abs_shared_of_inside hmine hplace, hend]
      exact abs_shared_of_free rfl
    · by_cases hu : u = t
      · subst hu
        rw [abs_thread_inside hplace, hend]
        exact abs_thread_outside (Function.update_self ..)
      · exact abs_thread_of_ne h (.inl hmine) hu _ _ _

/-- A step outside, or the one that takes the lock, is a step of the system of single steps. -/
theorem abs_of_outside (h : Exclusive s) (hplace : s.thread t = .outside l) (hstep : step prog s (t, i) = some s') :
    atomicStep prog finish (s.abs finish) (t, i) = some (s'.abs finish) := by
  cases steps_of_step hstep with
  | @goto l₁ l' houtside hnext =>
    rw [atomicStep, abs_thread_outside houtside, hnext]
    refine congrArg some (Atomic.ext ?_ (funext fun u => ?_))
    · cases howner : s.owner with
      | none => simp [State.abs, howner]
      | some v =>
        have hv : v ≠ t := fun heq => h.owner_ne hplace (heq ▸ howner)
        simp [State.abs, howner, Function.update_of_ne hv]
    · by_cases hu : u = t
      · subst hu
        simp [State.abs]
      · simp [State.abs, Function.update_of_ne hu]
  | @acquire l₁ p houtside hnext hfree =>
    rw [atomicStep, abs_thread_outside houtside, hnext, abs_shared_of_free hfree]
    refine congrArg some (Atomic.ext ?_ (funext fun u => ?_)) <;> dsimp only
    · rw [abs_shared_of_inside (t := t) (p := p) rfl (Function.update_self ..)]
    · by_cases hu : u = t
      · subst hu
        rw [Function.update_self, abs_thread_inside (p := p) (Function.update_self ..)]
      · rw [Function.update_of_ne hu]
        exact (abs_thread_of_ne h (.inr hfree) hu _ _ _).symm
  | inner hinside hinner => exact nomatch hplace.symm.trans hinside
  | release hinside hinner => exact nomatch hplace.symm.trans hinside

/-- So a step of the threads changes nothing of that, or it is a step of the system of single steps. -/
theorem abs_step (hfin : Finishes prog finish rank) (h : Exclusive s) (hstep : step prog s (t, i) = some s') :
    s'.abs finish = s.abs finish ∨ atomicStep prog finish (s.abs finish) (t, i) = some (s'.abs finish) := by
  cases hplace : s.thread t with
  | outside l => exact Or.inr (abs_of_outside h hplace hstep)
  | inside p => exact Or.inl (abs_of_inside hfin h hplace hstep)

/-- And a run of the threads is a run of single steps. -/
theorem abs_reachable (hfin : Finishes prog finish rank) (h : Exclusive s) (hreach : Interleaving.Reachable (step prog) s s') :
    Interleaving.Reachable (atomicStep prog finish) (s.abs finish) (s'.abs finish) :=
  hreach.simulation (fun _ _ _ hs hstep => hs.step hstep)
    (fun _ a _ hs hstep => (abs_step hfin hs hstep).imp id (fun hatomic => ⟨a, hatomic⟩)) h

/-! ## The way back -/

/-- A thread with the lock goes on until it has given it back, if it takes the next steps. -/
theorem exists_release (hfin : Finishes prog finish rank) (h : Exclusive s) (hplace : s.thread t = .inside p) (i : I) :
    ∃ k ≤ rank p + 1, ∃ s', Interleaving.run (step prog) s (List.replicate k (t, i)) = some s' ∧ s'.owner = none ∧
      s'.abs finish = s.abs finish := by
  induction hr : rank p using Nat.strongRecOn generalizing s p with
  | ind r ih =>
    cases hinner : prog.inner s.shared p with
    | mk x place =>
      cases place with
      | inside p' =>
        have hsteps : Steps prog s t i _ := .inner hplace hinner
        have hstep := step_of_steps hsteps
        obtain ⟨k, hk, s', hrun, hfree, habs⟩ := ih (rank p') (hr ▸ (hfin.goto _ _ _ _ hinner).2) (h.step hstep)
          (Function.update_self ..) rfl
        have hless := (hfin.goto _ _ _ _ hinner).2
        refine ⟨k + 1, by omega, s', ?_, hfree, habs.trans (abs_of_inside hfin h hplace hstep)⟩
        rw [List.replicate_succ, Interleaving.run_cons hstep, hrun]
      | outside l =>
        have hsteps : Steps prog s t i _ := .release hplace hinner
        have hstep := step_of_steps hsteps
        exact ⟨1, by omega, _, Interleaving.run_cons hstep, rfl, abs_of_inside hfin h hplace hstep⟩

/-- In any order of the steps of all threads, the one with the lock has given it back before it has taken more steps than its rank. -/
theorem released_of_count (hfin : Finishes prog finish rank) (hplace : s.thread t = .inside p) {as : List (T × I)}
    (hrun : Interleaving.run (step prog) s as = some s') (hcount : rank p < as.countP (fun a => a.1 == t)) :
    ∃ before after s₁, as = before ++ after ∧ Interleaving.run (step prog) s before = some s₁ ∧ s₁.owner = none := by
  induction as generalizing s p with
  | nil => exact absurd hcount (Nat.not_lt_zero _)
  | cons a as ih =>
    obtain ⟨u, i⟩ := a
    obtain ⟨s₁, hstep, hrest⟩ := Option.bind_eq_some_iff.mp hrun
    have hlater : (∃ before after s₂, as = before ++ after ∧ Interleaving.run (step prog) s₁ before = some s₂ ∧ s₂.owner = none) →
        ∃ before after s₂, (u, i) :: as = before ++ after ∧ Interleaving.run (step prog) s before = some s₂ ∧ s₂.owner = none := by
      rintro ⟨before, after, s₂, rfl, hbefore, hfree⟩
      exact ⟨(u, i) :: before, after, s₂, rfl, (Interleaving.run_cons hstep).trans hbefore, hfree⟩
    by_cases hu : u = t
    · subst hu
      rw [List.countP_cons_of_pos (by simp)] at hcount
      cases steps_of_step hstep with
      | goto houtside _ => cases hplace.symm.trans houtside
      | acquire houtside _ _ => cases hplace.symm.trans houtside
      | @inner p₁ p' x hinside hinner =>
        obtain rfl := Place.inside.inj (hplace.symm.trans hinside)
        have hless := (hfin.goto _ _ _ _ hinner).2
        exact hlater (ih (Function.update_self ..) hrest (by omega))
      | @release p₁ l x hinside hinner => exact hlater ⟨[], as, _, rfl, rfl, rfl⟩
    · rw [List.countP_cons_of_neg (by simpa using hu)] at hcount
      have hsame : s₁.thread t = .inside p := ((moves_of_step hstep).2 t (Ne.symm hu)).trans hplace
      exact hlater (ih hsame hrest hcount)

/-- Where the lock is free, a step of the system of single steps can be taken by the threads, and the lock is free again. -/
theorem exists_of_atomicStep (hfin : Finishes prog finish rank) (h : Exclusive s) (hfree : s.owner = none) {a' : Atomic T σ Λ}
    (hstep : atomicStep prog finish (s.abs finish) (t, i) = some a') :
    ∃ s', Interleaving.Reachable (step prog) s s' ∧ s'.owner = none ∧ s'.abs finish = a' := by
  obtain ⟨l, hplace⟩ := h.outside (u := t) (by rw [hfree]; exact nofun)
  have hatomic := hstep
  rw [atomicStep, abs_thread_outside hplace] at hatomic
  cases hnext : prog.next l i with
  | none =>
    rw [hnext] at hatomic
    exact nomatch hatomic
  | some next =>
    cases next with
    | goto l' =>
      have hsteps : Steps prog s t i _ := .goto hplace hnext
      have hfirst := step_of_steps hsteps
      exact ⟨_, .of_step hfirst, hfree, Option.some.inj ((abs_of_outside h hplace hfirst).symm.trans hstep)⟩
    | acquire p =>
      have hsteps : Steps prog s t i _ := .acquire hplace hnext hfree
      have hfirst := step_of_steps hsteps
      obtain ⟨k, -, s', hrun, hfree', habs⟩ := exists_release hfin (h.step hfirst) (t := t) (Function.update_self ..) i
      exact ⟨s', (Interleaving.Reachable.of_step hfirst).trans ⟨_, hrun⟩, hfree',
        habs.trans (Option.some.inj ((abs_of_outside h hplace hfirst).symm.trans hstep))⟩

/-- And so can a run of single steps. -/
theorem exists_of_atomic_reachable (hfin : Finishes prog finish rank) (h : Exclusive s) (hfree : s.owner = none) {a' : Atomic T σ Λ}
    (hreach : Interleaving.Reachable (atomicStep prog finish) (s.abs finish) a') :
    ∃ s', Interleaving.Reachable (step prog) s s' ∧ s'.owner = none ∧ s'.abs finish = a' := by
  obtain ⟨s', hs', -, hfree', habs⟩ := Interleaving.Reachable.lift
    (R := fun s a => Exclusive s ∧ s.owner = none ∧ s.abs finish = a)
    (fun s a b a' ⟨hs, hsfree, habs⟩ hstep => by
      subst habs
      obtain ⟨s', hreach', hfree', habs'⟩ := exists_of_atomicStep hfin hs hsfree hstep
      exact ⟨s', hreach', hs.reachable hreach', hfree', habs'⟩) ⟨h, hfree, rfl⟩ hreach
  exact ⟨s', hs', hfree', habs⟩

/-! ## Without a step -/

/-- A thread cannot take a step when it is outside and has nothing to do, or asks for a lock that is taken. -/
theorem step_eq_none_iff : step prog s (t, i) = none ↔
    ∃ l, s.thread t = .outside l ∧
      (prog.next l i = none ∨ (∃ p, prog.next l i = some (.acquire p)) ∧ s.owner ≠ none) := by
  rw [step]
  cases hplace : s.thread t with
  | inside p =>
    dsimp only
    split <;> simp
  | outside l =>
    simp only [Place.outside.injEq, exists_eq_left']
    cases hnext : prog.next l i with
    | none => simp
    | some next =>
      cases next with
      | goto l' => simp
      | acquire p => cases howner : s.owner <;> simp

/-- Where a set of threads has no step, and the thread with the lock is among them, the lock is free and none of them has anything
to do. -/
theorem next_eq_none_of_stuck [Nonempty I] (h : Exclusive s) (A : T → Prop) (howner : ∀ t, s.owner = some t → A t)
    (hstuck : ∀ t i, A t → step prog s (t, i) = none) :
    s.owner = none ∧ ∀ t, A t → ∃ l, s.thread t = .outside l ∧ ∀ i, prog.next l i = none := by
  have hfree : s.owner = none := by
    cases hheld : s.owner with
    | none => rfl
    | some t =>
      obtain ⟨p, hp⟩ := (h t).mp hheld
      obtain ⟨l, hl, -⟩ := step_eq_none_iff.mp (hstuck t (Classical.arbitrary I) (howner t hheld))
      exact nomatch hp.symm.trans hl
  refine ⟨hfree, fun t ht => ?_⟩
  obtain ⟨l, hl⟩ := h.outside (u := t) (by rw [hfree]; exact nofun)
  refine ⟨l, hl, fun i => ?_⟩
  obtain ⟨l', hl', hnone | ⟨-, htaken⟩⟩ := step_eq_none_iff.mp (hstuck t i ht)
  · exact Place.outside.inj (hl'.symm.trans hl) ▸ hnone
  · exact absurd hfree htaken

end CriticalSection
