import OsSecurity.Scheduler.RaceDemo

/-!
# Helpers about the race demonstration

What each step does, and what all of them keep. The thread that holds `pcb_lock` is the only one between its load and its store of the
safe counter, so this one counts the increments that were made.
-/

namespace OsSecurity.Scheduler

/-- A thread is between `pthread_mutex_lock` and `pthread_mutex_unlock`. -/
def WorkerPc.inLock : WorkerPc → Bool
  | .loadSafe _ | .storeSafe _ _ | .unlock _ => true
  | .uncreated | .test _ | .load _ | .store _ _ | .lock _ | .exited => false

/-- The increments of the safe counter that a thread has made. -/
def WorkerPc.safeDone (m : Nat) : WorkerPc → Nat
  | .uncreated => 0
  | .test i | .load i | .store i _ | .lock i | .loadSafe i | .storeSafe i _ => i
  | .unlock i => i + 1
  | .exited => m

variable {n : Nat}

namespace RaceAux

open Interleaving

variable {m : Nat} {s s' : RaceState n} {id : Fin n}

/-- The thread goes to its new place. -/
@[simp] theorem goto_workers_self (s : RaceState n) (id : Fin n) (pc : WorkerPc) : (s.goto id pc).workers id = pc := by
  simp [RaceState.goto]

/-- The other threads stay where they are. -/
@[simp] theorem goto_workers_ne (s : RaceState n) {id t : Fin n} (pc : WorkerPc) (h : t ≠ id) :
    (s.goto id pc).workers t = s.workers t := by
  simp [RaceState.goto, h]

/-! ## What a step does -/

/-- The steps of a thread. -/
inductive WorkerEffect (m : Nat) (s : RaceState n) (id : Fin n) : RaceState n → Prop where
  | enter (i : Nat) : s.workers id = .test i → i < m → WorkerEffect m s id (s.goto id (.load i))
  | leave (i : Nat) : s.workers id = .test i → ¬i < m → WorkerEffect m s id (s.goto id .exited)
  | load (i : Nat) : s.workers id = .load i → WorkerEffect m s id (s.goto id (.store i s.sharedCounterUnsafe))
  | store (i temp : Nat) : s.workers id = .store i temp →
      WorkerEffect m s id ({ s with sharedCounterUnsafe := temp + 1 }.goto id (.lock i))
  | lock (i : Nat) : s.workers id = .lock i → s.pcbLock = none →
      WorkerEffect m s id ({ s with pcbLock := some id }.goto id (.loadSafe i))
  | loadSafe (i : Nat) : s.workers id = .loadSafe i → WorkerEffect m s id (s.goto id (.storeSafe i s.sharedCounterSafe))
  | storeSafe (i value : Nat) : s.workers id = .storeSafe i value →
      WorkerEffect m s id ({ s with sharedCounterSafe := value + 1 }.goto id (.unlock i))
  | unlock (i : Nat) : s.workers id = .unlock i → WorkerEffect m s id ({ s with pcbLock := none }.goto id (.test (i + 1)))

/-- A step of a thread has one of these effects. -/
theorem counterWorker_effect (h : counterWorker m s id = some s') : WorkerEffect m s id s' := by
  unfold counterWorker at h
  cases hpc : s.workers id with
  | uncreated =>
    rw [hpc] at h
    nomatch h
  | test i =>
    rw [hpc] at h
    obtain rfl := Option.some.inj h
    by_cases hi : i < m
    · rw [if_pos hi]
      exact .enter i hpc hi
    · rw [if_neg hi]
      exact .leave i hpc hi
  | load i =>
    rw [hpc] at h
    exact Option.some.inj h ▸ .load i hpc
  | store i temp =>
    rw [hpc] at h
    exact Option.some.inj h ▸ .store i temp hpc
  | lock i =>
    rw [hpc] at h
    by_cases hfree : s.pcbLock = none
    · simp only [if_pos hfree] at h
      exact Option.some.inj h ▸ .lock i hpc hfree
    · simp only [if_neg hfree] at h
      nomatch h
  | loadSafe i =>
    rw [hpc] at h
    exact Option.some.inj h ▸ .loadSafe i hpc
  | storeSafe i value =>
    rw [hpc] at h
    exact Option.some.inj h ▸ .storeSafe i value hpc
  | unlock i =>
    rw [hpc] at h
    exact Option.some.inj h ▸ .unlock i hpc
  | exited =>
    rw [hpc] at h
    nomatch h

/-- What a thread's step leaves alone; and the thread has been created and had not returned. -/
structure Frame (s : RaceState n) (id : Fin n) (s' : RaceState n) : Prop where
  workers : ∀ t, t ≠ id → s'.workers t = s.workers t
  main : s'.main = s.main
  created : s.workers id ≠ .uncreated ∧ s'.workers id ≠ .uncreated
  running : s.workers id ≠ .exited

/-- None of them changes another thread, or `main`. -/
theorem WorkerEffect.frame (h : WorkerEffect m s id s') : Frame s id s' := by
  cases h with
  | enter i hpc _ | leave i hpc _ | load i hpc | store i _ hpc | lock i hpc _ | loadSafe i hpc | storeSafe i _ hpc | unlock i hpc =>
    refine ⟨fun t ht => goto_workers_ne _ _ ht, rfl, ?_, ?_⟩ <;> simp [hpc]

/-- The steps of `main`. -/
inductive MainEffect (m : Nat) (s : RaceState n) : RaceState n → Prop where
  | create (i : Fin n) : s.main = .create i → MainEffect m s { s.goto i (.test 0) with main := .create (i + 1) }
  | created (i : Nat) : s.main = .create i → ¬i < n → MainEffect m s { s with main := .join 0 }
  | join (i : Fin n) : s.main = .join i → s.workers i = .exited → MainEffect m s { s with main := .join (i + 1) }
  | joined (i : Nat) : s.main = .join i → ¬i < n → MainEffect m s { s with main := .report }
  | report : s.main = .report → MainEffect m s { s with printed := some (s.report m), main := .finished }

/-- A step of `main` has one of these effects. -/
theorem raceMain_effect (h : raceMain m s = some s') : MainEffect m s s' := by
  unfold raceMain at h
  cases hpc : s.main with
  | create i =>
    rw [hpc] at h
    by_cases hi : i < n
    · simp only [dif_pos hi] at h
      exact Option.some.inj h ▸ .create ⟨i, hi⟩ hpc
    · simp only [dif_neg hi] at h
      exact Option.some.inj h ▸ .created i hpc hi
  | join i =>
    rw [hpc] at h
    by_cases hi : i < n
    · simp only [dif_pos hi] at h
      by_cases hexited : s.workers ⟨i, hi⟩ = .exited
      · rw [if_pos hexited] at h
        exact Option.some.inj h ▸ .join ⟨i, hi⟩ hpc hexited
      · rw [if_neg hexited] at h
        nomatch h
    · simp only [dif_neg hi] at h
      exact Option.some.inj h ▸ .joined i hpc hi
  | report =>
    rw [hpc] at h
    exact Option.some.inj h ▸ .report hpc
  | finished =>
    rw [hpc] at h
    nomatch h

/-! ## What every step keeps -/

/-- A thread is in an iteration of its loop. -/
def Within (m : Nat) : WorkerPc → Prop
  | .uncreated | .exited => True
  | .test i => i ≤ m
  | .load i | .store i _ | .lock i | .loadSafe i | .storeSafe i _ | .unlock i => i < m

/-- What `main` knows from where it is. -/
def MainKnows (m : Nat) (s : RaceState n) : MainPc → Prop
  | .create i => ∀ t : Fin n, s.workers t = .uncreated ↔ i ≤ t
  | .join i => ∀ t : Fin n, s.workers t ≠ .uncreated ∧ (t < i → s.workers t = .exited)
  | .report => ∀ t, s.workers t = .exited
  | .finished => (∀ t, s.workers t = .exited) ∧ s.printed = some (s.report m)

/-- The invariant of the demonstration. -/
structure RaceInv (m : Nat) (s : RaceState n) : Prop where
  within : ∀ t, Within m (s.workers t)
  holder : ∀ t, (s.workers t).inLock = true ↔ s.pcbLock = some t
  value : ∀ t i value, s.workers t = .storeSafe i value → value = s.sharedCounterSafe
  safe : s.sharedCounterSafe = ∑ t, (s.workers t).safeDone m
  knows : MainKnows m s s.main

/-- No thread is created yet. -/
theorem raceInv_init : RaceInv m (RaceState.init : RaceState n) where
  within _ := trivial
  holder _ := iff_of_false Bool.false_ne_true (Option.some_ne_none _).symm
  value _ _ _ h := nomatch h
  safe := (Finset.sum_eq_zero (fun _ _ => rfl)).symm
  knows t := iff_of_true rfl (Nat.zero_le t)

/-- One thread holds the lock. -/
theorem RaceInv.inLock_unique (h : RaceInv m s) {t u : Fin n} (ht : (s.workers t).inLock = true)
    (hu : (s.workers u).inLock = true) : t = u :=
  Option.some.inj (((h.holder t).mp ht).symm.trans ((h.holder u).mp hu))

/-- The thread that has stepped is within its loop still. -/
theorem RaceInv.within_step (h : RaceInv m s) (hs : WorkerEffect m s id s') (t : Fin n) : Within m (s'.workers t) := by
  by_cases ht : t = id
  · subst ht
    have hold := h.within t
    cases hs with
    | enter i hpc hi =>
      rw [goto_workers_self]
      exact hi
    | leave i hpc hi =>
      rw [goto_workers_self]
      trivial
    | load i hpc | store i _ hpc | lock i hpc _ | loadSafe i hpc | storeSafe i _ hpc | unlock i hpc =>
      rw [hpc] at hold
      rw [goto_workers_self]
      exact hold
  · rw [hs.frame.workers t ht]
    exact h.within t

/-- The lock is still held by the thread that is between `lock` and `unlock`. -/
theorem RaceInv.holder_step (h : RaceInv m s) (hs : WorkerEffect m s id s') (t : Fin n) :
    (s'.workers t).inLock = true ↔ s'.pcbLock = some t := by
  have hold := h.holder t
  by_cases ht : t = id
  · subst ht
    cases hs with
    | lock i hpc hfree =>
      rw [goto_workers_self]
      exact iff_of_true rfl rfl
    | unlock i hpc =>
      rw [goto_workers_self]
      exact iff_of_false Bool.false_ne_true (Option.some_ne_none t).symm
    | enter i hpc _ | leave i hpc _ | load i hpc | store i _ hpc | loadSafe i hpc | storeSafe i _ hpc =>
      rw [hpc] at hold
      rw [goto_workers_self]
      exact hold
  · rw [hs.frame.workers t ht, hold]
    cases hs with
    | lock i hpc hfree =>
      rw [hfree]
      exact iff_of_false (Option.some_ne_none t).symm (fun h => ht (Option.some.inj h).symm)
    | unlock i hpc =>
      have hheld : s.pcbLock = some id := (h.holder id).mp (by rw [hpc]; rfl)
      rw [hheld]
      exact iff_of_false (fun h => ht (Option.some.inj h).symm) (Option.some_ne_none t).symm
    | enter i hpc _ | leave i hpc _ | load i hpc | store i _ hpc | loadSafe i hpc | storeSafe i _ hpc => exact Iff.rfl

/-- What a thread has loaded of the safe counter is its value: another thread does not store before it. -/
theorem RaceInv.value_step (h : RaceInv m s) (hs : WorkerEffect m s id s') (t : Fin n) (i value : Nat)
    (ht : s'.workers t = .storeSafe i value) : value = s'.sharedCounterSafe := by
  by_cases hid : t = id
  · subst hid
    cases hs with
    | loadSafe j hpc =>
      rw [goto_workers_self] at ht
      exact (WorkerPc.storeSafe.inj ht).2.symm
    | enter j hpc _ | leave j hpc _ | load j hpc | store j _ hpc | lock j hpc _ | storeSafe j _ hpc | unlock j hpc =>
      rw [goto_workers_self] at ht
      nomatch ht
  · rw [hs.frame.workers t hid] at ht
    cases hs with
    | storeSafe j other hpc =>
      exact absurd (h.inLock_unique (by rw [ht]; rfl) (by rw [hpc]; rfl)) hid
    | enter j hpc _ | leave j hpc _ | load j hpc | store j _ hpc | lock j hpc _ | loadSafe j hpc | unlock j hpc =>
      exact h.value t i value ht

/-- The safe counter is still the sum of the increments: what the thread stores is one more than it is. -/
theorem RaceInv.safe_step (h : RaceInv m s) (hs : WorkerEffect m s id s') :
    s'.sharedCounterSafe = ∑ t, (s'.workers t).safeDone m := by
  have hsum := sum_change (WorkerPc.safeDone m) id hs.frame.workers
  have hsafe := h.safe
  have hwithin := h.within id
  have hvalue := h.value id
  cases hs with
  | storeSafe i value hpc =>
    rw [hpc] at hsum
    rw [goto_workers_self] at hsum
    have hloaded := hvalue i value hpc
    change _ + i = _ + (i + 1) at hsum
    change value + 1 = _
    omega
  | leave i hpc hi =>
    rw [hpc] at hsum hwithin
    rw [goto_workers_self] at hsum
    change _ + i = _ + m at hsum
    change i ≤ m at hwithin
    change s.sharedCounterSafe = _
    omega
  | enter i hpc _ | load i hpc | store i _ hpc | lock i hpc _ | loadSafe i hpc | unlock i hpc =>
    rw [hpc] at hsum
    rw [goto_workers_self] at hsum
    exact hsafe.trans (Nat.add_right_cancel hsum).symm

/-- A step of a thread does not contradict what `main` knows. -/
theorem RaceInv.knows_step (h : RaceInv m s) (hs : WorkerEffect m s id s') : MainKnows m s' s'.main := by
  have hframe := hs.frame
  have hknows := h.knows
  rw [hframe.main]
  cases hmain : s.main with
  | create i =>
    rw [hmain] at hknows
    intro t
    by_cases ht : t = id
    · subst ht
      exact iff_of_false hframe.created.2 (fun hle => hframe.created.1 ((hknows t).mpr hle))
    · rw [hframe.workers t ht]
      exact hknows t
  | join i =>
    rw [hmain] at hknows
    intro t
    by_cases ht : t = id
    · subst ht
      exact ⟨hframe.created.2, fun hlt => absurd ((hknows t).2 hlt) hframe.running⟩
    · rw [hframe.workers t ht]
      exact hknows t
  | report =>
    rw [hmain] at hknows
    exact absurd (hknows id) hframe.running
  | finished =>
    rw [hmain] at hknows
    exact absurd (hknows.1 id) hframe.running

/-- A step of a thread keeps the invariant. -/
theorem RaceInv.worker (h : RaceInv m s) (hs : WorkerEffect m s id s') : RaceInv m s' where
  within := h.within_step hs
  holder := h.holder_step hs
  value := h.value_step hs
  safe := h.safe_step hs
  knows := h.knows_step hs

/-- So does the creation of a thread. -/
theorem RaceInv.create (h : RaceInv m s) {i : Fin n} (hmain : s.main = .create i) :
    RaceInv m { s.goto i (.test 0) with main := .create (i + 1) } := by
  have hknows := h.knows
  rw [hmain] at hknows
  have hi : s.workers i = .uncreated := (hknows i).mpr (Nat.le_refl _)
  refine ⟨?_, ?_, ?_, ?_, ?_⟩
  · refine (Function.forall_update_iff s.workers (fun _ pc => Within m pc)).mpr ⟨Nat.zero_le m, ?_⟩
    exact fun t _ => h.within t
  · refine (Function.forall_update_iff s.workers (fun t pc => pc.inLock = true ↔ s.pcbLock = some t)).mpr ⟨?_, ?_⟩
    · have hold := h.holder i
      rw [hi] at hold
      exact hold
    · exact fun t _ => h.holder t
  · refine (Function.forall_update_iff s.workers
      (fun _ pc => ∀ j value, pc = .storeSafe j value → value = s.sharedCounterSafe)).mpr ⟨?_, ?_⟩
    · exact fun _ _ hvalue => nomatch hvalue
    · exact fun t _ => h.value t
  · have hsum := sum_change (WorkerPc.safeDone m) i (fun t ht => goto_workers_ne s (.test 0) ht)
    rw [goto_workers_self, hi] at hsum
    exact h.safe.trans (Nat.add_right_cancel hsum).symm
  · refine (Function.forall_update_iff s.workers (fun t pc => pc = .uncreated ↔ (i : Nat) + 1 ≤ t)).mpr ⟨?_, ?_⟩
    · exact iff_of_false (fun hpc => nomatch hpc) (Nat.not_succ_le_self _)
    · intro t ht
      rw [hknows t, Nat.succ_le_iff]
      exact ⟨fun hle => Nat.lt_of_le_of_ne hle (fun heq => ht (Fin.ext heq.symm)), Nat.le_of_lt⟩

/-- A step of `main` keeps the invariant. -/
theorem RaceInv.main (h : RaceInv m s) (hs : MainEffect m s s') : RaceInv m s' := by
  have hknows := h.knows
  cases hs with
  | create i hmain => exact h.create hmain
  | created i hmain hi =>
    rw [hmain] at hknows
    refine ⟨h.within, h.holder, h.value, h.safe, ?_⟩
    intro t
    have hlt : (t : Nat) < i := Nat.lt_of_lt_of_le t.isLt (Nat.not_lt.mp hi)
    exact ⟨fun huncreated => absurd ((hknows t).mp huncreated) (Nat.not_le.mpr hlt), fun h => absurd h (Nat.not_lt_zero _)⟩
  | join i hmain hexited =>
    rw [hmain] at hknows
    refine ⟨h.within, h.holder, h.value, h.safe, ?_⟩
    intro t
    refine ⟨(hknows t).1, fun hlt => ?_⟩
    by_cases ht : t = i
    · rw [ht]
      exact hexited
    · exact (hknows t).2 (Nat.lt_of_le_of_ne (Nat.le_of_lt_succ hlt) (fun heq => ht (Fin.ext heq)))
  | joined i hmain hi =>
    rw [hmain] at hknows
    refine ⟨h.within, h.holder, h.value, h.safe, ?_⟩
    exact fun t => (hknows t).2 (Nat.lt_of_lt_of_le t.isLt (Nat.not_lt.mp hi))
  | report hmain =>
    rw [hmain] at hknows
    exact ⟨h.within, h.holder, h.value, h.safe, hknows, rfl⟩

/-- Each step keeps the invariant. -/
theorem raceInv_step (s : RaceState n) (a : RaceActor n) (s' : RaceState n) (h : RaceInv m s) (hs : raceStep m s a = some s') :
    RaceInv m s' := by
  cases a with
  | main => exact h.main (raceMain_effect hs)
  | worker id => exact h.worker (counterWorker_effect hs)

/-- So it holds whatever the order of the steps is. -/
theorem raceInv_of_reachable (h : Reachable (raceStep m) RaceState.init s) : RaceInv m s := h.invariant raceInv_init raceInv_step

end RaceAux

end OsSecurity.Scheduler
