import OsSecurity.Lemmas.RaceDemo
import OsSecurity.Lib.LostUpdates

/-!
# Helpers about the runs of the race demonstration

The unsafe counter goes as increments that are not atomic do: the loads and stores of `counter_worker` are theirs, and its other steps
change nothing about them. A run does not stop before the report, and the increments can be followed in any order of their steps.
-/

namespace OsSecurity.Scheduler

/-- A thread as one that increments the unsafe counter. -/
def WorkerPc.worker (m : Nat) : WorkerPc → LostUpdates.Worker
  | .uncreated => { finished := 0, temp := none }
  | .test i | .load i => { finished := i, temp := none }
  | .store i temp => { finished := i, temp := some temp }
  | .lock i | .loadSafe i | .storeSafe i _ | .unlock i => { finished := i + 1, temp := none }
  | .exited => { finished := m, temp := none }

variable {n : Nat}

/-- The demonstration as increments of the unsafe counter. -/
def RaceState.increments (m : Nat) (s : RaceState n) : LostUpdates.State (Fin n) :=
  { counter := s.sharedCounterUnsafe, workers := fun t => (s.workers t).worker m }

namespace RaceAux

open Interleaving

variable {m : Nat} {s s' : RaceState n} {id : Fin n}

/-! ## The unsafe counter -/

/-- When a thread goes on, the increments change at most in its place. -/
theorem increments_goto (s : RaceState n) (id : Fin n) (pc : WorkerPc) :
    (s.goto id pc).increments m =
      { s.increments m with workers := Function.update (s.increments m).workers id (pc.worker m) } := by
  ext t
  · rfl
  · by_cases ht : t = id
    · subst ht
      simp [RaceState.increments]
    · simp [RaceState.increments, ht]

/-- A step in which the thread neither loads nor stores the unsafe counter. -/
theorem increments_same {pc : WorkerPc} (h : pc.worker m = (s.workers id).worker m) :
    (s.goto id pc).increments m = s.increments m := by
  rw [increments_goto, h]
  exact congrArg (LostUpdates.State.mk _) (Function.update_eq_self id (s.increments m).workers)

/-- The load of the unsafe counter is the load of an increment. -/
theorem increments_load {i : Nat} (hpc : s.workers id = .load i) :
    (s.goto id (.store i s.sharedCounterUnsafe)).increments m = (s.increments m).load id := by
  rw [increments_goto, LostUpdates.State.load]
  have hid : (s.increments m).workers id = { finished := i, temp := none } := congrArg (WorkerPc.worker m) hpc
  rw [hid]
  rfl

/-- The store of the unsafe counter is the store of an increment. -/
theorem increments_store {i temp : Nat} (hpc : s.workers id = .store i temp) :
    ({ s with sharedCounterUnsafe := temp + 1 }.goto id (.lock i)).increments m = (s.increments m).store id temp := by
  rw [increments_goto, LostUpdates.State.store]
  have hid : (s.increments m).workers id = { finished := i, temp := some temp } := congrArg (WorkerPc.worker m) hpc
  rw [hid]
  rfl

/-- A step of a thread is one of the increments that are not atomic, or changes nothing about them. -/
theorem WorkerEffect.increments (h : WorkerEffect m s id s') (hwithin : Within m (s.workers id)) :
    s'.increments m = s.increments m ∨ ∃ t, LostUpdates.step m (s.increments m) t = some (s'.increments m) := by
  cases h with
  | leave i hpc hi =>
    left
    rw [hpc] at hwithin
    refine increments_same ?_
    rw [hpc, Nat.le_antisymm hwithin (Nat.not_lt.mp hi)]
    rfl
  | load i hpc =>
    right
    rw [hpc] at hwithin
    have hid : (s.increments m).workers id = { finished := i, temp := none } := congrArg (WorkerPc.worker m) hpc
    refine ⟨id, ?_⟩
    rw [increments_load hpc]
    exact LostUpdates.step_load (by rw [hid]) (by rw [hid]; exact hwithin)
  | store i temp hpc =>
    right
    have hid : (s.increments m).workers id = { finished := i, temp := some temp } := congrArg (WorkerPc.worker m) hpc
    refine ⟨id, ?_⟩
    rw [increments_store hpc]
    exact LostUpdates.step_store (by rw [hid])
  | enter i hpc _ | loadSafe i hpc =>
    left
    exact increments_same (by rw [hpc]; rfl)
  | lock i hpc _ | storeSafe i _ hpc | unlock i hpc =>
    left
    refine (increments_same ?_).trans rfl
    change _ = (s.workers id).worker m
    rw [hpc]
    rfl

/-- `main` increments nothing. -/
theorem MainEffect.increments (h : MainEffect m s s') (hknows : MainKnows m s s.main) : s'.increments m = s.increments m := by
  cases h with
  | create i hmain =>
    rw [hmain] at hknows
    have hi : s.workers i = .uncreated := (hknows i).mpr (Nat.le_refl _)
    have hgoto : (s.goto i (.test 0)).increments m = s.increments m := increments_same (by rw [hi]; rfl)
    exact hgoto
  | created | join | joined | report => rfl

/-- A step of the program is no step of the increments, or one of them. -/
theorem increments_step (s : RaceState n) (a : RaceActor n) (s' : RaceState n) (h : RaceInv m s) (hs : raceStep m s a = some s') :
    s'.increments m = s.increments m ∨ ∃ t, LostUpdates.step m (s.increments m) t = some (s'.increments m) := by
  cases a with
  | main => exact .inl ((raceMain_effect hs).increments h.knows)
  | worker id => exact (counterWorker_effect hs).increments (h.within id)

/-- The runs of the demonstration are runs of the increments. -/
theorem increments_reachable (h : RaceInv m s) (hs : Reachable (raceStep m) s s') :
    Reachable (LostUpdates.step m) (s.increments m) (s'.increments m) :=
  hs.simulation raceInv_step increments_step h

/-! ## The end -/

/-- What a thread can do is a step of the program. -/
theorem WorkerEffect.step (h : WorkerEffect m s id s') : raceStep m s (.worker id) = some s' := by
  cases h with
  | enter i hpc hi => simp [raceStep, counterWorker, hpc, hi]
  | leave i hpc hi => simp [raceStep, counterWorker, hpc, hi]
  | lock i hpc hfree => simp [raceStep, counterWorker, hpc, hfree]
  | load i hpc | store i _ hpc | loadSafe i hpc | storeSafe i _ hpc | unlock i hpc => simp [raceStep, counterWorker, hpc]

/-- What `main` can do is a step of the program. -/
theorem MainEffect.step (h : MainEffect m s s') : raceStep m s .main = some s' := by
  cases h with
  | create i hmain => simp [raceStep, raceMain, hmain]
  | created i hmain hi | joined i hmain hi => simp [raceStep, raceMain, hmain, hi]
  | join i hmain hexited => simp [raceStep, raceMain, hmain, hexited]
  | report hmain => simp [raceStep, raceMain, hmain]

/-- Where nobody has a step no thread can do anything. -/
theorem not_workerEffect (hstuck : Stuck (raceStep m) s) : ¬WorkerEffect m s id s' := by
  intro h
  have hstep := h.step
  rw [hstuck] at hstep
  nomatch hstep

/-- Where nobody has a step `main` can do nothing. -/
theorem not_mainEffect (hstuck : Stuck (raceStep m) s) : ¬MainEffect m s s' := by
  intro h
  have hstep := h.step
  rw [hstuck] at hstep
  nomatch hstep

/-- A thread that holds the lock can step. -/
theorem inLock_of_stuck (hstuck : Stuck (raceStep m) s) (t : Fin n) : (s.workers t).inLock = false := by
  cases hpc : s.workers t with
  | loadSafe i => exact absurd (.loadSafe i hpc) (not_workerEffect hstuck)
  | storeSafe i value => exact absurd (.storeSafe i value hpc) (not_workerEffect hstuck)
  | unlock i => exact absurd (.unlock i hpc) (not_workerEffect hstuck)
  | uncreated | test | load | store | lock | exited => rfl

/-- So the others do not wait for ever. -/
theorem exited_of_stuck (h : RaceInv m s) (hstuck : Stuck (raceStep m) s) {t : Fin n} (ht : s.workers t ≠ .uncreated) :
    s.workers t = .exited := by
  have hout := inLock_of_stuck hstuck t
  cases hpc : s.workers t with
  | uncreated => exact absurd hpc ht
  | test i =>
    by_cases hi : i < m
    · exact absurd (.enter i hpc hi) (not_workerEffect hstuck)
    · exact absurd (.leave i hpc hi) (not_workerEffect hstuck)
  | load i => exact absurd (.load i hpc) (not_workerEffect hstuck)
  | store i temp => exact absurd (.store i temp hpc) (not_workerEffect hstuck)
  | lock i =>
    cases hlock : s.pcbLock with
    | none => exact absurd (.lock i hpc hlock) (not_workerEffect hstuck)
    | some u =>
      have hheld := (h.holder u).mpr hlock
      rw [inLock_of_stuck hstuck u] at hheld
      nomatch hheld
  | loadSafe | storeSafe | unlock =>
    rw [hpc] at hout
    nomatch hout
  | exited => rfl

/-- No run stops before the report. -/
theorem finished_of_stuck (h : RaceInv m s) (hstuck : Stuck (raceStep m) s) : s.main = .finished := by
  have hknows := h.knows
  cases hmain : s.main with
  | create i =>
    by_cases hi : i < n
    · exact absurd (.create ⟨i, hi⟩ hmain) (not_mainEffect hstuck)
    · exact absurd (.created i hmain hi) (not_mainEffect hstuck)
  | join i =>
    rw [hmain] at hknows
    by_cases hi : i < n
    · have hexited := exited_of_stuck h hstuck (hknows ⟨i, hi⟩).1
      exact absurd (.join ⟨i, hi⟩ hmain hexited) (not_mainEffect hstuck)
    · exact absurd (.joined i hmain hi) (not_mainEffect hstuck)
  | report => exact absurd (.report hmain) (not_mainEffect hstuck)
  | finished => rfl

/-- A bound on the steps that a thread has left. -/
def stepsLeft (m : Nat) : WorkerPc → Nat
  | .uncreated => 8 * m + 2
  | .test i => 8 * (m - i) + 1
  | .load i => 8 * (m - i)
  | .store i _ => 8 * (m - i) - 1
  | .lock i => 8 * (m - i) - 2
  | .loadSafe i => 8 * (m - i) - 3
  | .storeSafe i _ => 8 * (m - i) - 4
  | .unlock i => 8 * (m - i) - 5
  | .exited => 0

/-- The steps that `main` has left. -/
def mainLeft (n : Nat) : MainPc → Nat
  | .create i => (n - i) + (n + 3)
  | .join i => (n - i) + 2
  | .report => 1
  | .finished => 0

/-- A bound on the steps that all of them have left. -/
def raceLeft (m : Nat) (s : RaceState n) : Nat := ∑ t, stepsLeft m (s.workers t) + mainLeft n s.main

/-- A step of a thread leaves it fewer. -/
theorem WorkerEffect.less (h : WorkerEffect m s id s') (hwithin : Within m (s.workers id)) :
    stepsLeft m (s'.workers id) < stepsLeft m (s.workers id) := by
  cases h with
  | enter i hpc hi | leave i hpc hi =>
    rw [goto_workers_self, hpc]
    simp only [stepsLeft]
    omega
  | load i hpc | store i _ hpc | lock i hpc _ | loadSafe i hpc | storeSafe i _ hpc | unlock i hpc =>
    rw [hpc] at hwithin
    rw [goto_workers_self, hpc]
    simp only [Within] at hwithin
    simp only [stepsLeft]
    omega

/-- Each step of the program leaves fewer. -/
theorem raceLeft_step (s : RaceState n) (a : RaceActor n) (s' : RaceState n) (h : RaceInv m s) (hs : raceStep m s a = some s') :
    raceLeft m s' < raceLeft m s := by
  have hknows := h.knows
  unfold raceLeft
  cases a with
  | worker id =>
    have heffect := counterWorker_effect hs
    have hless := heffect.less (h.within id)
    have hsum := sum_change (stepsLeft m) id heffect.frame.workers
    rw [heffect.frame.main]
    omega
  | main =>
    cases raceMain_effect hs with
    | create i hmain =>
      rw [hmain] at hknows
      have hi : s.workers i = .uncreated := (hknows i).mpr (Nat.le_refl _)
      have hsum := sum_change (stepsLeft m) i (fun t ht => goto_workers_ne s (.test 0) ht)
      rw [goto_workers_self, hi] at hsum
      have hless : stepsLeft m (.test 0) < stepsLeft m .uncreated := Nat.lt_succ_self _
      have hlt := i.isLt
      simp only [hmain, mainLeft]
      omega
    | join i hmain hexited =>
      have hlt := i.isLt
      simp only [hmain, mainLeft]
      omega
    | created i hmain hi | joined i hmain hi =>
      simp only [hmain, mainLeft]
      omega
    | report hmain => simp [hmain, mainLeft]

/-- Every run can be taken on to the report. -/
theorem exists_finished (h : RaceInv m s) : ∃ s', Reachable (raceStep m) s s' ∧ s'.main = .finished := by
  obtain ⟨s', hs', hstuck⟩ := exists_stuck raceInv_step raceLeft_step h
  exact ⟨s', hs', finished_of_stuck (hs'.invariant h raceInv_step) hstuck⟩

/-! ## Orders of the steps -/

/-- A run in which no actor but a thread takes steps. -/
structure Alone (m : Nat) (id : Fin n) (s s' : RaceState n) : Prop where
  reachable : Reachable (raceStep m) s s'
  workers : ∀ t, t ≠ id → s'.workers t = s.workers t
  main : s'.main = s.main

/-- A step of a thread is a run of it alone. -/
theorem WorkerEffect.alone (h : WorkerEffect m s id s') : Alone m id s s' := ⟨.of_step h.step, h.frame.workers, h.frame.main⟩

/-- Such runs follow one another. -/
theorem Alone.trans {s'' : RaceState n} (h : Alone m id s s') (h' : Alone m id s' s'') : Alone m id s s'' where
  reachable := h.reachable.trans h'.reachable
  workers t ht := (h'.workers t ht).trans (h.workers t ht)
  main := h'.main.trans h.main

/-- If the thread ends where it was in its increments, nothing has changed in them. -/
theorem Alone.increments (h : Alone m id s s') (hcounter : s'.sharedCounterUnsafe = s.sharedCounterUnsafe)
    (hid : (s'.workers id).worker m = (s.workers id).worker m) : s'.increments m = s.increments m := by
  ext t
  · exact hcounter
  · by_cases ht : t = id
    · subst ht
      exact hid
    · exact congrArg (WorkerPc.worker m) (h.workers t ht)

/-- A thread increments the safe counter, where nobody holds the lock. -/
theorem alone_lock {i : Nat} (hpc : s.workers id = .lock i) (hfree : s.pcbLock = none) :
    ∃ s', Alone m id s s' ∧ s'.workers id = .test (i + 1) ∧ s'.pcbLock = none ∧ s'.increments m = s.increments m := by
  have h₁ := (WorkerEffect.lock (m := m) i hpc hfree).alone
  have h₂ := h₁.trans (WorkerEffect.loadSafe i (goto_workers_self _ id _)).alone
  have h₃ := h₂.trans (WorkerEffect.storeSafe i _ (goto_workers_self _ id _)).alone
  have h₄ := h₃.trans (WorkerEffect.unlock i (goto_workers_self _ id _)).alone
  refine ⟨_, h₄, goto_workers_self _ id _, rfl, h₄.increments rfl ?_⟩
  rw [goto_workers_self, hpc]
  rfl

/-- `main` has created all threads, and each is before the test of its loop or before its store of the unsafe counter. -/
structure Aligned (m : Nat) (s : RaceState n) (t : LostUpdates.State (Fin n)) : Prop where
  main : s.main = .join 0
  lock : s.pcbLock = none
  workers : ∀ id, ∃ i, s.workers id = .test i ∨ ∃ temp, s.workers id = .store i temp
  increments : s.increments m = t

variable {t t' : LostUpdates.State (Fin n)}

/-- A worker that has loaded nothing is before the test of its loop. -/
theorem Aligned.test_of_temp (h : Aligned m s t) (htemp : (t.workers id).temp = none) :
    s.workers id = .test (t.workers id).finished := by
  obtain rfl := h.increments
  obtain ⟨i, hi | ⟨temp, hi⟩⟩ := h.workers id
  · simp [RaceState.increments, hi, WorkerPc.worker]
  · simp [RaceState.increments, hi, WorkerPc.worker] at htemp

/-- A worker that has loaded is before its store. -/
theorem Aligned.store_of_temp (h : Aligned m s t) {x : Nat} (htemp : (t.workers id).temp = some x) :
    s.workers id = .store (t.workers id).finished x := by
  obtain rfl := h.increments
  obtain ⟨i, hi | ⟨temp, hi⟩⟩ := h.workers id
  · simp [RaceState.increments, hi, WorkerPc.worker] at htemp
  · simpa [RaceState.increments, hi, WorkerPc.worker] using htemp

/-- A thread that ran alone to another of these places. -/
theorem Aligned.alone (h : Aligned m s t) (hs : Alone m id s s') (hlock : s'.pcbLock = none) {i : Nat}
    (hid : s'.workers id = .test i ∨ ∃ temp, s'.workers id = .store i temp) : Aligned m s' (s'.increments m) where
  main := hs.main.trans h.main
  lock := hlock
  workers u := by
    by_cases hu : u = id
    · subst hu
      exact ⟨i, hid⟩
    · rw [hs.workers u hu]
      exact h.workers u
  increments := rfl

/-- A thread enters its loop and loads. -/
theorem Aligned.load (h : Aligned m s t) (htemp : (t.workers id).temp = none) (hlt : (t.workers id).finished < m) :
    ∃ s', Reachable (raceStep m) s s' ∧ Aligned m s' (t.load id) := by
  have htest := h.test_of_temp htemp
  have h₁ := (WorkerEffect.enter _ htest hlt).alone
  have hsame : (s.goto id (.load (t.workers id).finished)).increments m = t :=
    (increments_same (by rw [htest]; rfl)).trans h.increments
  have hload := goto_workers_self s id (.load (t.workers id).finished)
  have h₂ := h₁.trans (WorkerEffect.load _ hload).alone
  refine ⟨_, h₂.reachable, ?_⟩
  have haligned := h.alone h₂ h.lock (.inr ⟨_, goto_workers_self _ id _⟩)
  rwa [increments_load hload, hsame] at haligned

/-- A thread stores, and increments the safe counter before the next test. -/
theorem Aligned.store (h : Aligned m s t) {x : Nat} (htemp : (t.workers id).temp = some x) :
    ∃ s', Reachable (raceStep m) s s' ∧ Aligned m s' (t.store id x) := by
  have hpc := h.store_of_temp htemp
  have h₁ := (WorkerEffect.store (m := m) _ x hpc).alone
  have hlock := goto_workers_self { s with sharedCounterUnsafe := x + 1 } id (.lock (t.workers id).finished)
  obtain ⟨s', h₂, htest, hfree, hsame⟩ := alone_lock (m := m) hlock h.lock
  refine ⟨s', (h₁.trans h₂).reachable, ?_⟩
  have haligned := h.alone (h₁.trans h₂) hfree (.inl htest)
  rwa [hsame, increments_store hpc, h.increments] at haligned

/-- The demonstration can follow the increments in any order of theirs. -/
theorem Aligned.step (h : Aligned m s t) (ht : LostUpdates.step m t id = some t') :
    ∃ s', Reachable (raceStep m) s s' ∧ Aligned m s' t' := by
  rcases LostUpdates.step_cases ht with ⟨htemp, hlt, rfl⟩ | ⟨x, htemp, rfl⟩
  · exact h.load htemp hlt
  · exact h.store htemp

/-- The first `i` threads have been created and have not taken a step. -/
def createdState (i : Nat) : RaceState n :=
  { RaceState.init with workers := fun t => if (t : Nat) < i then .test 0 else .uncreated, main := .create i }

/-- `main` can create the first `i` threads before any of them goes on. -/
theorem create_reachable {i : Nat} (hi : i ≤ n) : Reachable (raceStep m) (RaceState.init : RaceState n) (createdState i) := by
  induction i with
  | zero => exact .refl _
  | succ i ih =>
    refine (ih (Nat.le_of_succ_le hi)).trans ?_
    have hstep := (MainEffect.create (m := m) (s := createdState i) ⟨i, hi⟩ rfl).step
    have hworkers : ((createdState i).goto ⟨i, hi⟩ (.test 0)).workers = (createdState (i + 1) : RaceState n).workers := by
      funext t
      by_cases ht : t = ⟨i, hi⟩
      · subst ht
        rw [goto_workers_self]
        exact (if_pos (Nat.lt_succ_self i)).symm
      · have hne : (t : Nat) ≠ i := fun heq => ht (Fin.ext heq)
        rw [goto_workers_ne _ _ ht]
        exact if_congr (by omega) rfl rfl
    dsimp only at hstep
    rw [hworkers] at hstep
    exact .of_step hstep

/-- `main` can create all threads before any of them goes on. -/
theorem aligned_reachable : ∃ s : RaceState n, Reachable (raceStep m) RaceState.init s ∧ Aligned m s LostUpdates.State.init := by
  have hcreated := create_reachable (m := m) (Nat.le_refl n)
  have hstep := (MainEffect.created (m := m) (s := createdState n) n rfl (Nat.lt_irrefl n)).step
  refine ⟨_, hcreated.trans (.of_step hstep), rfl, rfl, fun id => ⟨0, .inl (if_pos id.isLt)⟩, ?_⟩
  ext t
  · rfl
  · exact congrArg (WorkerPc.worker m) (if_pos t.isLt)

/-- So what some order of the increments ends with, the demonstration can end with. -/
theorem exists_finished_of_ended (ht : Reachable (LostUpdates.step m) LostUpdates.State.init t) (hend : t.Ended m) :
    ∃ s, Reachable (raceStep m) (RaceState.init : RaceState n) s ∧ s.main = .finished ∧ s.sharedCounterUnsafe = t.counter := by
  obtain ⟨s₀, hs₀, haligned⟩ := aligned_reachable (n := n) (m := m)
  obtain ⟨s₁, hs₁, haligned₁⟩ := Reachable.lift (fun _ _ _ _ h hstep => h.step hstep) haligned ht
  have hinv := raceInv_of_reachable (hs₀.trans hs₁)
  obtain ⟨s, hs, hfinished⟩ := exists_finished hinv
  refine ⟨s, (hs₀.trans hs₁).trans hs, hfinished, ?_⟩
  have hincrements := increments_reachable hinv hs
  rw [haligned₁.increments] at hincrements
  exact congrArg LostUpdates.State.counter (LostUpdates.eq_of_ended hend hincrements)

end RaceAux

end OsSecurity.Scheduler
