import OsSecurity.Lemmas.RoundRobin

/-!
# The scheduler cannot hang

Each slice is paid for by the work it takes off: a process weighs its remaining time and one more until it is done, times the most
that the dispatcher can do between two turns.
-/

namespace OsSecurity.Scheduler

open Interleaving RoundRobinAux

variable {n : Nat}

/-- All threads have returned, all processes are done, and so is the dispatcher, with the joins behind it. -/
def State.Completed (s : State n) : Prop :=
  s.dispatcher = .completed ∧
    ∀ i, s.threads i = .exited ∧ (s.processes i).state = .done ∧ (s.processes i).remainingTime = 0

/-! ## The steps left -/

/-- What is left of a process: a slice takes off at least one. -/
def PCB.workLeft (p : PCB) : Nat := if p.state = .done then 0 else p.remainingTime.toNat + 1

def ThreadPc.stepsLeft (n : Nat) : ThreadPc → Nat
  | .wait => 0
  | .start => 3
  | .run _ _ => 2
  | .sleep _ => 1
  | .post _ => 3 * n + 11
  | .check _ => 1
  | .exited => 0

/-- The most steps of the dispatcher up to its next turn or its end. A pass that has seen a process that was not done is followed by
another one. -/
def DispatcherPc.stepsLeft : DispatcherPc n → Nat
  | .outer finished => if finished < n then 2 * n + 7 else n + 2
  | .scan i finished => if finished < i then 2 * n + 8 + (n - i) else n + 6 + (n - i)
  | .post _ _ => 5
  | .wait _ _ => 0
  | .join i => 1 + (n - i)
  | .completed => 0

def View.stepsLeft (n : Nat) (v : View) : Nat := (3 * n + 11) * v.pcb.workLeft + 4 * v.turn + v.pc.stepsLeft n

/-- A bound on the steps that can still be taken. -/
def State.stepsLeft (s : State n) : Nat :=
  ∑ i, (s.view i).stepsLeft n + (3 * n + 9) * s.doneSem + s.dispatcher.stepsLeft

namespace CompletionAux

variable {q : Int} {burstTimes : Fin n → Int} {s s' : State n}

/-- A slice takes off at least one. -/
theorem workLeft_finish {p : PCB} (runTime : Int) (hready : p.state ≠ .done) :
    PCB.workLeft { p with remainingTime := p.remainingTime - runTime, state := .done } + 1 ≤ p.workLeft := by
  unfold PCB.workLeft
  rw [if_pos rfl, if_neg hready]
  exact Nat.succ_le_succ (Nat.zero_le _)

theorem workLeft_pause {p : PCB} {runTime : Int} (hready : p.state ≠ .done) (hrun : 1 ≤ runTime)
    (hmore : ¬ p.remainingTime - runTime ≤ 0) :
    PCB.workLeft { p with remainingTime := p.remainingTime - runTime, state := .ready } + 1 ≤ p.workLeft := by
  unfold PCB.workLeft
  rw [if_neg ProcessState.noConfusion, if_neg hready]
  dsimp only
  omega

/-- A thread's step is paid for by its view. -/
theorem effect_stepsLeft {b : Int} {v v' : View} {d : Nat} {out : List Line} (hq : 1 ≤ q) (hv : ViewOk q b v)
    (h : ThreadEffect q v v' d out) : v'.stepsLeft n + (3 * n + 9) * d < v.stepsLeft n := by
  unfold View.stepsLeft
  cases h with
  | wait p t ht =>
    simp only [ThreadPc.stepsLeft]
    omega
  | start p t =>
    have hwork : PCB.workLeft { p with state := .running } = p.workLeft := by
      have hready : p.state = .ready := hv.pc
      rw [PCB.workLeft, PCB.workLeft, if_neg ProcessState.noConfusion, if_neg (by rw [hready]; decide)]
    simp only [ThreadPc.stepsLeft, hwork]
    omega
  | run p t runTime remainingBefore =>
    simp only [ThreadPc.stepsLeft]
    omega
  | finish p t runTime hlast =>
    have hrunning : p.state ≠ .done := by
      rw [hv.pc.1]
      decide
    have hwork := Nat.mul_le_mul_left (3 * n + 11) (workLeft_finish runTime hrunning)
    rw [Nat.mul_add, Nat.mul_one] at hwork
    simp only [ThreadPc.stepsLeft]
    omega
  | pause p t runTime hmore =>
    obtain ⟨hrunning, hrun⟩ := hv.pc
    have hready : p.state ≠ .done := by
      dsimp only at hrunning
      rw [hrunning]
      decide
    have hrun' : 1 ≤ runTime := by
      dsimp only at hrun
      split at hrun <;> omega
    have hwork := Nat.mul_le_mul_left (3 * n + 11) (workLeft_pause hready hrun' hmore)
    rw [Nat.mul_add, Nat.mul_one] at hwork
    simp only [ThreadPc.stepsLeft]
    omega
  | post p t justFinished =>
    simp only [ThreadPc.stepsLeft]
    omega
  | check p t justFinished =>
    cases justFinished <;> simp [ThreadPc.stepsLeft]

theorem thread_stepsLeft (hq : 1 ≤ q) (hs : Inv q burstTimes s) {i : Fin n} (h : processThread q s i = some s') :
    s'.stepsLeft < s.stepsLeft := by
  obtain ⟨v, d, out, heffect, rfl⟩ := processThread_effect h
  have hpaid := effect_stepsLeft (n := n) hq (hs.ok i) heffect
  have hsum := sum_change (View.stepsLeft n) i (fun j hj => view_put_ne s v d out hj)
  rw [view_put_self] at hsum
  have hdone : (3 * n + 9) * (put s i v d out).doneSem = (3 * n + 9) * s.doneSem + (3 * n + 9) * d := Nat.mul_add _ _ _
  have hpc : (put s i v d out).dispatcher = s.dispatcher := rfl
  unfold State.stepsLeft
  rw [hdone, hpc]
  omega

/-- The dispatcher's step is paid for by the turn it posts, by the token it takes, or by its place. -/
theorem dispatcher_stepsLeft (hs : Inv q burstTimes s) (h : runRoundRobin s = some s') : s'.stepsLeft < s.stepsLeft := by
  have hknows := hs.knows
  cases runRoundRobin_effect h with
  | enter finished hpc hlt =>
    refine Nat.add_lt_add_left ?_ _
    rw [hpc]
    simp only [DispatcherPc.stepsLeft, if_pos hlt, Nat.not_lt_zero, if_false]
    omega
  | leave finished hpc hge =>
    refine Nat.add_lt_add_left ?_ _
    rw [hpc]
    simp only [DispatcherPc.stepsLeft, if_neg hge]
    omega
  | skip i finished hpc hdone =>
    refine Nat.add_lt_add_left ?_ _
    rw [hpc] at hknows ⊢
    have hi := i.isLt
    simp only [DispatcherPc.stepsLeft]
    split <;> split <;> omega
  | choose i finished hpc hready =>
    refine Nat.add_lt_add_left ?_ _
    rw [hpc]
    have hi := i.isLt
    simp only [DispatcherPc.stepsLeft]
    split <;> omega
  | again i finished hpc hge =>
    refine Nat.add_lt_add_left ?_ _
    rw [hpc] at hknows ⊢
    obtain ⟨hle, hfinished, -⟩ := hknows
    simp only [DispatcherPc.stepsLeft]
    split <;> split <;> omega
  | post i finished hpc =>
    have hsum := sum_change (View.stepsLeft n) i (fun j hj => view_give_ne s finished hj)
    have hgiven : ((give s i finished).view i).stepsLeft n = (s.view i).stepsLeft n + 4 := by
      rw [view_give_self]
      unfold View.stepsLeft State.view
      dsimp only
      omega
    have hdone : (give s i finished).doneSem = s.doneSem := rfl
    unfold State.stepsLeft
    rw [hdone, hpc, show (give s i finished).dispatcher = .wait i finished from rfl]
    simp only [DispatcherPc.stepsLeft]
    omega
  | resume i finished hpc hpos =>
    rw [hpc] at hknows
    have hi := i.isLt
    have hlt : finished < i + 1 := Nat.lt_succ_of_le hknows.1
    have hdone : (3 * n + 9) * s.doneSem = (3 * n + 9) * (s.doneSem - 1) + (3 * n + 9) := by
      rw [← Nat.mul_succ, Nat.succ_eq_add_one, Nat.sub_add_cancel hpos]
    have hsum : ∑ j, (State.view { s with doneSem := s.doneSem - 1, dispatcher := .scan (i + 1) finished } j).stepsLeft n =
        ∑ j, (s.view j).stepsLeft n := rfl
    unfold State.stepsLeft
    rw [hsum, hpc, hdone]
    simp only [DispatcherPc.stepsLeft, if_pos hlt]
    omega
  | join i hpc hexited =>
    refine Nat.add_lt_add_left ?_ _
    rw [hpc]
    have hi := i.isLt
    simp only [DispatcherPc.stepsLeft]
    omega
  | complete i hpc hge =>
    refine Nat.add_lt_add_left ?_ _
    rw [hpc]
    simp only [DispatcherPc.stepsLeft]
    omega

theorem step_stepsLeft (hq : 1 ≤ q) (s : State n) (a : Actor n) (s' : State n) (hs : Inv q burstTimes s)
    (h : step q s a = some s') : s'.stepsLeft < s.stepsLeft := by
  cases a with
  | dispatcher => exact dispatcher_stepsLeft hs h
  | thread i => exact thread_stepsLeft hq hs h

/-! ## Some thread has a step -/

/-- A thread can take a step until it has exited, unless it waits for its turn. -/
theorem processThread_isSome {i : Fin n} (hexited : s.threads i ≠ .exited) (hwait : s.threads i = .wait → 0 < s.turnSem i) :
    (processThread q s i).isSome = true := by
  unfold processThread
  cases hpc : s.threads i with
  | wait => rw [if_pos (hwait hpc)]; rfl
  | exited => exact absurd hpc hexited
  | sleep runTime =>
    dsimp only
    split <;> rfl
  | _ => rfl

/-- The dispatcher can take a step until it has completed, unless it waits for a token or for a thread. -/
theorem runRoundRobin_isSome (hcompleted : s.dispatcher ≠ .completed)
    (hwait : ∀ i finished, s.dispatcher = .wait i finished → 0 < s.doneSem)
    (hjoin : ∀ i (hi : i < n), s.dispatcher = .join i → s.threads ⟨i, hi⟩ = .exited) : (runRoundRobin s).isSome = true := by
  unfold runRoundRobin
  cases hpc : s.dispatcher with
  | outer finished =>
    dsimp only
    split <;> rfl
  | scan i finished =>
    dsimp only
    split
    · split <;> rfl
    · rfl
  | post i finished => rfl
  | wait i finished =>
    dsimp only
    rw [if_pos (hwait i finished hpc)]
    rfl
  | join i =>
    dsimp only
    by_cases hi : i < n
    · rw [dif_pos hi, if_pos (hjoin i hi hpc)]
      rfl
    · rw [dif_neg hi]
      rfl
  | completed => exact absurd hpc hcompleted

/-- The thread that holds the token has a step. -/
theorem thread_step {i : Fin n} (hs : Inv q burstTimes s) (hpos : (s.view i).held ≠ 0)
    (hready : 0 < s.turnSem i → (s.processes i).state ≠ .done) : (processThread q s i).isSome = true := by
  have hpc : Matches q (s.processes i) (s.threads i) := (hs.ok i).pc
  have hturn : (s.threads i).inSlice = false → 0 < s.turnSem i := by
    intro hout
    have hheld : (s.view i).held = s.turnSem i := by
      unfold View.held State.view
      dsimp only
      rw [hout]
      rfl
    rw [hheld] at hpos
    exact Nat.pos_of_ne_zero hpos
  refine processThread_isSome ?_ ?_
  · intro hexited
    rw [hexited] at hpc hturn
    exact hready (hturn rfl) hpc
  · intro hwait
    rw [hwait] at hturn
    exact hturn rfl

/-- A thread of a process that is done is on its way out. -/
theorem leaving_thread_step {i : Fin n} (hs : Inv q burstTimes s) (hdone : (s.processes i).state = .done)
    (hexited : s.threads i ≠ .exited) : (processThread q s i).isSome = true := by
  refine processThread_isSome hexited ?_
  intro hwait
  have hmatch : Matches q (s.processes i) (s.threads i) := (hs.ok i).pc
  rw [hwait] at hmatch
  exact absurd (hmatch.symm.trans hdone) (by decide)

/-- In every state that keeps the invariant the program is completed, or the dispatcher or a thread has a step. -/
theorem exists_step (hs : Inv q burstTimes s) : s.Completed ∨ ∃ a, (step q s a).isSome = true := by
  have hhand := hs.handOff
  have hknows := hs.knows
  cases hpc : s.dispatcher with
  | wait i finished =>
    rw [hpc] at hhand hknows
    obtain ⟨hone, -⟩ := hhand
    by_cases hdone : 0 < s.doneSem
    · exact .inr ⟨.dispatcher, runRoundRobin_isSome (by simp [hpc]) (fun _ _ _ => hdone) (by simp [hpc])⟩
    · exact .inr ⟨.thread i, thread_step hs (by omega) hknows.2⟩
  | join k =>
    rw [hpc] at hknows
    obtain ⟨-, hdone, -⟩ := hknows
    by_cases hjoin : ∀ hk : k < n, s.threads ⟨k, hk⟩ = .exited
    · refine .inr ⟨.dispatcher, runRoundRobin_isSome (by simp [hpc]) (by simp [hpc]) ?_⟩
      intro i hi hi'
      obtain rfl : k = i := DispatcherPc.join.inj (hpc.symm.trans hi')
      exact hjoin hi
    · obtain ⟨hk, hexited⟩ := not_forall.mp hjoin
      exact .inr ⟨.thread ⟨k, hk⟩, leaving_thread_step hs (hdone ⟨k, hk⟩) hexited⟩
  | completed =>
    rw [hpc] at hknows
    refine .inl ⟨hpc, ?_⟩
    intro i
    obtain ⟨hdone, hexited⟩ := hknows i
    exact ⟨hexited, hdone, (hs.ok i).done hdone⟩
  | _ => exact .inr ⟨.dispatcher, runRoundRobin_isSome (by simp [hpc]) (by simp [hpc]) (by simp [hpc])⟩

theorem completed_of_stuck (hs : Inv q burstTimes s) (hstuck : Stuck (step q) s) : s.Completed := by
  rcases exists_step hs with hcompleted | ⟨a, ha⟩
  · exact hcompleted
  · rw [hstuck a] at ha
    exact absurd ha Bool.false_ne_true

end CompletionAux

/-- For every number of processes, quantum, burst times and interleaving: in every reachable state the program is completed or some
thread has a step; every step makes `stepsLeft` smaller, so every run is finite; a run that cannot go on has completed, with all threads
exited and joined; and every run can go on until then. -/
theorem scheduler_completes (n : Nat) (q : Int) (burstTimes : Fin n → Int) (hn : 1 ≤ n) (hq : 1 ≤ q)
    (hb : ∀ i, 0 ≤ burstTimes i) :
    (∀ s, Reachable (step q) (State.init burstTimes) s → s.Completed ∨ ∃ a, (step q s a).isSome = true) ∧
      (∀ s a s', Reachable (step q) (State.init burstTimes) s → step q s a = some s' → s'.stepsLeft < s.stepsLeft) ∧
      (∀ as s, run (step q) (State.init burstTimes) as = some s →
        as.length ≤ (State.init burstTimes).stepsLeft ∧ (Stuck (step q) s → s.Completed)) ∧
      ∀ s, Reachable (step q) (State.init burstTimes) s → ∃ s', Reachable (step q) s s' ∧ s'.Completed := by
  have hinit : Inv q burstTimes (State.init burstTimes) := inv_init hn hb
  refine ⟨?_, ?_, ?_, ?_⟩
  · intro s hs
    exact CompletionAux.exists_step (inv_reachable hn hq hb hs)
  · intro s a s' hs h
    exact CompletionAux.step_stepsLeft hq s a s' (inv_reachable hn hq hb hs) h
  · intro as s has
    have hlength := length_add_le (Inv.step hq) (CompletionAux.step_stepsLeft hq) hinit has
    exact ⟨Nat.le_trans (Nat.le_add_right _ _) hlength, CompletionAux.completed_of_stuck (inv_reachable hn hq hb ⟨as, has⟩)⟩
  · intro s hs
    have hinv := inv_reachable hn hq hb hs
    obtain ⟨s', hs', hstuck⟩ := exists_stuck (Inv.step hq) (CompletionAux.step_stepsLeft hq) hinv
    exact ⟨s', hs', CompletionAux.completed_of_stuck (hs'.invariant hinv (Inv.step hq)) hstuck⟩

/-- Two processes with burst times 3 and 1. -/
theorem scheduler_completes_two : ∃ s : State 2, Reachable (step 2) (State.init ![3, 1]) s ∧ s.Completed :=
  (scheduler_completes 2 2 ![3, 1] (by decide) (by decide) (by decide)).2.2.2 _ (Reachable.refl _)

end OsSecurity.Scheduler
