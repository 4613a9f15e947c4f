import OsSecurity.Lemmas.RoundRobin

/-!
# The scheduler's hand-off is safe
-/

namespace OsSecurity.Scheduler

open Interleaving RoundRobinAux

variable {n : Nat}

/-- The pending turns, the threads inside a slice and the pending tokens of `done_sem`. -/
def State.tokens (s : State n) : Nat :=
  ∑ i, s.turnSem i + (Finset.univ.filter (fun i => (s.threads i).inSlice = true)).card + s.doneSem

namespace HandOffAux

variable {q : Int} {burstTimes : Fin n → Int} {s : State n}

theorem tokens_eq (s : State n) : s.tokens = ∑ i, (s.view i).held + s.doneSem := by
  rw [State.tokens, Finset.card_filter, ← Finset.sum_add_distrib]
  rfl

/-- There is one token while the dispatcher waits, and none otherwise. -/
theorem tokens_of_handOff {pc : DispatcherPc n} (h : HandOff s pc) :
    s.tokens ≤ 1 ∧ (s.tokens = 1 ↔ ∃ i finished, pc = .wait i finished) := by
  rw [tokens_eq]
  cases pc with
  | wait i finished =>
    obtain ⟨hone, hothers⟩ := h
    rw [Finset.sum_eq_single i (fun j _ hj => hothers j hj) (fun hi => absurd (Finset.mem_univ i) hi), hone]
    exact ⟨Nat.le_refl 1, fun _ => ⟨i, finished, rfl⟩, fun _ => rfl⟩
  | _ =>
    obtain ⟨hdone, hzero⟩ := h
    rw [hdone, Finset.sum_eq_zero (fun j _ => hzero j)]
    exact ⟨Nat.zero_le 1, fun h => absurd h (Nat.zero_ne_one), fun ⟨i, finished, h⟩ => by cases h⟩

/-- A running process is inside its slice. -/
theorem held_of_running {b : Int} {v : View} (h : ViewOk q b v) (hrun : v.pcb.state = .running) : v.held ≠ 0 := by
  obtain ⟨p, t, pc⟩ := v
  have hpc := h.pc
  dsimp only at hrun
  cases pc with
  | wait => exact absurd (hrun.symm.trans hpc) (by decide)
  | check justFinished =>
    have hstate : p.state = if justFinished then .done else .ready := hpc
    rw [hrun] at hstate
    cases justFinished <;> exact absurd hstate (by decide)
  | exited => exact absurd (hrun.symm.trans hpc) (by decide)
  | _ => exact Nat.succ_ne_zero t

theorem running_unique (h : Inv q burstTimes s) {i j : Fin n} (hi : (s.processes i).state = .running)
    (hj : (s.processes j).state = .running) : i = j := by
  obtain ⟨⟨finished, hpc⟩, -⟩ := h.handOff.of_pos (held_of_running (h.ok i) hi)
  obtain ⟨⟨finished', hpc'⟩, -⟩ := h.handOff.of_pos (held_of_running (h.ok j) hj)
  rw [hpc] at hpc'
  exact (DispatcherPc.wait.inj hpc').1

/-- A turn is posted to a process that is not done, and so to a thread that has not exited. -/
theorem ready_of_posted (h : Inv q burstTimes s) {a : Actor n} {s' : State n} {i : Fin n} (hstep : step q s a = some s')
    (hturn : s.turnSem i < s'.turnSem i) : (s.processes i).state ≠ .done ∧ s.threads i ≠ .exited := by
  obtain ⟨finished, hpc⟩ := dispatcher_of_posted hstep hturn
  have hknows := h.knows
  rw [hpc] at hknows
  refine ⟨hknows.2, ?_⟩
  intro hexited
  have hmatch : Matches q (s.processes i) (s.threads i) := (h.ok i).pc
  rw [hexited] at hmatch
  exact hknows.2 hmatch

end HandOffAux

/-- For every number of processes, quantum, burst times and interleaving: in every reachable state there is at most one token, pending
or held by a thread inside its slice, and one exactly while the dispatcher waits on `done_sem`. So at most one process is running; no
turn is ever posted to a process that is done or whose thread has exited; and the remaining times stay between 0 and the burst times. -/
theorem handOff_safety (n : Nat) (q : Int) (burstTimes : Fin n → Int) (hn : 1 ≤ n) (hq : 1 ≤ q) (hb : ∀ i, 0 ≤ burstTimes i)
    (s : State n) (hs : Reachable (step q) (State.init burstTimes) s) :
    s.tokens ≤ 1 ∧ (s.tokens = 1 ↔ ∃ i finished, s.dispatcher = .wait i finished) ∧
      (∀ i j, (s.processes i).state = .running → (s.processes j).state = .running → i = j) ∧
      (∀ a s' i, step q s a = some s' → s.turnSem i < s'.turnSem i →
        (s.processes i).state ≠ .done ∧ s.threads i ≠ .exited) ∧
      ∀ i, 0 ≤ (s.processes i).remainingTime ∧ (s.processes i).remainingTime ≤ (s.processes i).burstTime ∧
        (s.processes i).burstTime = burstTimes i := by
  have hinv := inv_reachable hn hq hb hs
  obtain ⟨hle, hone⟩ := HandOffAux.tokens_of_handOff hinv.handOff
  refine ⟨hle, hone, fun i j => HandOffAux.running_unique hinv, fun a s' i => HandOffAux.ready_of_posted hinv, ?_⟩
  intro i
  have hok := hinv.ok i
  exact ⟨hok.nonneg, hok.burstTime ▸ hok.le, hok.burstTime⟩

/-- Of two processes, the first one is given its turn and runs. -/
def untilRunning : List (Actor 2) := [.dispatcher, .dispatcher, .dispatcher, .thread 0, .thread 0]

/-- It ends its slice, and the dispatcher is about to give the second one its turn. -/
def untilNextTurn : List (Actor 2) :=
  untilRunning ++ [.thread 0, .thread 0, .thread 0, .thread 0, .dispatcher, .dispatcher]

/-- While the first process runs the token is with it, so that the second one does not run; and the second one can take the turn that it
is given after that. -/
theorem handOff_safety_turns :
    (∃ s : State 2, Reachable (step 2) (State.init ![3, 1]) s ∧ (s.processes 0).state = .running ∧
      s.tokens = 1 ∧ (s.processes 1).state ≠ .running) ∧
    ∃ s s' : State 2, Reachable (step 2) (State.init ![3, 1]) s ∧ step 2 s .dispatcher = some s' ∧ s.turnSem 1 < s'.turnSem 1 ∧
      s.tokens ≤ 1 ∧ s.threads 1 ≠ .exited ∧ (s.processes 0).remainingTime = 1 ∧ (s.processes 0).burstTime = 3 := by
  have hsafe := handOff_safety 2 2 ![3, 1] (by decide) (by decide) (by decide)
  constructor
  · obtain ⟨-, hone, hrunning, -⟩ := hsafe _ ⟨untilRunning, rfl⟩
    refine ⟨_, ⟨untilRunning, rfl⟩, rfl, hone.mpr ⟨0, 0, rfl⟩, fun hsecond => ?_⟩
    exact absurd (hrunning 0 1 rfl hsecond) (by decide)
  · obtain ⟨hle, -, -, hposted, hbounds⟩ := hsafe _ ⟨untilNextTurn, rfl⟩
    exact ⟨_, _, ⟨untilNextTurn, rfl⟩, rfl, by decide, hle, (hposted .dispatcher _ 1 rfl (by decide)).2, rfl, (hbounds 0).2.2⟩

end OsSecurity.Scheduler
