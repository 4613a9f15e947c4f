import OsSecurity.Lib.Interleaving
import Mathlib.Data.Fintype.Basic

/-!
# The round-robin scheduler (`scheduler.c`)

The dispatcher, which is the main thread, and the process threads take steps in any order. A step is one semaphore operation, one
block under `pcb_lock`, one `printf` or the local test that follows these; a wait on a semaphore whose value is 0, or for a thread
that has not returned, is no step. `NUM_PROCESSES` is `n` and `TIME_QUANTUM` is `q`. The creation of the threads comes before the
first state, the race condition demonstration after the last.
-/

namespace OsSecurity.Scheduler

inductive ProcessState where
  | ready
  | running
  | done
  deriving DecidableEq

/-- `PCB`. -/
structure PCB where
  pid : Int
  burstTime : Int
  remainingTime : Int
  state : ProcessState
  deriving DecidableEq

/-- What is printed. -/
inductive Line where
  | running (pid runTime remainingBefore : Int)
  | finished (pid : Int)
  deriving DecidableEq

/-- Where `process_thread` is. -/
inductive ThreadPc where
  /-- Before `sem_wait(&turn_sem[id])`. -/
  | wait
  /-- Before the block that starts the slice. -/
  | start
  /-- Before the `printf`. -/
  | run (runTime remainingBefore : Int)
  /-- In `usleep`, before the block that ends the slice. -/
  | sleep (runTime : Int)
  /-- Before `sem_post(&done_sem)`. -/
  | post (justFinished : Bool)
  /-- Before the test of `just_finished`. -/
  | check (justFinished : Bool)
  | exited
  deriving DecidableEq

/-- Where `run_round_robin` is, or `main` after it. -/
inductive DispatcherPc (n : Nat) where
  /-- Before the test of the outer loop. -/
  | outer (finished : Nat)
  /-- Before the test of the inner loop. -/
  | scan (i finished : Nat)
  /-- Before `sem_post(&turn_sem[i])`. -/
  | post (i : Fin n) (finished : Nat)
  /-- Before `sem_wait(&done_sem)`. -/
  | wait (i : Fin n) (finished : Nat)
  /-- Before the test of the loop that joins the threads. -/
  | join (i : Nat)
  /-- All processes completed. -/
  | completed
  deriving DecidableEq

structure State (n : Nat) where
  processes : Fin n → PCB
  turnSem : Fin n → Nat
  doneSem : Nat
  threads : Fin n → ThreadPc
  dispatcher : DispatcherPc n
  output : List Line

/-- Who takes a step. -/
inductive Actor (n : Nat) where
  | dispatcher
  | thread (id : Fin n)
  deriving DecidableEq

variable {n : Nat}

/-- The state in which `main` calls `run_round_robin`. -/
def State.init (burstTimes : Fin n → Int) : State n :=
  { processes := fun i =>
      { pid := (i : Nat) + 1, burstTime := burstTimes i, remainingTime := burstTimes i, state := .ready }
    turnSem := fun _ => 0
    doneSem := 0
    threads := fun _ => .wait
    dispatcher := .outer 0
    output := [] }

/-- A step of `process_thread`. -/
def processThread (q : Int) (s : State n) (id : Fin n) : Option (State n) :=
  let p := s.processes id
  match s.threads id with
  | .wait =>
    if 0 < s.turnSem id then
      some { s with
        turnSem := Function.update s.turnSem id (s.turnSem id - 1)
        threads := Function.update s.threads id .start }
    else none
  | .start =>
    let runTime := if p.remainingTime < q then p.remainingTime else q
    some { s with
      processes := Function.update s.processes id { p with state := .running }
      threads := Function.update s.threads id (.run runTime p.remainingTime) }
  | .run runTime remainingBefore =>
    some { s with
      output := s.output ++ [.running p.pid runTime remainingBefore]
      threads := Function.update s.threads id (.sleep runTime) }
  | .sleep runTime =>
    let p : PCB := { p with remainingTime := p.remainingTime - runTime }
    if p.remainingTime ≤ 0 then
      some { s with
        processes := Function.update s.processes id { p with state := .done }
        output := s.output ++ [.finished p.pid]
        threads := Function.update s.threads id (.post true) }
    else
      some { s with
        processes := Function.update s.processes id { p with state := .ready }
        threads := Function.update s.threads id (.post false) }
  | .post justFinished =>
    some { s with doneSem := s.doneSem + 1, threads := Function.update s.threads id (.check justFinished) }
  | .check justFinished =>
    some { s with threads := Function.update s.threads id (if justFinished then .exited else .wait) }
  | .exited => none

/-- A step of `run_round_robin`, or of the joins in `main` after it. -/
def runRoundRobin (s : State n) : Option (State n) :=
  match s.dispatcher with
  | .outer finished =>
    if finished < n then some { s with dispatcher := .scan 0 0 } else some { s with dispatcher := .join 0 }
  | .scan i finished =>
    if h : i < n then
      if (s.processes ⟨i, h⟩).state = .done then some { s with dispatcher := .scan (i + 1) (finished + 1) }
      else some { s with dispatcher := .post ⟨i, h⟩ finished }
    else some { s with dispatcher := .outer finished }
  | .post i finished =>
    some { s with turnSem := Function.update s.turnSem i (s.turnSem i + 1), dispatcher := .wait i finished }
  | .wait i finished =>
    if 0 < s.doneSem then some { s with doneSem := s.doneSem - 1, dispatcher := .scan (i + 1) finished } else none
  | .join i =>
    if h : i < n then
      if s.threads ⟨i, h⟩ = .exited then some { s with dispatcher := .join (i + 1) } else none
    else some { s with dispatcher := .completed }
  | .completed => none

/-- A step of the program. -/
def step (q : Int) (s : State n) : Actor n → Option (State n)
  | .dispatcher => runRoundRobin s
  | .thread id => processThread q s id

end OsSecurity.Scheduler
