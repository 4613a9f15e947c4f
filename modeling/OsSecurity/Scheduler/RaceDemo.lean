import OsSecurity.Lib.Interleaving

/-!
# The race condition demonstration (`scheduler.c`)

`main` creates the threads one after the other, joins them and prints the counters; each thread that was created runs
`counter_worker`. They take steps in any order. A step is one load or one store of a counter, one operation on `pcb_lock`, the
creation of a thread, the end of a join, the test of a loop, or the report at the end; `sched_yield` and the addition touch nothing that
is shared, so they are part of the step that stores. `NUM_PROCESSES` is `n` and `INCREMENTS_PER_THREAD` is `m`. The counters stay at
most `n * m`, which is a `long`, so they are numbers here.
-/

namespace OsSecurity.Scheduler

/-- Where `counter_worker` is, in the iteration `i`. -/
inductive WorkerPc where
  /-- Before `pthread_create`. -/
  | uncreated
  /-- Before the test of the loop. -/
  | test (i : Nat)
  /-- Before the load of `shared_counter_unsafe`. -/
  | load (i : Nat)
  /-- Behind it, before the store of `temp + 1`. -/
  | store (i temp : Nat)
  /-- Before `pthread_mutex_lock`. -/
  | lock (i : Nat)
  /-- Before the load of `shared_counter_safe`. -/
  | loadSafe (i : Nat)
  /-- Behind it, before the store. -/
  | storeSafe (i value : Nat)
  /-- Before `pthread_mutex_unlock`. -/
  | unlock (i : Nat)
  | exited
  deriving DecidableEq

/-- Where `main` is. -/
inductive MainPc where
  /-- Before the test of the loop that creates the threads. -/
  | create (i : Nat)
  /-- Before the test of the loop that joins them. -/
  | join (i : Nat)
  /-- Before the report. -/
  | report
  | finished
  deriving DecidableEq

/-- What is printed at the end. -/
structure RaceReport where
  expected : Int
  unsafeCounter : Int
  lostUpdates : Int
  safeCounter : Int
  /-- `YES`. -/
  matchesExpected : Bool
  deriving DecidableEq

structure RaceState (n : Nat) where
  sharedCounterUnsafe : Nat
  sharedCounterSafe : Nat
  /-- The thread that holds `pcb_lock`. -/
  pcbLock : Option (Fin n)
  workers : Fin n → WorkerPc
  main : MainPc
  printed : Option RaceReport

/-- Who takes a step. -/
inductive RaceActor (n : Nat) where
  | main
  | worker (id : Fin n)
  deriving DecidableEq

variable {n : Nat}

/-- The state when the demonstration begins. -/
def RaceState.init : RaceState n :=
  { sharedCounterUnsafe := 0
    sharedCounterSafe := 0
    pcbLock := none
    workers := fun _ => .uncreated
    main := .create 0
    printed := none }

/-- The thread goes on. -/
def RaceState.goto (s : RaceState n) (id : Fin n) (pc : WorkerPc) : RaceState n :=
  { s with workers := Function.update s.workers id pc }

/-- A step of `counter_worker`. -/
def counterWorker (m : Nat) (s : RaceState n) (id : Fin n) : Option (RaceState n) :=
  match s.workers id with
  | .uncreated => none
  | .test i => some (s.goto id (if i < m then .load i else .exited))
  | .load i => some (s.goto id (.store i s.sharedCounterUnsafe))
  | .store i temp => some ({ s with sharedCounterUnsafe := temp + 1 }.goto id (.lock i))
  | .lock i => if s.pcbLock = none then some ({ s with pcbLock := some id }.goto id (.loadSafe i)) else none
  | .loadSafe i => some (s.goto id (.storeSafe i s.sharedCounterSafe))
  | .storeSafe i value => some ({ s with sharedCounterSafe := value + 1 }.goto id (.unlock i))
  | .unlock i => some ({ s with pcbLock := none }.goto id (.test (i + 1)))
  | .exited => none

/-- What `main` prints of the counters. -/
def RaceState.report (m : Nat) (s : RaceState n) : RaceReport :=
  let expected : Int := n * m
  { expected := expected
    unsafeCounter := s.sharedCounterUnsafe
    lostUpdates := expected - s.sharedCounterUnsafe
    safeCounter := s.sharedCounterSafe
    matchesExpected := s.sharedCounterSafe = expected }

/-- A step of `main`. -/
def raceMain (m : Nat) (s : RaceState n) : Option (RaceState n) :=
  match s.main with
  | .create i =>
    if h : i < n then some { s.goto ⟨i, h⟩ (.test 0) with main := .create (i + 1) } else some { s with main := .join 0 }
  | .join i =>
    if h : i < n then
      if s.workers ⟨i, h⟩ = .exited then some { s with main := .join (i + 1) } else none
    else some { s with main := .report }
  | .report => some { s with printed := some (s.report m), main := .finished }
  | .finished => none

/-- A step of the demonstration. -/
def raceStep (m : Nat) (s : RaceState n) : RaceActor n → Option (RaceState n)
  | .main => raceMain m s
  | .worker id => counterWorker m s id

end OsSecurity.Scheduler
