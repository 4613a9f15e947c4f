import OsSecurity.Lib.Locking

/-!
# The deadlock demonstration (`deadlock_demo.c`)

The program comes in two modes, with `DEMO_UNSAFE` and without. `main` prints which of them it is, creates the two threads, joins them
and says that it completed; the threads take `resource_1` and `resource_2`. They take steps in any order: a step is one `printf`, one
operation on a mutex, one `usleep`, the creation of a thread or the end of a join.
-/

namespace OsSecurity.Scheduler

/-- Whether `DEMO_UNSAFE` is defined. -/
inductive DemoMode where
  | demoUnsafe
  | safe
  deriving DecidableEq

inductive Resource where
  | resource1
  | resource2
  deriving DecidableEq

instance : Fintype Resource := ⟨{.resource1, .resource2}, fun l => by cases l <;> simp⟩

inductive DemoThread where
  | a
  | b
  deriving DecidableEq

instance : Fintype DemoThread := ⟨{.a, .b}, fun t => by cases t <;> simp⟩

/-- `thread_a`, which is the same in both modes. -/
def threadA : List (Locking.Cmd Resource String) :=
  [.emit "[Thread A] locking resource_1...\n",
    .lock .resource1,
    .emit "[Thread A] got resource_1, sleeping briefly...\n",
    .pause,
    .emit "[Thread A] locking resource_2...\n",
    .lock .resource2,
    .emit "[Thread A] got both locks!\n",
    .unlock .resource2,
    .unlock .resource1]

/-- `thread_b`. -/
def threadB : DemoMode → List (Locking.Cmd Resource String)
  | .demoUnsafe =>
    [.emit "[Thread B] locking resource_2...\n",
      .lock .resource2,
      .emit "[Thread B] got resource_2, sleeping briefly...\n",
      .pause,
      .emit "[Thread B] locking resource_1...\n",
      .lock .resource1,
      .emit "[Thread B] got both locks!\n",
      .unlock .resource1,
      .unlock .resource2]
  | .safe =>
    [.emit "[Thread B] locking resource_1...\n",
      .lock .resource1,
      .emit "[Thread B] got resource_1, sleeping briefly...\n",
      .pause,
      .emit "[Thread B] locking resource_2...\n",
      .lock .resource2,
      .emit "[Thread B] got both locks!\n",
      .unlock .resource2,
      .unlock .resource1]

def threadCode (mode : DemoMode) : DemoThread → List (Locking.Cmd Resource String)
  | .a => threadA
  | .b => threadB mode

/-- A statement of `main`. -/
inductive DemoMainCmd where
  | print (line : String)
  | create (t : DemoThread)
  | join (t : DemoThread)
  deriving DecidableEq

/-- The first line. -/
def DemoMode.banner : DemoMode → String
  | .demoUnsafe => "=== UNSAFE MODE: inconsistent lock ordering (may deadlock) ===\n"
  | .safe => "=== SAFE MODE: consistent lock ordering (deadlock-free) ===\n"

/-- The last line. -/
def completedLine : String := "=== Program completed without hanging ===\n"

/-- The statements of `main`. -/
def demoMain (mode : DemoMode) : List DemoMainCmd :=
  [.print mode.banner, .create .a, .create .b, .join .a, .join .b, .print completedLine]

structure DemoState where
  /-- The mutexes, the threads and what was printed. -/
  threads : Locking.State DemoThread Resource String
  created : DemoThread → Bool
  /-- What `main` has still to do. -/
  main : List DemoMainCmd

/-- The state when the program begins. -/
def DemoState.init (mode : DemoMode) : DemoState :=
  { threads := { owner := fun _ => none, code := threadCode mode, output := [] }
    created := fun _ => false
    main := demoMain mode }

/-- Who takes a step. -/
inductive DemoActor where
  | main
  | thread (t : DemoThread)
  deriving DecidableEq

/-- A step of `main`. A join waits until the thread has returned. -/
def demoMainStep (s : DemoState) : Option DemoState :=
  match s.main with
  | [] => none
  | .print line :: rest => some { s with threads := { s.threads with output := s.threads.output ++ [line] }, main := rest }
  | .create t :: rest => some { s with created := Function.update s.created t true, main := rest }
  | .join t :: rest => if s.threads.code t = [] then some { s with main := rest } else none

/-- A step of the program. -/
def demoStep (s : DemoState) : DemoActor → Option DemoState
  | .main => demoMainStep s
  | .thread t =>
    if s.created t then (Locking.step s.threads t).map (fun threads => { s with threads := threads }) else none

end OsSecurity.Scheduler
