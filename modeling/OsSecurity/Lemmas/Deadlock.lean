import OsSecurity.Scheduler.Deadlock
import Mathlib.Data.List.TakeWhile

/-!
# Runs of the deadlock demonstration

Statements about `demoStep`: the threads keep to the discipline of their locks, `main` joins only what it has created, and where both
threads are created, a run of the locks is a run of the program.
-/

namespace OsSecurity.Scheduler

open Interleaving
open Locking (Cmd Disciplined Nested)

/-- The order in which a thread takes the resources: in the safe mode `resource_1` before `resource_2`, otherwise any. -/
def DemoMode.Order : DemoMode → Resource → Resource → Prop
  | .demoUnsafe, _, _ => True
  | .safe, k, l => k = .resource1 ∧ l = .resource2

/-- In the safe mode the order in which the resources are taken has no cycle. -/
theorem wellFounded_safe : WellFounded (fun l k => DemoMode.safe.Order k l) := by
  have hlast : ∀ k, ¬DemoMode.safe.Order .resource2 k := fun k h => nomatch h.1
  have htop : Acc (fun l k => DemoMode.safe.Order k l) .resource2 := ⟨_, fun k hk => absurd hk (hlast k)⟩
  refine ⟨fun l => ?_⟩
  cases l with
  | resource1 => exact ⟨_, fun k hk => hk.2 ▸ htop⟩
  | resource2 => exact htop

/-! ## The code of the threads -/

/-- The threads keep to that order and give back what they take. -/
theorem nested_threadCode (mode : DemoMode) (t : DemoThread) : Nested mode.Order ∅ (threadCode mode t) := by
  cases t with
  | a => cases mode <;> simp [threadCode, threadA, Nested, Cmd.Allowed, Cmd.held, DemoMode.Order]
  | b => cases mode <;> simp [threadCode, threadB, Nested, Cmd.Allowed, Cmd.held, DemoMode.Order]

/-- No thread says that the program completed. -/
theorem completedLine_not_mem (mode : DemoMode) (t : DemoThread) : Cmd.emit completedLine ∉ threadCode mode t := by
  cases t <;> cases mode <;> decide

/-! ## The code of `main` -/

/-- `main` has no statement twice. -/
theorem demoMain_nodup (mode : DemoMode) : (demoMain mode).Nodup := by
  cases mode <;> decide

/-- The last statement is the one that prints the last line. -/
theorem print_completed_iff {mode : DemoMode} {c : DemoMainCmd} {rest : List DemoMainCmd} (h : c :: rest <:+ demoMain mode) :
    c = .print completedLine ↔ rest = [] := by
  have hbanner : mode.banner ≠ completedLine := by cases mode <;> decide
  simp only [demoMain, List.suffix_cons_iff, List.cons.injEq, List.suffix_nil, reduceCtorEq, or_false] at h
  rcases h with ⟨rfl, rfl⟩ | ⟨rfl, rfl⟩ | ⟨rfl, rfl⟩ | ⟨rfl, rfl⟩ | ⟨rfl, rfl⟩ | ⟨rfl, rfl⟩ <;> simp [hbanner]

/-- At a join both threads are created. -/
theorem create_not_mem_of_join {mode : DemoMode} {t : DemoThread} {rest : List DemoMainCmd}
    (h : .join t :: rest <:+ demoMain mode) (u : DemoThread) : .create u ∉ rest := by
  simp only [demoMain, List.suffix_cons_iff, List.cons.injEq, List.suffix_nil, reduceCtorEq, or_false, false_and, false_or] at h
  rcases h with ⟨-, rfl⟩ | ⟨-, rfl⟩ <;> simp

/-! ## What every run keeps -/

/-- What is known of a state of the program. -/
structure DemoInv (mode : DemoMode) (s : DemoState) : Prop where
  /-- `main` is in its code, and so are the threads. -/
  main : s.main <:+ demoMain mode
  code : ∀ t, s.threads.code t <:+ threadCode mode t
  /-- The creations that are over and the joins that are over. -/
  created : ∀ t, s.created t = true ↔ .create t ∉ s.main
  joined : ∀ t, .join t ∉ s.main → s.threads.code t = []
  disciplined : Disciplined mode.Order s.threads
  /-- The last line is printed by the last statement of `main`. -/
  last : completedLine ∈ s.threads.output ↔ s.main = []

variable {mode : DemoMode} {s s' : DemoState}

/-- Before the first step. -/
theorem demoInv_init (mode : DemoMode) : DemoInv mode (DemoState.init mode) where
  main := List.suffix_refl _
  code _ := List.suffix_refl _
  created t := by cases t <;> simp [DemoState.init, demoMain]
  joined t := by cases t <;> simp [DemoState.init, demoMain]
  disciplined t := by
    have hnone : (DemoState.init mode).threads.held t = ∅ := by simp [DemoState.init, Locking.State.held]
    rw [hnone]
    exact nested_threadCode mode t
  last := by simp [DemoState.init, demoMain]

/-- What a statement of `main` prints, and what it creates. -/
def DemoMainCmd.output : DemoMainCmd → List String
  | .print line => [line]
  | _ => []

/-- The threads created behind a statement. -/
def DemoMainCmd.created (created : DemoThread → Bool) : DemoMainCmd → DemoThread → Bool
  | .create t => Function.update created t true
  | _ => created

/-- What a step of `main` is. -/
theorem demoMainStep_eq_some : demoMainStep s = some s' ↔
    ∃ c rest, s.main = c :: rest ∧ (∀ t, c = .join t → s.threads.code t = []) ∧
      s' = { threads := { s.threads with output := s.threads.output ++ c.output }, created := c.created s.created, main := rest } := by
  rw [demoMainStep]
  constructor
  · intro h
    cases hm : s.main with
    | nil =>
      rw [hm] at h
      exact absurd h (Option.some_ne_none _).symm
    | cons c rest =>
      rw [hm] at h
      cases c with
      | print line => exact ⟨.print line, rest, rfl, (fun _ hc => nomatch hc), (Option.some.inj h).symm⟩
      | create t =>
        refine ⟨.create t, rest, rfl, (fun _ hc => nomatch hc), ?_⟩
        simpa [DemoMainCmd.output, DemoMainCmd.created] using (Option.some.inj h).symm
      | join t =>
        dsimp only at h
        split at h
        · rename_i hdone
          refine ⟨.join t, rest, rfl, fun u hu => DemoMainCmd.join.inj hu ▸ hdone, ?_⟩
          simpa [DemoMainCmd.output, DemoMainCmd.created] using (Option.some.inj h).symm
        · exact absurd h (Option.some_ne_none _).symm
  · rintro ⟨c, rest, hm, hdone, rfl⟩
    rw [hm]
    cases c with
    | print line => rfl
    | create t => simp [DemoMainCmd.output, DemoMainCmd.created]
    | join t => simp [DemoMainCmd.output, DemoMainCmd.created, hdone t rfl]

/-- `main` cannot take a step when it has returned or waits for a thread. -/
theorem demoMainStep_eq_none :
    demoMainStep s = none ↔ s.main = [] ∨ ∃ t rest, s.main = .join t :: rest ∧ s.threads.code t ≠ [] := by
  rw [demoMainStep]
  cases s.main with
  | nil => simp
  | cons c rest => cases c <;> simp

/-- A step of `main` keeps the invariant. -/
theorem demoInv_main (h : DemoInv mode s) (hstep : demoMainStep s = some s') : DemoInv mode s' := by
  obtain ⟨hmain, hcode, hcreated, hjoined, hdisc, hlast⟩ := h
  obtain ⟨c, rest, hm, hdone, rfl⟩ := demoMainStep_eq_some.mp hstep
  rw [hm] at hmain hcreated hjoined hlast
  have hnot := print_completed_iff hmain
  have honce : c ∉ rest := (List.nodup_cons.mp (hmain.sublist.nodup (demoMain_nodup mode))).1
  refine ⟨(List.suffix_cons c rest).trans hmain, hcode, fun t => ?_, fun t ht => ?_, hdisc, ?_⟩
  · dsimp only
    by_cases hc : c = .create t
    · subst hc
      simpa [DemoMainCmd.created] using honce
    · have hsame : c.created s.created t = s.created t := by
        cases c with
        | create u => exact Function.update_of_ne (fun h => hc (congrArg _ h.symm)) _ _
        | print line => rfl
        | join u => rfl
      rw [hsame, hcreated t, List.mem_cons, not_or, and_iff_right (Ne.symm hc)]
  · by_cases hc : c = .join t
    · exact hdone t hc
    · exact hjoined t (by rw [List.mem_cons, not_or]; exact ⟨Ne.symm hc, ht⟩)
  · dsimp only
    rw [List.mem_append, hlast, ← hnot]
    cases c with
    | print line => simpa [DemoMainCmd.output] using eq_comm
    | create u => simp [DemoMainCmd.output]
    | join u => simp [DemoMainCmd.output]

/-- What a step of a thread is. -/
theorem demoStep_thread {t : DemoThread} :
    demoStep s (.thread t) = some s' ↔
      s.created t = true ∧ ∃ threads, Locking.step s.threads t = some threads ∧ { s with threads := threads } = s' := by
  rw [demoStep]
  split
  · simp_all
  · simp_all

/-- A step of a thread keeps the invariant. -/
theorem demoInv_thread {t : DemoThread} (h : DemoInv mode s) (hstep : demoStep s (.thread t) = some s') : DemoInv mode s' := by
  obtain ⟨hmain, hcode, hcreated, hjoined, hdisc, hlast⟩ := h
  obtain ⟨-, threads, hthreads, rfl⟩ := demoStep_thread.mp hstep
  have hsuffix := Locking.code_suffix (Reachable.of_step hthreads)
  refine ⟨hmain, fun u => (hsuffix u).trans (hcode u), hcreated, fun u hu => ?_, hdisc.step hthreads, ?_⟩
  · exact List.suffix_nil.mp (hjoined u hu ▸ hsuffix u)
  · obtain ⟨c, cs, hc, -, rfl⟩ := Locking.step_eq_some.mp hthreads
    have hother : completedLine ∉ c.output := by
      intro hmem
      cases c with
      | emit o =>
        obtain rfl := List.mem_singleton.mp hmem
        exact completedLine_not_mem mode t ((hcode t).subset (hc ▸ List.mem_cons_self ..))
      | lock l => exact absurd hmem (List.not_mem_nil)
      | unlock l => exact absurd hmem (List.not_mem_nil)
      | pause => exact absurd hmem (List.not_mem_nil)
    simpa [hother] using hlast

/-- Every step keeps the invariant. -/
theorem demoInv_step {actor : DemoActor} (h : DemoInv mode s) (hstep : demoStep s actor = some s') : DemoInv mode s' := by
  cases actor with
  | main => exact demoInv_main h hstep
  | thread t => exact demoInv_thread h hstep

/-- Every run keeps the invariant. -/
theorem demoInv_reachable (hs : DemoInv mode s) (h : Reachable demoStep s s') : DemoInv mode s' :=
  h.invariant hs (fun _ _ _ hs hstep => demoInv_step hs hstep)

/-- So it holds whatever the order of the steps is. -/
theorem demoInv_of_reachable (h : Reachable demoStep (DemoState.init mode) s) : DemoInv mode s :=
  demoInv_reachable (demoInv_init mode) h

/-! ## Going on -/

/-- Where both threads are created, a run of the locks is a run of the program. -/
theorem reachable_threads {threads : Locking.State DemoThread Resource String} (hcreated : ∀ t, s.created t = true)
    (h : Reachable Locking.step s.threads threads) : Reachable demoStep s { s with threads := threads } := by
  refine Reachable.simulation (I := fun _ => True) (f := fun threads => { s with threads := threads }) (fun _ _ _ _ _ => trivial) ?_
    trivial h
  intro threads₁ t threads₂ _ hstep
  exact Or.inr ⟨.thread t, demoStep_thread.mpr ⟨hcreated t, threads₂, hstep, rfl⟩⟩

/-- `main` can do its next statements when the threads that they join have returned. -/
theorem exists_main_run {xs ys : List DemoMainCmd} (hmain : s.main = xs ++ ys)
    (hdone : ∀ t, .join t ∈ xs → s.threads.code t = []) :
    ∃ s', Reachable demoStep s s' ∧ s'.main = ys ∧ s'.threads.owner = s.threads.owner ∧ s'.threads.code = s.threads.code := by
  induction xs generalizing s with
  | nil => exact ⟨s, .refl s, hmain, rfl, rfl⟩
  | cons c xs ih =>
    have hstep := demoMainStep_eq_some.mpr ⟨c, xs ++ ys, hmain, fun t hc => hdone t (hc ▸ List.mem_cons_self ..), rfl⟩
    obtain ⟨s', hreach, hrest⟩ := ih (s := DemoState.mk { s.threads with output := s.threads.output ++ c.output } _ (xs ++ ys)) rfl
      (fun t ht => hdone t (List.mem_cons_of_mem c ht))
    exact ⟨s', (Reachable.of_step (a := .main) hstep).trans hreach, hrest⟩

/-- Whether the statement waits for a thread. -/
def DemoMainCmd.isJoin : DemoMainCmd → Bool
  | .join _ => true
  | _ => false

/-- So both threads can be created. -/
theorem exists_created (h : DemoInv mode s) :
    ∃ s', Reachable demoStep s s' ∧ (∀ t, s'.created t = true) ∧ s'.threads.owner = s.threads.owner ∧
      s'.threads.code = s.threads.code := by
  have hsplit := (List.takeWhile_append_dropWhile (p := fun c => !DemoMainCmd.isJoin c) (l := s.main)).symm
  obtain ⟨s', hreach', hmain', howner, hcode⟩ := exists_main_run hsplit (fun t ht => nomatch List.mem_takeWhile_imp ht)
  refine ⟨s', hreach', fun t => ?_, howner, hcode⟩
  rw [(demoInv_reachable h hreach').created t, hmain']
  have hsuffix : s.main.dropWhile (fun c => !DemoMainCmd.isJoin c) <:+ demoMain mode :=
    (List.dropWhile_suffix _).trans h.main
  cases hrest : s.main.dropWhile (fun c => !DemoMainCmd.isJoin c) with
  | nil => exact List.not_mem_nil
  | cons c rest =>
    have hhead := List.head?_dropWhile_not (fun c => !DemoMainCmd.isJoin c) s.main
    rw [hrest, List.head?_cons] at hhead
    cases c with
    | join u =>
      rw [hrest] at hsuffix
      simpa using create_not_mem_of_join hsuffix t
    | print line => exact nomatch hhead
    | create u => exact nomatch hhead

/-- The program is at its end: `main` has returned, and so have the threads. -/
def DemoState.Completed (s : DemoState) : Prop := s.main = [] ∧ ∀ t, s.threads.code t = []

/-- Behind the last line nobody has a step. -/
theorem stuck_of_completed (h : s.Completed) : Stuck demoStep s := by
  intro actor
  cases actor with
  | main => exact demoMainStep_eq_none.mpr (Or.inl h.1)
  | thread t =>
    rw [demoStep, Locking.step_eq_none.mpr (Or.inl (h.2 t))]
    split <;> rfl

/-- When the threads have returned, `main` can go to its end. -/
theorem exists_completed (h : ∀ t, s.threads.code t = []) : ∃ s', Reachable demoStep s s' ∧ s'.Completed := by
  obtain ⟨s', hreach, hmain, -, hcode⟩ := exists_main_run (List.append_nil s.main).symm (fun t _ => h t)
  exact ⟨s', hreach, hmain, fun t => hcode ▸ h t⟩

/-- The statements that are still to be done, of `main` and of the threads. -/
def DemoState.remaining (s : DemoState) : Nat := s.main.length + s.threads.remaining

/-- Each step does one of the things that remain. -/
theorem remaining_demoStep {actor : DemoActor} (h : demoStep s actor = some s') : s'.remaining + 1 = s.remaining := by
  cases actor with
  | thread t =>
    obtain ⟨-, threads, hthreads, rfl⟩ := demoStep_thread.mp h
    have hone := Locking.remaining_step hthreads
    simp only [DemoState.remaining]
    omega
  | main =>
    obtain ⟨c, rest, hm, -, rfl⟩ := demoMainStep_eq_some.mp h
    simp only [DemoState.remaining, Locking.State.remaining, hm, List.length_cons]
    omega

/-- Without a step the program is at its end, or `main` waits at a join for one of the threads, and these have no step either. -/
theorem completed_or_waits (h : DemoInv mode s) (hstuck : Stuck demoStep s) :
    s.Completed ∨ (∀ t, s.created t = true) ∧ (∃ t, s.threads.code t ≠ []) ∧ Stuck Locking.step s.threads := by
  rcases demoMainStep_eq_none.mp (hstuck .main) with hm | ⟨t, rest, hm, hcode⟩
  · exact Or.inl ⟨hm, fun t => h.joined t (by rw [hm]; exact List.not_mem_nil)⟩
  · have hcreated : ∀ u, s.created u = true := by
      intro u
      rw [h.created u, hm]
      simpa using create_not_mem_of_join (hm ▸ h.main) u
    refine Or.inr ⟨hcreated, ⟨t, hcode⟩, fun u => ?_⟩
    have hu := hstuck (.thread u)
    rwa [demoStep, if_pos (hcreated u), Option.map_eq_none_iff] at hu

/-- The threads only get on. -/
theorem demo_code_suffix (h : Reachable demoStep s s') (t : DemoThread) : s'.threads.code t <:+ s.threads.code t := by
  refine h.invariant (I := fun s₁ => s₁.threads.code t <:+ s.threads.code t) (List.suffix_refl _) ?_
  intro s₁ actor s₂ hs₁ hstep
  cases actor with
  | main =>
    obtain ⟨c, rest, -, -, rfl⟩ := demoMainStep_eq_some.mp hstep
    exact hs₁
  | thread u =>
    obtain ⟨-, threads, hthreads, rfl⟩ := demoStep_thread.mp hstep
    exact (Locking.code_suffix (Reachable.of_step hthreads) t).trans hs₁

/-! ## Without an order of the locks -/

/-- The resource that a thread takes first in the unsafe mode, and the one that it takes then. -/
def DemoThread.first : DemoThread → Resource
  | .a => .resource1
  | .b => .resource2

/-- The resource that a thread takes second in the unsafe mode. -/
def DemoThread.second : DemoThread → Resource
  | .a => .resource2
  | .b => .resource1

/-- The thread beside this one. -/
def DemoThread.other : DemoThread → DemoThread
  | .a => .b
  | .b => .a

/-- Each thread has its first resource and has still to take its second. -/
def DemoState.Doomed (s : DemoState) : Prop :=
  ∀ t : DemoThread, s.threads.owner t.first = some t ∧ .lock t.second ∈ s.threads.code t

/-- Each thread has its first resource and waits for its second, and `main` waits for the first thread. -/
def DemoState.Deadlocked (s : DemoState) : Prop :=
  (∀ t : DemoThread, s.threads.owner t.first = some t ∧ ∃ cs, s.threads.code t = .lock t.second :: cs) ∧
    ∃ rest, s.main = .join .a :: rest

namespace DeadlockAux

open Locking (owes)

/-- What a thread takes second is what the other takes first. -/
theorem second_eq (t : DemoThread) : t.second = t.other.first := by cases t <;> rfl

/-- The other thread is not the thread itself. -/
theorem other_ne (t : DemoThread) : t.other ≠ t := by cases t <;> decide

/-- There are two threads only. -/
theorem eq_other {t u : DemoThread} (h : u ≠ t) : u = t.other := by
  cases t <;> cases u <;> first | rfl | exact absurd rfl h

/-- There are two resources too. -/
theorem resource_cases (t : DemoThread) (l : Resource) : l = t.first ∨ l = t.second := by
  cases t <;> cases l <;> decide

/-! ### Where a thread can be -/

variable {t u : DemoThread} {cs : List (Cmd Resource String)}

/-- A thread has its second resource only with its first. -/
theorem owes_first (hcs : cs <:+ threadCode .demoUnsafe t) (h : owes t.second cs = true) : owes t.first cs = true := by
  have hall : ∀ cs ∈ (threadCode .demoUnsafe t).tails, owes t.second cs = true → owes t.first cs = true := by
    cases t <;> decide
  exact hall cs ((List.mem_tails _ _).mpr hcs) h

/-- When it has taken its second resource, it takes no more. -/
theorem no_lock (hcs : cs <:+ threadCode .demoUnsafe t) (h : .lock t.second ∉ cs) (l : Resource) : .lock l ∉ cs := by
  have hall : ∀ cs ∈ (threadCode .demoUnsafe t).tails, .lock t.second ∉ cs → ∀ l, .lock l ∉ cs := by
    cases t <;> decide
  exact hall cs ((List.mem_tails _ _).mpr hcs) h l

/-- Before that it does not have it, gives nothing back, and takes nothing but its first one until it takes the second. -/
theorem before_second (hcs : cs <:+ threadCode .demoUnsafe t) (h : .lock t.second ∈ cs) :
    owes t.second cs = false ∧ (∀ l, cs.head? ≠ some (.unlock l)) ∧
      ∃ xs, cs = xs ++ (threadCode .demoUnsafe t).drop 5 ∧ ∀ l, .lock l ∈ xs → l = t.first := by
  have hall : ∀ cs ∈ (threadCode .demoUnsafe t).tails, .lock t.second ∈ cs →
      owes t.second cs = false ∧ (∀ l, cs.head? ≠ some (.unlock l)) ∧
        cs.dropWhile (fun c => c ≠ .lock t.second) = (threadCode .demoUnsafe t).drop 5 ∧
        ∀ l, .lock l ∈ cs.takeWhile (fun c => c ≠ .lock t.second) → l = t.first := by
    cases t <;> decide
  obtain ⟨howes, hhead, hdrop, htake⟩ := hall cs ((List.mem_tails _ _).mpr hcs) h
  refine ⟨howes, hhead, _, ?_, htake⟩
  rw [← hdrop]
  exact List.takeWhile_append_dropWhile.symm

/-- Before it takes its first resource it has none. -/
theorem at_first (hcs : .lock t.first :: cs <:+ threadCode .demoUnsafe t) (l : Resource) :
    owes l (.lock t.first :: cs) = false := by
  have hall : ∀ cs ∈ (threadCode .demoUnsafe t).tails, cs.head? = some (.lock t.first) → ∀ l, owes l cs = false := by
    cases t <;> decide
  exact hall _ ((List.mem_tails _ _).mpr hcs) rfl l

/-- The second resource is the sixth thing that a thread asks for. -/
theorem drop_five (t : DemoThread) : ∃ cs, (threadCode .demoUnsafe t).drop 5 = .lock t.second :: cs := by
  cases t <;> exact ⟨_, rfl⟩

variable {mode : DemoMode} {s s' : DemoState}

/-- Who has a lock is told by what is still to be done. -/
theorem owner_iff (h : DemoInv .demoUnsafe s) {l : Resource} :
    s.threads.owner l = some t ↔ owes l (s.threads.code t) = true := h.disciplined.owner_iff_owes

/-! ### Nobody gets out -/

/-- When they are doomed, each thread has what the other one still needs. -/
theorem owner_second (hdoomed : s.Doomed) (t : DemoThread) : s.threads.owner t.second = some t.other := by
  rw [second_eq]
  exact (hdoomed t.other).1

/-- A step does not get them out of this. -/
theorem doomed_step (h : DemoInv .demoUnsafe s) (hdoomed : s.Doomed) {actor : DemoActor} (hstep : demoStep s actor = some s') :
    s'.Doomed := by
  cases actor with
  | main =>
    obtain ⟨c, rest, -, -, rfl⟩ := demoMainStep_eq_some.mp hstep
    exact hdoomed
  | thread t =>
    obtain ⟨-, threads, hthreads, rfl⟩ := demoStep_thread.mp hstep
    obtain ⟨c, cs, hcode, hen, rfl⟩ := Locking.step_eq_some.mp hthreads
    obtain ⟨hfirst, hsecond⟩ := hdoomed t
    have hcs := h.code t
    have hbefore := before_second hcs hsecond
    rw [hcode] at hcs hsecond hbefore
    -- the next command is neither a lock, which the other thread has, nor an unlock
    have hsame : c.owner t s.threads.owner = s.threads.owner := by
      cases c with
      | lock l =>
        exfalso
        have hfree : s.threads.owner l = none := hen
        rcases resource_cases t l with rfl | rfl
        · exact nomatch hfree.symm.trans hfirst
        · exact nomatch hfree.symm.trans (owner_second hdoomed t)
      | unlock l => exact absurd rfl (hbefore.2.1 l)
      | emit o => rfl
      | pause => rfl
    have hstill : .lock t.second ∈ cs := by
      rcases List.mem_cons.mp hsecond with hc | hcs
      · subst hc
        have hfree : s.threads.owner t.second = none := hen
        exact nomatch hfree.symm.trans (owner_second hdoomed t)
      · exact hcs
    intro u
    refine ⟨by dsimp only; rw [hsame]; exact (hdoomed u).1, ?_⟩
    by_cases hu : u = t
    · subst hu
      simpa only [Function.update_self] using hstill
    · simpa only [Function.update_of_ne hu] using (hdoomed u).2

/-- No run gets them out of this. -/
theorem doomed_reachable (h : DemoInv .demoUnsafe s) (hdoomed : s.Doomed) (hreach : Reachable demoStep s s') : s'.Doomed :=
  (hreach.invariant (I := fun s => DemoInv .demoUnsafe s ∧ s.Doomed) ⟨h, hdoomed⟩
    (fun _ _ _ hs hstep => ⟨demoInv_step hs.1 hstep, doomed_step hs.1 hs.2 hstep⟩)).2

/-! ### A way to the end -/

/-- Where only one thread has locks, the program can complete. -/
theorem exists_completed_of_one (h : DemoInv .demoUnsafe s) (hcreated : ∀ t, s.created t = true) (t : DemoThread)
    (hfree : ∀ l u, s.threads.owner l = some u → u = t) : ∃ s', Reachable demoStep s s' ∧ s'.Completed := by
  obtain ⟨threads, hreach, hdone⟩ := h.disciplined.exists_all_done hfree
  obtain ⟨s', hreach', hend⟩ := exists_completed (s := { s with threads := threads }) hdone
  exact ⟨s', (reachable_threads hcreated hreach).trans hreach', hend⟩

/-- A thread that does not have its first resource has none. -/
theorem owner_of_not_first (h : DemoInv .demoUnsafe s) (hfirst : s.threads.owner t.first ≠ some t) (l : Resource) :
    s.threads.owner l ≠ some t := by
  rcases resource_cases t l with rfl | rfl
  · exact hfirst
  · intro hl
    exact hfirst ((owner_iff h).mpr (owes_first (h.code t) ((owner_iff h).mp hl)))

/-- When they are not, a thread can go on alone to its end, and then the other one. -/
theorem exists_completed_of_not_doomed (h : DemoInv .demoUnsafe s) (hcreated : ∀ t, s.created t = true) (hnot : ¬s.Doomed) :
    ∃ s', Reachable demoStep s s' ∧ s'.Completed := by
  simp only [DemoState.Doomed, not_forall, not_and_or] at hnot
  obtain ⟨t, hfirst | hsecond⟩ := hnot
  · exact exists_completed_of_one h hcreated t.other (fun l u hu => eq_other (fun hut => owner_of_not_first h hfirst l (hut ▸ hu)))
  · -- the thread takes no more locks, so it can be taken to its end first
    obtain ⟨threads, hreach, hcode, hothers⟩ := h.disciplined.exists_run (t := t) (List.append_nil _).symm
      (fun l hl => absurd hl (no_lock (h.code t) hsecond l))
    have hlater := reachable_threads hcreated hreach
    have hdone : threads.code t = [] := by rw [hcode, Function.update_self]
    have hdisc := h.disciplined.reachable hreach
    obtain ⟨s', hreach', hend⟩ := exists_completed_of_one (s := { s with threads := threads }) (demoInv_reachable h hlater) hcreated
      t.other (fun l u hu => eq_other (fun hut => hdisc.code_ne_nil (hut ▸ hu) hdone))
    exact ⟨s', hlater.trans hreach', hend⟩

/-! ### A way to the deadlock -/

/-- A thread that has still to take its second resource can go on until it asks for it, if the other one does not have its second. -/
theorem exists_asks (h : DemoInv .demoUnsafe s) (hcreated : ∀ t, s.created t = true) (hsecond : .lock t.second ∈ s.threads.code t)
    (hother : .lock t.other.second ∈ s.threads.code t.other) :
    ∃ s', Reachable demoStep s s' ∧ (∀ t, s'.created t = true) ∧ s'.threads.code t = (threadCode .demoUnsafe t).drop 5 ∧
      s'.threads.code t.other = s.threads.code t.other := by
  obtain ⟨-, -, xs, hcode, hxs⟩ := before_second (h.code t) hsecond
  obtain ⟨threads, hreach, hcode', -⟩ := h.disciplined.exists_run hcode (fun l hl u hu => by
    by_contra hut
    obtain rfl := eq_other hut
    have howes := (owner_iff h).mp hu
    rw [hxs l hl, show t.first = t.other.second by cases t <;> rfl] at howes
    exact Bool.false_ne_true ((before_second (h.code t.other) hother).1.symm.trans howes))
  refine ⟨_, reachable_threads hcreated hreach, hcreated, ?_, ?_⟩
  · rw [hcode', Function.update_self]
  · rw [hcode', Function.update_of_ne (other_ne t)]

/-- When both threads are created and the first has not returned, `main` is at its first join or will be. -/
theorem main_at_join (h : DemoInv mode s) (hcreated : ∀ t, s.created t = true) (ha : s.threads.code .a ≠ []) :
    ∃ rest, s.main = .join .a :: rest := by
  have hjoin : .join .a ∈ s.main := by
    by_contra hnot
    exact ha (h.joined .a hnot)
  have hcreate := (h.created .b).mp (hcreated .b)
  have hmain := h.main
  simp only [demoMain, List.suffix_cons_iff, List.suffix_nil] at hmain
  rcases hmain with hm | hm | hm | hm | hm | hm | hm <;> rw [hm] at hjoin hcreate ⊢ <;> simp at hjoin hcreate ⊢

/-- While both have their second resource to take, each can go on until it waits for it. -/
theorem exists_deadlocked (h : DemoInv .demoUnsafe s) (hcreated : ∀ t, s.created t = true)
    (hsecond : ∀ t : DemoThread, .lock t.second ∈ s.threads.code t) : ∃ s', Reachable demoStep s s' ∧ s'.Deadlocked := by
  obtain ⟨s₁, hreach₁, hcreated₁, ha₁, hb₁⟩ := exists_asks h hcreated (hsecond .a) (hsecond .b)
  obtain ⟨s₂, hreach₂, hcreated₂, hb₂, ha₂⟩ := exists_asks (t := .b) (demoInv_reachable h hreach₁) hcreated₁
    (hb₁ ▸ hsecond .b) (by rw [show DemoThread.b.other = .a from rfl, ha₁]; decide)
  have hinv := demoInv_reachable h (hreach₁.trans hreach₂)
  have hcode : ∀ t, s₂.threads.code t = (threadCode .demoUnsafe t).drop 5
    | .a => ha₂.trans ha₁
    | .b => hb₂
  refine ⟨s₂, hreach₁.trans hreach₂, fun t => ⟨?_, hcode t ▸ drop_five t⟩, main_at_join hinv hcreated₂ ?_⟩
  · rw [owner_iff hinv, hcode]
    cases t <;> rfl
  · rw [hcode]
    decide

/-! ### Without a step -/

/-- Where each waits for the other, `main` waits as well. -/
theorem stuck_of_deadlocked (hdead : s.Deadlocked) : Stuck demoStep s := by
  obtain ⟨hthreads, rest, hmain⟩ := hdead
  intro actor
  cases actor with
  | main =>
    obtain ⟨-, cs, hcs⟩ := hthreads .a
    exact demoMainStep_eq_none.mpr (Or.inr ⟨.a, rest, hmain, hcs ▸ List.cons_ne_nil _ _⟩)
  | thread t =>
    obtain ⟨-, cs, hcs⟩ := hthreads t
    have howner : s.threads.owner t.second = some t.other := second_eq t ▸ (hthreads t.other).1
    rw [demoStep, Locking.step_eq_none.mpr (Or.inr ⟨_, cs, _, hcs, howner⟩)]
    split <;> rfl

/-- A thread that waits in a state without a step waits for the other one. -/
theorem waits_for_other (h : DemoInv .demoUnsafe s) (hstuck : Stuck Locking.step s.threads) (hcode : s.threads.code t ≠ []) :
    ∃ l cs, s.threads.code t = .lock l :: cs ∧ s.threads.owner l = some t.other := by
  rcases Locking.step_eq_none.mp (hstuck t) with hdone | ⟨l, cs, u, hwaits, hl⟩
  · exact absurd hdone hcode
  · have hut : u ≠ t := by
      rintro rfl
      have howes := (owner_iff h).mp hl
      rw [hwaits, owes, if_pos rfl] at howes
      exact Bool.false_ne_true howes
    exact ⟨l, cs, hwaits, eq_other hut ▸ hl⟩

/-- It waits for its second resource, and so does the other one, which waits for it. -/
theorem waits_for_second (h : DemoInv .demoUnsafe s) (hstuck : Stuck Locking.step s.threads) (hcode : s.threads.code t ≠ []) :
    (s.threads.owner t.first = some t ∧ ∃ cs, s.threads.code t = .lock t.second :: cs) ∧ s.threads.code t.other ≠ [] := by
  obtain ⟨l, cs, hwaits, hl⟩ := waits_for_other h hstuck hcode
  have hother := h.disciplined.code_ne_nil hl
  obtain ⟨k, ks, -, hk⟩ := waits_for_other h hstuck hother
  have hmine : s.threads.owner k = some t := by rwa [show t.other.other = t by cases t <;> rfl] at hk
  have hfirst : s.threads.owner t.first = some t := by
    by_contra hnot
    exact owner_of_not_first h hnot k hmine
  refine ⟨⟨hfirst, ?_⟩, hother⟩
  rcases resource_cases t l with rfl | rfl
  · have hnone := at_first (hwaits ▸ h.code t) t.first
    rw [← hwaits, ← Bool.not_eq_true, ← owner_iff h] at hnone
    exact absurd hfirst hnone
  · exact ⟨cs, hwaits⟩

/-- A state without a step is the end, or both threads wait. -/
theorem completed_or_deadlocked (h : DemoInv .demoUnsafe s) (hstuck : Stuck demoStep s) : s.Completed ∨ s.Deadlocked := by
  rcases completed_or_waits h hstuck with hend | ⟨hcreated, ⟨t, hcode⟩, hthreads⟩
  · exact Or.inl hend
  · obtain ⟨ht, hother⟩ := waits_for_second h hthreads hcode
    obtain ⟨hu, -⟩ := waits_for_second h hthreads hother
    have hboth : ∀ u : DemoThread, s.threads.owner u.first = some u ∧ ∃ cs, s.threads.code u = .lock u.second :: cs := by
      intro u
      by_cases hut : u = t
      · exact hut ▸ ht
      · exact eq_other hut ▸ hu
    obtain ⟨-, cs, hcs⟩ := hboth .a
    exact Or.inr ⟨hboth, main_at_join h hcreated (hcs ▸ List.cons_ne_nil _ _)⟩

end DeadlockAux

end OsSecurity.Scheduler
