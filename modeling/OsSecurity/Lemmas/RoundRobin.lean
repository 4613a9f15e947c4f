import OsSecurity.Scheduler.RoundRobin
import Mathlib.Algebra.BigOperators.Fin

/-!
# Helpers about the scheduler: what a step does, and what every step keeps

A thread's step changes only what belongs to the thread, its `View`, and the tokens of `done_sem`. The hand-off is an account of
tokens: a thread holds its turn tokens and the slice it is inside of, and while the dispatcher waits there is exactly one token, held
by the thread it waits for or posted back by it.
-/

namespace OsSecurity.Scheduler

/-- A thread is inside a slice: between `sem_wait` on its turn semaphore and `sem_post` on `done_sem`. -/
def ThreadPc.inSlice : ThreadPc → Bool
  | .start | .run _ _ | .sleep _ | .post _ => true
  | .wait | .check _ | .exited => false

/-- What belongs to one process: its PCB, its turn semaphore and where its thread is. -/
structure View where
  pcb : PCB
  turn : Nat
  pc : ThreadPc

variable {n : Nat}

/-- What concerns one process. -/
def State.view (s : State n) (i : Fin n) : View := ⟨s.processes i, s.turnSem i, s.threads i⟩

/-- The tokens of a process: those posted to it, and the slice its thread is inside of. -/
def View.held (v : View) : Nat := v.turn + if v.pc.inSlice = true then 1 else 0

namespace RoundRobinAux

variable {q : Int} {s s' : State n} {v v' : View} {i j : Fin n} {d : Nat} {out : List Line}

/-! ## What a step does -/

/-- The steps of a thread: the view before and after, the tokens posted to `done_sem` and the lines printed. -/
inductive ThreadEffect (q : Int) : View → View → Nat → List Line → Prop where
  | wait (p : PCB) (t : Nat) : 0 < t → ThreadEffect q ⟨p, t, .wait⟩ ⟨p, t - 1, .start⟩ 0 []
  | start (p : PCB) (t : Nat) : ThreadEffect q ⟨p, t, .start⟩
      ⟨{ p with state := .running }, t, .run (if p.remainingTime < q then p.remainingTime else q) p.remainingTime⟩ 0 []
  | run (p : PCB) (t : Nat) (runTime remainingBefore : Int) : ThreadEffect q ⟨p, t, .run runTime remainingBefore⟩
      ⟨p, t, .sleep runTime⟩ 0 [.running p.pid runTime remainingBefore]
  | finish (p : PCB) (t : Nat) (runTime : Int) : p.remainingTime - runTime ≤ 0 → ThreadEffect q ⟨p, t, .sleep runTime⟩
      ⟨{ p with remainingTime := p.remainingTime - runTime, state := .done }, t, .post true⟩ 0 [.finished p.pid]
  | pause (p : PCB) (t : Nat) (runTime : Int) : ¬ p.remainingTime - runTime ≤ 0 → ThreadEffect q ⟨p, t, .sleep runTime⟩
      ⟨{ p with remainingTime := p.remainingTime - runTime, state := .ready }, t, .post false⟩ 0 []
  | post (p : PCB) (t : Nat) (justFinished : Bool) :
      ThreadEffect q ⟨p, t, .post justFinished⟩ ⟨p, t, .check justFinished⟩ 1 []
  | check (p : PCB) (t : Nat) (justFinished : Bool) :
      ThreadEffect q ⟨p, t, .check justFinished⟩ ⟨p, t, if justFinished then .exited else .wait⟩ 0 []

/-- The state with another view of one process, `d` more tokens in `done_sem` and more lines printed. -/
def put (s : State n) (i : Fin n) (v : View) (d : Nat) (out : List Line) : State n :=
  { processes := Function.update s.processes i v.pcb
    turnSem := Function.update s.turnSem i v.turn
    doneSem := s.doneSem + d
    threads := Function.update s.threads i v.pc
    dispatcher := s.dispatcher
    output := s.output ++ out }

theorem view_put_self (s : State n) (i : Fin n) (v : View) (d : Nat) (out : List Line) : (put s i v d out).view i = v := by
  simp [put, State.view]

theorem view_put_ne (s : State n) (v : View) (d : Nat) (out : List Line) (h : j ≠ i) :
    (put s i v d out).view j = s.view j := by
  simp [put, State.view, h]

theorem turnSem_put_self (s : State n) (i : Fin n) (v : View) (d : Nat) (out : List Line) :
    (put s i v d out).turnSem i = v.turn :=
  congrArg View.turn (view_put_self s i v d out)

theorem turnSem_put_ne (s : State n) (v : View) (d : Nat) (out : List Line) (h : j ≠ i) :
    (put s i v d out).turnSem j = s.turnSem j :=
  congrArg View.turn (view_put_ne s v d out h)

theorem processes_put_self (s : State n) (i : Fin n) (v : View) (d : Nat) (out : List Line) :
    (put s i v d out).processes i = v.pcb :=
  congrArg View.pcb (view_put_self s i v d out)

/-- A thread's step changes its own view and nothing of the other processes. -/
theorem processThread_effect (h : processThread q s i = some s') :
    ∃ v d out, ThreadEffect q (s.view i) v d out ∧ s' = put s i v d out := by
  unfold processThread at h
  have hview : s.view i = ⟨s.processes i, s.turnSem i, s.threads i⟩ := rfl
  cases hpc : s.threads i with
  | wait =>
    rw [hpc] at h hview
    by_cases hturn : 0 < s.turnSem i
    · simp only [if_pos hturn] at h
      obtain rfl := Option.some.inj h
      exact ⟨_, _, _, hview ▸ ThreadEffect.wait _ _ hturn, by simp [put]⟩
    · simp only [if_neg hturn] at h
      nomatch h
  | start =>
    rw [hpc] at h hview
    obtain rfl := Option.some.inj h
    exact ⟨_, _, _, hview ▸ ThreadEffect.start _ _, by simp [put]⟩
  | run runTime remainingBefore =>
    rw [hpc] at h hview
    obtain rfl := Option.some.inj h
    exact ⟨_, _, _, hview ▸ ThreadEffect.run _ _ _ _, by simp [put]⟩
  | sleep runTime =>
    rw [hpc] at h hview
    by_cases hdone : (s.processes i).remainingTime - runTime ≤ 0
    · simp only [if_pos hdone] at h
      obtain rfl := Option.some.inj h
      exact ⟨_, _, _, hview ▸ ThreadEffect.finish _ _ _ hdone, by simp [put]⟩
    · simp only [if_neg hdone] at h
      obtain rfl := Option.some.inj h
      exact ⟨_, _, _, hview ▸ ThreadEffect.pause _ _ _ hdone, by simp [put]⟩
  | post justFinished =>
    rw [hpc] at h hview
    obtain rfl := Option.some.inj h
    exact ⟨_, _, _, hview ▸ ThreadEffect.post _ _ _, by simp [put]⟩
  | check justFinished =>
    rw [hpc] at h hview
    obtain rfl := Option.some.inj h
    exact ⟨_, _, _, hview ▸ ThreadEffect.check _ _ _, by simp [put]⟩
  | exited =>
    rw [hpc] at h
    nomatch h

/-- The state after the dispatcher gave a process its turn. -/
def give (s : State n) (i : Fin n) (finished : Nat) : State n :=
  { s with turnSem := Function.update s.turnSem i (s.turnSem i + 1), dispatcher := .wait i finished }

theorem view_give_self (s : State n) (i : Fin n) (finished : Nat) :
    (give s i finished).view i = ⟨s.processes i, s.turnSem i + 1, s.threads i⟩ := by
  simp [give, State.view]

theorem view_give_ne (s : State n) (finished : Nat) (h : j ≠ i) : (give s i finished).view j = s.view j := by
  simp [give, State.view, h]

/-- The steps of the dispatcher. -/
inductive DispatcherEffect (s : State n) : State n → Prop where
  | enter (finished : Nat) : s.dispatcher = .outer finished → finished < n →
      DispatcherEffect s { s with dispatcher := .scan 0 0 }
  | leave (finished : Nat) : s.dispatcher = .outer finished → ¬ finished < n →
      DispatcherEffect s { s with dispatcher := .join 0 }
  | skip (i : Fin n) (finished : Nat) : s.dispatcher = .scan i finished → (s.processes i).state = .done →
      DispatcherEffect s { s with dispatcher := .scan (i + 1) (finished + 1) }
  | choose (i : Fin n) (finished : Nat) : s.dispatcher = .scan i finished → (s.processes i).state ≠ .done →
      DispatcherEffect s { s with dispatcher := .post i finished }
  | again (i finished : Nat) : s.dispatcher = .scan i finished → ¬ i < n →
      DispatcherEffect s { s with dispatcher := .outer finished }
  | post (i : Fin n) (finished : Nat) : s.dispatcher = .post i finished → DispatcherEffect s (give s i finished)
  | resume (i : Fin n) (finished : Nat) : s.dispatcher = .wait i finished → 0 < s.doneSem →
      DispatcherEffect s { s with doneSem := s.doneSem - 1, dispatcher := .scan (i + 1) finished }
  | join (i : Fin n) : s.dispatcher = .join i → s.threads i = .exited →
      DispatcherEffect s { s with dispatcher := .join (i + 1) }
  | complete (i : Nat) : s.dispatcher = .join i → ¬ i < n → DispatcherEffect s { s with dispatcher := .completed }

/-- A step of the dispatcher has one of these effects. -/
theorem runRoundRobin_effect (h : runRoundRobin s = some s') : DispatcherEffect s s' := by
  unfold runRoundRobin at h
  cases hpc : s.dispatcher with
  | outer finished =>
    rw [hpc] at h
    by_cases hlt : finished < n
    · simp only [if_pos hlt] at h
      exact Option.some.inj h ▸ .enter finished hpc hlt
    · simp only [if_neg hlt] at h
      exact Option.some.inj h ▸ .leave finished hpc hlt
  | scan i finished =>
    rw [hpc] at h
    by_cases hi : i < n
    · simp only [dif_pos hi] at h
      by_cases hdone : (s.processes ⟨i, hi⟩).state = .done
      · rw [if_pos hdone] at h
        exact Option.some.inj h ▸ .skip ⟨i, hi⟩ finished hpc hdone
      · rw [if_neg hdone] at h
        exact Option.some.inj h ▸ .choose ⟨i, hi⟩ finished hpc hdone
    · simp only [dif_neg hi] at h
      exact Option.some.inj h ▸ .again i finished hpc hi
  | post i finished =>
    rw [hpc] at h
    exact Option.some.inj h ▸ .post i finished hpc
  | wait i finished =>
    rw [hpc] at h
    by_cases hdone : 0 < s.doneSem
    · simp only [if_pos hdone] at h
      exact Option.some.inj h ▸ .resume i finished hpc hdone
    · simp only [if_neg hdone] at h
      nomatch h
  | join i =>
    rw [hpc] at h
    by_cases hi : i < n
    · simp only [dif_pos hi] at h
      by_cases hexited : s.threads ⟨i, hi⟩ = .exited
      · rw [if_pos hexited] at h
        exact Option.some.inj h ▸ .join ⟨i, hi⟩ hpc hexited
      · rw [if_neg hexited] at h
        nomatch h
    · simp only [dif_neg hi] at h
      exact Option.some.inj h ▸ .complete i hpc hi
  | completed =>
    rw [hpc] at h
    nomatch h

/-! ## What a process keeps -/

/-- What the state of a process says of where its thread is. -/
def Matches (q : Int) (p : PCB) : ThreadPc → Prop
  | .wait | .start => p.state = .ready
  | .run runTime _ | .sleep runTime =>
    p.state = .running ∧ runTime = if p.remainingTime < q then p.remainingTime else q
  | .post justFinished | .check justFinished => p.state = if justFinished then .done else .ready
  | .exited => p.state = .done

/-- A process with burst time `b`. -/
structure ViewOk (q b : Int) (v : View) : Prop where
  burstTime : v.pcb.burstTime = b
  nonneg : 0 ≤ v.pcb.remainingTime
  le : v.pcb.remainingTime ≤ b
  done : v.pcb.state = .done → v.pcb.remainingTime = 0
  pc : Matches q v.pcb v.pc

/-- A step of a thread keeps it. -/
theorem ThreadEffect.ok {b : Int} (hq : 1 ≤ q) (h : ThreadEffect q v v' d out) (hv : ViewOk q b v) : ViewOk q b v' := by
  obtain ⟨hburst, hnonneg, hle, hdone, hpc⟩ := hv
  cases h with
  | wait p t _ => exact ⟨hburst, hnonneg, hle, hdone, hpc⟩
  | start p t => exact ⟨hburst, hnonneg, hle, fun h => (by cases h), rfl, rfl⟩
  | run p t runTime remainingBefore => exact ⟨hburst, hnonneg, hle, hdone, hpc⟩
  | finish p t runTime hlast =>
    obtain ⟨-, hrun⟩ := hpc
    dsimp only at hnonneg hle hrun
    have hzero : p.remainingTime - runTime = 0 := by
      split at hrun <;> omega
    exact ⟨hburst, Int.le_of_eq hzero.symm, hzero.trans_le (Int.le_trans hnonneg hle), fun _ => hzero, rfl⟩
  | pause p t runTime hmore =>
    obtain ⟨-, hrun⟩ := hpc
    dsimp only at hnonneg hle hrun
    have hless : p.remainingTime - runTime ≤ b := by
      split at hrun <;> omega
    exact ⟨hburst, Int.le_of_lt (Int.not_le.mp hmore), hless, fun h => (by cases h), rfl⟩
  | post p t justFinished => exact ⟨hburst, hnonneg, hle, hdone, hpc⟩
  | check p t justFinished =>
    refine ⟨hburst, hnonneg, hle, hdone, ?_⟩
    cases justFinished with
    | true => exact hpc
    | false => exact hpc

/-- A thread only gives its tokens on: to `done_sem`. -/
theorem ThreadEffect.held (h : ThreadEffect q v v' d out) : v'.held + d = v.held := by
  cases h with
  | wait p t ht => exact Nat.sub_add_cancel ht
  | check p t justFinished => cases justFinished <;> rfl
  | _ => rfl

/-- A thread posts no turn. -/
theorem ThreadEffect.turn_le (h : ThreadEffect q v v' d out) : v'.turn ≤ v.turn := by
  cases h with
  | wait p t ht => exact Nat.sub_le t 1
  | _ => exact Nat.le_refl _

/-- A thread that holds nothing is past its slice. -/
theorem ThreadEffect.of_held_eq_zero (h : ThreadEffect q v v' d out) (hv : v.held = 0) :
    v'.pcb = v.pcb ∧ v'.turn = 0 ∧ v.pc ≠ .exited := by
  cases h with
  | wait p t ht => exact absurd hv (Nat.ne_of_gt (Nat.add_pos_left ht _))
  | check p t justFinished => exact ⟨rfl, hv, fun h => nomatch h⟩
  | _ => exact absurd hv (Nat.succ_ne_zero _)

/-- A thread whose only token is still pending after its step has not begun its slice. -/
theorem ThreadEffect.of_turn_pos (h : ThreadEffect q v v' d out) (hv : v.held ≤ 1) (hturn : 0 < v'.turn) :
    v'.pcb = v.pcb ∧ 0 < v.turn := by
  cases h with
  | wait p t ht =>
    have hone : t ≤ 1 := hv
    dsimp only at hturn
    omega
  | check p t justFinished => exact ⟨rfl, hturn⟩
  | _ => exact absurd (Nat.le_of_succ_le_succ hv) (Nat.not_le.mpr hturn)

/-! ## What the hand-off keeps -/

/-- While the dispatcher waits for a process there is one token, held by this process or posted back; otherwise there is none. -/
def HandOff (s : State n) : DispatcherPc n → Prop
  | .wait i _ => (s.view i).held + s.doneSem = 1 ∧ ∀ j, j ≠ i → (s.view j).held = 0
  | _ => s.doneSem = 0 ∧ ∀ j, (s.view j).held = 0

/-- What the dispatcher knows from where it is: a turn is for a process that is not done, and a pass that counted every process so far
saw only processes that are done. -/
def Knows (s : State n) : DispatcherPc n → Prop
  | .outer finished => finished ≤ n ∧ (finished = n → ∀ j, (s.processes j).state = .done)
  | .scan i finished => i ≤ n ∧ finished ≤ i ∧ (finished = i → ∀ j : Fin n, (j : Nat) < i → (s.processes j).state = .done)
  | .post i finished => finished ≤ i ∧ (s.processes i).state ≠ .done
  | .wait i finished => finished ≤ i ∧ (0 < s.turnSem i → (s.processes i).state ≠ .done)
  | .join i => i ≤ n ∧ (∀ j, (s.processes j).state = .done) ∧ ∀ j : Fin n, (j : Nat) < i → s.threads j = .exited
  | .completed => ∀ j, (s.processes j).state = .done ∧ s.threads j = .exited

/-- The invariant of the scheduler. -/
structure Inv (q : Int) (burstTimes : Fin n → Int) (s : State n) : Prop where
  ok : ∀ i, ViewOk q (burstTimes i) (s.view i)
  handOff : HandOff s s.dispatcher
  knows : Knows s s.dispatcher

variable {burstTimes : Fin n → Int}

/-- Before the first step. -/
theorem inv_init (hn : 1 ≤ n) (hb : ∀ i, 0 ≤ burstTimes i) : Inv q burstTimes (State.init burstTimes) := by
  refine ⟨?_, ⟨rfl, fun _ => rfl⟩, Nat.zero_le n, fun h => absurd h (Nat.ne_of_lt hn)⟩
  intro i
  exact ⟨rfl, hb i, Int.le_refl _, fun h => (by cases h), rfl⟩

/-- A process that holds a token is the one the dispatcher waits for, and the token is the only one. -/
theorem HandOff.of_pos {pc : DispatcherPc n} (h : HandOff s pc) (hpos : (s.view i).held ≠ 0) :
    (∃ finished, pc = .wait i finished) ∧ (s.view i).held = 1 := by
  cases pc with
  | wait k finished =>
    obtain ⟨hone, hothers⟩ := h
    by_cases hk : i = k
    · subst hk
      exact ⟨⟨finished, rfl⟩, by omega⟩
    · exact absurd (hothers i hk) hpos
  | _ => exact absurd (h.2 i) hpos

/-- A thread's step keeps the account. -/
theorem HandOff.put {pc : DispatcherPc n} (h : HandOff s pc) (heffect : ThreadEffect q (s.view i) v d out) :
    HandOff (put s i v d out) pc := by
  have hheld := heffect.held
  have hother : ∀ j, j ≠ i → (s.view j).held = 0 → ((RoundRobinAux.put s i v d out).view j).held = 0 := by
    intro j hj hzero
    rw [view_put_ne s v d out hj, hzero]
  cases pc with
  | wait k finished =>
    obtain ⟨hone, hothers⟩ := h
    by_cases hk : k = i
    · subst hk
      refine ⟨?_, fun j hj => hother j hj (hothers j hj)⟩
      rw [view_put_self]
      show v.held + (s.doneSem + d) = 1
      omega
    · have hzero := hothers i (Ne.symm hk)
      refine ⟨?_, ?_⟩
      · rw [view_put_ne s v d out hk]
        show (s.view k).held + (s.doneSem + d) = 1
        omega
      · intro j hj
        by_cases hji : j = i
        · rw [hji, view_put_self]
          omega
        · exact hother j hji (hothers j hj)
  | _ =>
    obtain ⟨hdone, hzero⟩ := h
    have hi := hzero i
    refine ⟨?_, ?_⟩
    · show s.doneSem + d = 0
      omega
    · intro j
      by_cases hji : j = i
      · rw [hji, view_put_self]
        omega
      · exact hother j hji (hzero j)

/-- What the dispatcher knows stays true where no PCB changes and no thread comes back. -/
theorem Knows.mono {pc : DispatcherPc n} (h : Knows s pc) (hprocesses : s'.processes = s.processes)
    (hturn : ∀ j, 0 < s'.turnSem j → 0 < s.turnSem j) (hexited : ∀ j, s.threads j = .exited → s'.threads j = .exited) :
    Knows s' pc := by
  cases pc with
  | wait k finished =>
    obtain ⟨hle, hready⟩ := h
    refine ⟨hle, ?_⟩
    rw [hprocesses]
    exact fun hpos => hready (hturn k hpos)
  | join k =>
    obtain ⟨hle, hdone, hjoined⟩ := h
    refine ⟨hle, ?_, fun j hj => hexited j (hjoined j hj)⟩
    rw [hprocesses]
    exact hdone
  | completed =>
    intro j
    rw [hprocesses]
    exact ⟨(h j).1, hexited j (h j).2⟩
  | outer finished =>
    unfold Knows at h ⊢
    rw [hprocesses]
    exact h
  | scan k finished =>
    unfold Knows at h ⊢
    rw [hprocesses]
    exact h
  | post k finished =>
    unfold Knows at h ⊢
    rw [hprocesses]
    exact h

/-- A thread's step keeps what the dispatcher knows. -/
theorem Knows.put {pc : DispatcherPc n} (h : Knows s pc) (hhand : HandOff s pc)
    (heffect : ThreadEffect q (s.view i) v d out) : Knows (put s i v d out) pc := by
  by_cases hzero : (s.view i).held = 0
  · -- the thread is past its slice, and its PCB stays
    obtain ⟨hpcb, hturn, hpc⟩ := heffect.of_held_eq_zero hzero
    refine h.mono ?_ ?_ ?_
    · show Function.update s.processes i v.pcb = s.processes
      rw [hpcb]
      exact Function.update_eq_self i s.processes
    · intro j hpos
      by_cases hj : j = i
      · subst hj
        rw [turnSem_put_self, hturn] at hpos
        exact absurd hpos (Nat.lt_irrefl 0)
      · rwa [turnSem_put_ne s v d out hj] at hpos
    · intro j hj
      have hne : j ≠ i := by
        rintro rfl
        exact hpc hj
      rw [← hj]
      exact Function.update_of_ne hne v.pc s.threads
  · -- the dispatcher waits for this thread
    obtain ⟨⟨finished, rfl⟩, hone⟩ := hhand.of_pos hzero
    obtain ⟨hle, hready⟩ := h
    refine ⟨hle, ?_⟩
    intro hpos
    rw [turnSem_put_self] at hpos
    obtain ⟨hpcb, hturn⟩ := heffect.of_turn_pos (Nat.le_of_eq hone) hpos
    rw [processes_put_self, hpcb]
    exact hready hturn

/-- A step of a thread keeps the invariant. -/
theorem Inv.thread_step (hq : 1 ≤ q) (hs : Inv q burstTimes s) (h : processThread q s i = some s') :
    Inv q burstTimes s' := by
  obtain ⟨v, d, out, heffect, rfl⟩ := processThread_effect h
  refine ⟨?_, hs.handOff.put heffect, hs.knows.put hs.handOff heffect⟩
  intro j
  by_cases hj : j = i
  · subst hj
    rw [view_put_self]
    exact heffect.ok hq (hs.ok j)
  · rw [view_put_ne s v d out hj]
    exact hs.ok j

/-- The dispatcher's step keeps the invariant. -/
theorem Inv.dispatcher_step (hs : Inv q burstTimes s) (h : runRoundRobin s = some s') : Inv q burstTimes s' := by
  obtain ⟨hok, hhand, hknows⟩ := hs
  have heffect := runRoundRobin_effect h
  cases heffect with
  | enter finished hpc hlt =>
    rw [hpc] at hhand
    exact ⟨hok, hhand, Nat.zero_le n, Nat.le_refl 0, fun _ j hj => absurd hj (Nat.not_lt_zero _)⟩
  | leave finished hpc hge =>
    rw [hpc] at hhand hknows
    obtain ⟨hle, hdone⟩ := hknows
    exact ⟨hok, hhand, Nat.zero_le n, hdone (Nat.le_antisymm hle (Nat.not_lt.mp hge)), fun j hj => absurd hj (Nat.not_lt_zero _)⟩
  | skip k finished hpc hdone =>
    rw [hpc] at hhand hknows
    obtain ⟨-, hle, hseen⟩ := hknows
    refine ⟨hok, hhand, k.isLt, Nat.succ_le_succ hle, ?_⟩
    intro heq j hj
    rcases Nat.lt_succ_iff_lt_or_eq.mp hj with hlt | hjk
    · exact hseen (Nat.succ.inj heq) j hlt
    · rw [Fin.ext hjk]
      exact hdone
  | choose k finished hpc hready =>
    rw [hpc] at hhand hknows
    exact ⟨hok, hhand, hknows.2.1, hready⟩
  | again k finished hpc hge =>
    rw [hpc] at hhand hknows
    obtain ⟨hle, hfinished, hseen⟩ := hknows
    obtain rfl : k = n := Nat.le_antisymm hle (Nat.not_lt.mp hge)
    exact ⟨hok, hhand, hfinished, fun heq j => hseen heq j j.isLt⟩
  | post k finished hpc =>
    rw [hpc] at hhand hknows
    obtain ⟨hdone, hzero⟩ := hhand
    obtain ⟨hle, hready⟩ := hknows
    refine ⟨?_, ⟨?_, ?_⟩, hle, fun _ => hready⟩
    · intro j
      by_cases hj : j = k
      · subst hj
        obtain ⟨hburst, hnonneg, hle, hzero, hmatch⟩ := hok j
        rw [view_give_self]
        exact ⟨hburst, hnonneg, hle, hzero, hmatch⟩
      · rw [view_give_ne s finished hj]
        exact hok j
    · show ((give s k finished).view k).held + s.doneSem = 1
      have hgiven : View.held ⟨s.processes k, s.turnSem k + 1, s.threads k⟩ = (s.view k).held + 1 := Nat.add_right_comm _ _ _
      rw [view_give_self, hgiven, hzero k, hdone]
    · intro j hj
      rw [view_give_ne s finished hj]
      exact hzero j
  | resume k finished hpc hpos =>
    rw [hpc] at hhand hknows
    obtain ⟨hone, hothers⟩ := hhand
    refine ⟨hok, ⟨?_, ?_⟩, k.isLt, Nat.le_succ_of_le hknows.1, ?_⟩
    · dsimp only
      omega
    · intro j
      by_cases hj : j = k
      · subst hj
        show (s.view j).held = 0
        omega
      · exact hothers j hj
    · intro heq
      exact absurd hknows.1 (Nat.not_le.mpr (heq ▸ Nat.lt_succ_self _))
  | join k hpc hexited =>
    rw [hpc] at hhand hknows
    obtain ⟨-, hdone, hjoined⟩ := hknows
    refine ⟨hok, hhand, k.isLt, hdone, ?_⟩
    intro j hj
    rcases Nat.lt_succ_iff_lt_or_eq.mp hj with hlt | hjk
    · exact hjoined j hlt
    · rw [Fin.ext hjk]
      exact hexited
  | complete k hpc hge =>
    rw [hpc] at hhand hknows
    obtain ⟨-, hdone, hjoined⟩ := hknows
    exact ⟨hok, hhand, fun j => ⟨hdone j, hjoined j (Nat.lt_of_lt_of_le j.isLt (Nat.not_lt.mp hge))⟩⟩

/-- Every step keeps the invariant. -/
theorem Inv.step (hq : 1 ≤ q) (s : State n) (a : Actor n) (s' : State n) (hs : Inv q burstTimes s)
    (h : step q s a = some s') : Inv q burstTimes s' := by
  cases a with
  | dispatcher => exact hs.dispatcher_step h
  | thread i => exact hs.thread_step hq h

/-- So it holds under every interleaving. -/
theorem inv_reachable (hn : 1 ≤ n) (hq : 1 ≤ q) (hb : ∀ i, 0 ≤ burstTimes i)
    (h : Interleaving.Reachable (step q) (State.init burstTimes) s) : Inv q burstTimes s :=
  h.invariant (inv_init hn hb) (Inv.step hq)

/-- Turns are posted by the dispatcher only. -/
theorem dispatcher_of_posted {a : Actor n} (h : step q s a = some s') (hturn : s.turnSem i < s'.turnSem i) :
    ∃ finished, s.dispatcher = .post i finished := by
  cases a with
  | dispatcher =>
    cases runRoundRobin_effect h with
    | post k finished hpc =>
      by_cases hk : i = k
      · exact ⟨finished, hk ▸ hpc⟩
      · have hsame : (give s k finished).turnSem i = s.turnSem i := congrArg View.turn (view_give_ne s finished hk)
        exact absurd hturn (hsame ▸ Nat.lt_irrefl _)
    | _ => exact absurd hturn (Nat.lt_irrefl _)
  | thread k =>
    obtain ⟨v, d, out, heffect, rfl⟩ := processThread_effect h
    by_cases hk : i = k
    · subst hk
      rw [turnSem_put_self] at hturn
      exact absurd hturn (Nat.not_lt.mpr heffect.turn_le)
    · rw [turnSem_put_ne s v d out hk] at hturn
      exact absurd hturn (Nat.lt_irrefl _)

end RoundRobinAux

end OsSecurity.Scheduler
