import OsSecurity.Lib.Rounds
import OsSecurity.Theorems.Completion

/-!
# The scheduler takes the turns of sequential round-robin

The dispatcher and the one thread that has the token move along the turns together: before and after a turn the output is that of the
turns so far, and each process has had its share of the rounds so far.
-/

namespace OsSecurity.Scheduler

open Interleaving RoundRobinAux Rounds

variable {n : Nat}

/-- The slice that a line reports: the index of its process and the time it runs for. -/
def Line.slice? : Line → Option (Int × Int)
  | .running pid runTime _ => some (pid - 1, runTime)
  | .finished _ => none

/-- The slices that have been executed. -/
def State.slices (s : State n) : List (Int × Int) := s.output.filterMap Line.slice?

namespace SequentialAux

variable {q : Nat} {b : Fin n → Nat} {s s' : State n} {i : Fin n} {v v' : View} {d d' r : Nat} {out out' : List Line}

/-- What a process prints in a turn. -/
def lines (q : Nat) (b : Fin n → Nat) (t : Nat × Fin n) : List Line :=
  .running ((t.2 : Nat) + 1) (work q b t) (b t.2 - t.1 * q : Nat) ::
    if rounds q (b t.2) ≤ t.1 + 1 then [.finished ((t.2 : Nat) + 1)] else []

/-- A process of burst time `b` after `k` rounds. -/
structure Ran (q b pid k : Nat) (p : PCB) : Prop where
  pid : p.pid = (pid : Int) + 1
  remainingTime : p.remainingTime = (b - k * q : Nat)
  done : p.state = .done ↔ rounds q b ≤ k

/-- The turn of process `i` in round `r`, from the `sem_post` of the dispatcher to its `sem_wait`: the view of the process, the tokens in
`done_sem` and what the turn has printed. -/
inductive Turn (q : Nat) (b : Fin n → Nat) (r : Nat) (i : Fin n) : View → Nat → List Line → Prop where
  | given (p : PCB) (pc : ThreadPc) : Ran q (b i) i r p → pc.inSlice = false → Turn q b r i ⟨p, 1, pc⟩ 0 []
  | started (p : PCB) : Ran q (b i) i r p → Turn q b r i ⟨p, 0, .start⟩ 0 []
  | running (p : PCB) : Ran q (b i) i r p →
      Turn q b r i ⟨{ p with state := .running }, 0, .run (work q b (r, i)) p.remainingTime⟩ 0 []
  | asleep (p : PCB) : Ran q (b i) i r p → Turn q b r i ⟨{ p with state := .running }, 0, .sleep (work q b (r, i))⟩ 0
      [.running p.pid (work q b (r, i)) p.remainingTime]
  | ended (p : PCB) (justFinished : Bool) : Ran q (b i) i (r + 1) p →
      Turn q b r i ⟨p, 0, .post justFinished⟩ 0 (lines q b (r, i))
  | left (p : PCB) (pc : ThreadPc) : Ran q (b i) i (r + 1) p → pc.inSlice = false →
      Turn q b r i ⟨p, 0, pc⟩ 1 (lines q b (r, i))

/-- The thread's own computation of the run time. -/
theorem Ran.runTime {p : PCB} (h : Ran q (b i) i r p) :
    (if p.remainingTime < (q : Int) then p.remainingTime else q) = (work q b (r, i) : Int) := by
  have hremaining := h.remainingTime
  unfold work
  rw [hremaining]
  dsimp only
  split <;> omega

/-- The lines of a slice, in terms of the process before it. -/
theorem Ran.lines {p : PCB} (h : Ran q (b i) i r p) :
    lines q b (r, i) = .running p.pid (work q b (r, i)) p.remainingTime ::
      if rounds q (b i) ≤ r + 1 then [.finished p.pid] else [] := by
  rw [h.pid, h.remainingTime]
  rfl

/-- The last slice leaves nothing of the process. -/
theorem Ran.finish {p : PCB} (hq : 1 ≤ q) (h : Ran q (b i) i r p) (hlast : p.remainingTime - work q b (r, i) ≤ 0) :
    rounds q (b i) ≤ r + 1 ∧
      Ran q (b i) i (r + 1) { p with remainingTime := p.remainingTime - work q b (r, i), state := .done } := by
  have hremaining := h.remainingTime
  have hwork : work q b (r, i) = min q (b i - r * q) := rfl
  have hle : b i ≤ (r + 1) * q := by
    rw [Nat.succ_mul]
    omega
  have hrounds : rounds q (b i) ≤ r + 1 := (rounds_le_iff hq).mpr ⟨Nat.le_add_left 1 r, hle⟩
  refine ⟨hrounds, h.pid, ?_, iff_of_true rfl hrounds⟩
  dsimp only
  rw [Nat.succ_mul] at hle ⊢
  omega

/-- Another slice takes a whole quantum and leaves something. -/
theorem Ran.pause {p : PCB} (hq : 1 ≤ q) (h : Ran q (b i) i r p) (hmore : ¬ p.remainingTime - work q b (r, i) ≤ 0) :
    ¬ rounds q (b i) ≤ r + 1 ∧
      Ran q (b i) i (r + 1) { p with remainingTime := p.remainingTime - work q b (r, i), state := .ready } := by
  have hremaining := h.remainingTime
  have hwork : work q b (r, i) = min q (b i - r * q) := rfl
  have hlt : (r + 1) * q < b i := by
    rw [Nat.succ_mul]
    omega
  have hrounds : ¬ rounds q (b i) ≤ r + 1 := fun hle => Nat.not_le.mpr hlt ((rounds_le_iff hq).mp hle).2
  refine ⟨hrounds, h.pid, ?_, iff_of_false ProcessState.noConfusion hrounds⟩
  dsimp only
  rw [Nat.succ_mul] at hlt ⊢
  omega

/-- A step of a thread goes on in its turn. -/
theorem Turn.step (hq : 1 ≤ q) (h : Turn q b r i v d out) (heffect : ThreadEffect q v v' d' out') :
    Turn q b r i v' (d + d') (out ++ out') := by
  cases h with
  | given p pc hran hpc =>
    cases heffect with
    | wait p t ht => exact .started p hran
    | check p t justFinished =>
      refine .given p _ hran ?_
      cases justFinished <;> rfl
    | _ => nomatch hpc
  | started p hran =>
    cases heffect with
    | start p t =>
      rw [hran.runTime]
      exact .running p hran
  | running p hran =>
    cases heffect with
    | run p t runTime remainingBefore => exact .asleep p hran
  | asleep p hran =>
    cases heffect with
    | finish _ t runTime hlast =>
      obtain ⟨hrounds, hended⟩ := hran.finish hq hlast
      have hturn := Turn.ended _ true hended
      rw [hran.lines, if_pos hrounds] at hturn
      exact hturn
    | pause _ t runTime hmore =>
      obtain ⟨hrounds, hended⟩ := hran.pause hq hmore
      have hturn := Turn.ended _ false hended
      rw [hran.lines, if_neg hrounds] at hturn
      exact hturn
  | ended p justFinished hran =>
    cases heffect with
    | post p t justFinished =>
      rw [List.append_nil]
      exact .left p _ hran rfl
  | left p pc hran hpc =>
    cases heffect with
    | check p t justFinished =>
      rw [List.append_nil]
      refine .left p _ hran ?_
      cases justFinished <;> rfl
    | wait p t ht => exact absurd ht (Nat.lt_irrefl 0)
    | _ => nomatch hpc

/-- With the token of `done_sem` given back, the slice has been run and all of its lines are out. -/
theorem Turn.of_token (h : Turn q b r i v d out) (hd : 0 < d) : Ran q (b i) i (r + 1) v.pcb ∧ out = lines q b (r, i) := by
  cases h with
  | left p pc hran hpc => exact ⟨hran, rfl⟩
  | _ => exact absurd hd (Nat.lt_irrefl 0)

/-- A thread that holds nothing has no turn, and is not inside a slice. -/
theorem held_eq_zero (h : v.held = 0) : v.turn = 0 ∧ v.pc.inSlice = false := by
  unfold View.held at h
  cases hpc : v.pc.inSlice with
  | true =>
    rw [hpc, if_pos rfl] at h
    nomatch h
  | false => exact ⟨(Nat.add_eq_zero_iff.mp h).1, rfl⟩

/-- Before the place of process `c` in round `r`. -/
structure At (q : Nat) (b : Fin n → Nat) (r c : Nat) (s : State n) : Prop where
  ran : ∀ j, Ran q (b j) j (if (j : Nat) < c then r + 1 else r) (s.processes j)
  output : s.output = (before q b r c).flatMap (lines q b)

/-- In the turn of process `i` in round `r`. -/
structure In (q : Nat) (b : Fin n → Nat) (r : Nat) (i : Fin n) (s : State n) : Prop where
  ran : ∀ j, j ≠ i → Ran q (b j) j (if (j : Nat) < i then r + 1 else r) (s.processes j)
  lt : r < rounds q (b i)
  turn : ∃ out, Turn q b r i (s.view i) s.doneSem out ∧ s.output = (before q b r i).flatMap (lines q b) ++ out

/-- Where the program is among the turns, from where the dispatcher is. -/
def Follows (q : Nat) (b : Fin n → Nat) (s : State n) : DispatcherPc n → Prop
  | .scan c _ => ∃ r, At q b r c s
  | .post i _ => ∃ r, At q b r i s
  | .wait i _ => ∃ r, In q b r i s
  | .outer _ | .join _ | .completed => ∃ r, At q b r 0 s

/-- It depends on the processes and on the lines only. -/
theorem At.congr {c : Nat} (h : At q b r c s) (hprocesses : s'.processes = s.processes) (houtput : s'.output = s.output) :
    At q b r c s' :=
  ⟨hprocesses ▸ h.ran, houtput.trans h.output⟩

/-- Past the place of a process that has had its share. -/
theorem share_succ (hothers : ∀ j, j ≠ i → Ran q (b j) j (if (j : Nat) < i then r + 1 else r) (s.processes j))
    (hself : Ran q (b i) i (r + 1) (s.processes i)) (j : Fin n) :
    Ran q (b j) j (if (j : Nat) < i + 1 then r + 1 else r) (s.processes j) := by
  by_cases hj : j = i
  · subst hj
    rw [if_pos (Nat.lt_succ_self _)]
    exact hself
  · have hne : (j : Nat) ≠ i := fun h => hj (Fin.ext h)
    have hcond : (j : Nat) < i + 1 ↔ (j : Nat) < i := by omega
    rw [if_congr hcond rfl rfl]
    exact hothers j hj

/-- A process that is done has had the next round too. -/
theorem Ran.skip {p : PCB} {pid k : Nat} {b : Nat} (hq : 1 ≤ q) (h : Ran q b pid k p) (hrounds : rounds q b ≤ k) :
    Ran q b pid (k + 1) p := by
  obtain ⟨-, hb⟩ := (rounds_le_iff hq).mp hrounds
  refine ⟨h.pid, ?_, iff_of_true (h.done.mpr hrounds) (Nat.le_succ_of_le hrounds)⟩
  rw [h.remainingTime, Nat.succ_mul]
  omega

/-- A process that is done has no turn in this round. -/
theorem At.skip (hq : 1 ≤ q) (h : At q b r i s) (hrounds : rounds q (b i) ≤ r) : At q b r (i + 1) s := by
  refine ⟨share_succ (fun j _ => h.ran j) ?_, ?_⟩
  · have hran := h.ran i
    rw [if_neg (Nat.lt_irrefl _)] at hran
    exact hran.skip hq hrounds
  · rw [before_skip hrounds]
    exact h.output

/-- Behind the last process begins the next round. -/
theorem At.round (h : At q b r n s) : At q b (r + 1) 0 s := by
  refine ⟨?_, ?_⟩
  · intro j
    have hran := h.ran j
    rw [if_pos j.isLt] at hran
    rw [if_neg (Nat.not_lt_zero _)]
    exact hran
  · rw [← before_last]
    exact h.output

/-- The process whose turn it is has run all rounds before this one. -/
theorem At.of_ran {c : Nat} (h : At q b r c s) (hi : c = i) : Ran q (b i) i r (s.processes i) := by
  have hran := h.ran i
  rwa [hi, if_neg (Nat.lt_irrefl _)] at hran

/-- A thread without a token prints nothing. -/
theorem quiet_of_held_eq_zero (h : ThreadEffect (q : Int) v v' d out) (hv : v.held = 0) : d = 0 ∧ out = [] := by
  cases h with
  | wait p t ht => exact ⟨rfl, rfl⟩
  | check p t justFinished => exact ⟨rfl, rfl⟩
  | _ => exact absurd hv (Nat.succ_ne_zero _)

/-- A step of a thread keeps to the order of the rounds. -/
theorem Follows.thread_step {pc : DispatcherPc n} (hq : 1 ≤ q) (h : Follows q b s pc) (hhand : HandOff s pc)
    (heffect : ThreadEffect (q : Int) (s.view i) v d out) : Follows q b (put s i v d out) pc := by
  by_cases hzero : (s.view i).held = 0
  · -- the thread is past its slice: only its own place changes
    obtain ⟨hpcb, -, -⟩ := heffect.of_held_eq_zero hzero
    obtain ⟨rfl, rfl⟩ := quiet_of_held_eq_zero heffect hzero
    have hprocesses : (put s i v 0 []).processes = s.processes := by
      show Function.update s.processes i v.pcb = s.processes
      rw [hpcb]
      exact Function.update_eq_self i s.processes
    have houtput : (put s i v 0 []).output = s.output := List.append_nil _
    cases pc with
    | wait k finished =>
      obtain ⟨r, hran, hlt, turn, hturn, hprinted⟩ := h
      refine ⟨r, ?_, hlt, turn, ?_, houtput.trans hprinted⟩
      · rw [hprocesses]
        exact hran
      · by_cases hk : k = i
        · subst hk
          rw [view_put_self]
          have hstep := hturn.step hq heffect
          rwa [List.append_nil] at hstep
        · rw [view_put_ne s v 0 [] hk]
          exact hturn
    | _ =>
      obtain ⟨r, hat⟩ := h
      exact ⟨r, hat.congr hprocesses houtput⟩
  · -- the dispatcher waits for this thread
    obtain ⟨⟨finished, rfl⟩, -⟩ := hhand.of_pos hzero
    obtain ⟨r, hran, hlt, turn, hturn, hprinted⟩ := h
    refine ⟨r, ?_, hlt, turn ++ out, ?_, ?_⟩
    · intro j hj
      have hview := congrArg View.pcb (view_put_ne s v d out hj)
      exact (show (put s i v d out).processes j = s.processes j from hview) ▸ hran j hj
    · rw [view_put_self]
      exact hturn.step hq heffect
    · show s.output ++ out = _
      rw [hprinted, List.append_assoc]

/-- A step of the dispatcher keeps to the order of the rounds: it goes to the next process that is not done. -/
theorem Follows.dispatcher_step (hq : 1 ≤ q) (hinv : Inv (q : Int) (fun i => (b i : Int)) s) (h : Follows q b s s.dispatcher)
    (hstep : runRoundRobin s = some s') : Follows q b s' s'.dispatcher := by
  have hhand := hinv.handOff
  have hknows := hinv.knows
  cases runRoundRobin_effect hstep with
  | enter finished hpc hlt =>
    rw [hpc] at h
    obtain ⟨r, hat⟩ := h
    exact ⟨r, hat.congr rfl rfl⟩
  | leave finished hpc hge =>
    rw [hpc] at h
    obtain ⟨r, hat⟩ := h
    exact ⟨r, hat.congr rfl rfl⟩
  | skip k finished hpc hdone =>
    rw [hpc] at h
    obtain ⟨r, hat⟩ := h
    have hrounds := (hat.of_ran rfl).done.mp hdone
    exact ⟨r, (hat.skip hq hrounds).congr rfl rfl⟩
  | choose k finished hpc hready =>
    rw [hpc] at h
    obtain ⟨r, hat⟩ := h
    exact ⟨r, hat.congr rfl rfl⟩
  | again k finished hpc hge =>
    rw [hpc] at h hknows
    obtain ⟨r, hat⟩ := h
    obtain rfl : k = n := Nat.le_antisymm hknows.1 (Nat.not_lt.mp hge)
    exact ⟨r + 1, hat.round.congr rfl rfl⟩
  | post k finished hpc =>
    rw [hpc] at h hhand hknows
    obtain ⟨r, hat⟩ := h
    obtain ⟨hdone, hzero⟩ := hhand
    have hran := hat.of_ran rfl
    have hlt : r < rounds q (b k) := Nat.not_le.mp (fun hle => hknows.2 (hran.done.mpr hle))
    obtain ⟨hturn, hpc⟩ := held_eq_zero (hzero k)
    refine ⟨r, fun j _ => hat.ran j, hlt, [], ?_, ?_⟩
    · rw [view_give_self]
      have hgiven := Turn.given (s.processes k) (s.threads k) hran hpc
      rwa [← hdone, ← Nat.zero_add 1, ← hturn] at hgiven
    · rw [List.append_nil]
      exact hat.output
  | resume k finished hpc hpos =>
    rw [hpc] at h
    obtain ⟨r, hran, hlt, turn, hturn, hprinted⟩ := h
    obtain ⟨hself, rfl⟩ := hturn.of_token hpos
    refine ⟨r, share_succ hran hself, ?_⟩
    rw [before_turn hlt, List.flatMap_append, List.flatMap_singleton]
    exact hprinted
  | join k hpc hexited =>
    rw [hpc] at h
    obtain ⟨r, hat⟩ := h
    exact ⟨r, hat.congr rfl rfl⟩
  | complete k hpc hge =>
    rw [hpc] at h
    obtain ⟨r, hat⟩ := h
    exact ⟨r, hat.congr rfl rfl⟩

/-- The scheduler's invariant, with the place among the turns. -/
structure Followed (q : Nat) (b : Fin n → Nat) (s : State n) : Prop where
  inv : Inv (q : Int) (fun i => (b i : Int)) s
  follows : Follows q b s s.dispatcher

/-- Before the first step no turn has been given. -/
theorem Followed.init (hn : 1 ≤ n) : Followed q b (State.init (fun i => (b i : Int))) := by
  refine ⟨inv_init hn (fun i => Int.natCast_nonneg _), 0, ?_, ?_⟩
  · intro j
    rw [if_neg (Nat.not_lt_zero _)]
    refine ⟨rfl, by simp [State.init], iff_of_false (fun h => by cases h) ?_⟩
    exact Nat.not_le.mpr (rounds_pos q (b j))
  · rw [before_start]
    rfl

/-- Each step keeps to the order of the rounds. -/
theorem Followed.step (hq : 1 ≤ q) (s : State n) (a : Actor n) (s' : State n) (h : Followed q b s)
    (hstep : Scheduler.step q s a = some s') : Followed q b s' := by
  refine ⟨Inv.step (by omega) s a s' h.inv hstep, ?_⟩
  cases a with
  | dispatcher => exact h.follows.dispatcher_step hq h.inv hstep
  | thread i =>
    obtain ⟨v, d, out, heffect, rfl⟩ := processThread_effect hstep
    exact h.follows.thread_step hq h.inv.handOff heffect

/-- Every interleaving keeps to the order of the rounds. -/
theorem Followed.reachable (hn : 1 ≤ n) (hq : 1 ≤ q) (hs : Reachable (Scheduler.step q) (State.init (fun i => (b i : Int))) s) :
    Followed q b s :=
  hs.invariant (Followed.init hn) (Followed.step hq)

/-! ## The output and the slices -/

/-- Between two turns the lines are those of the turns so far. -/
theorem At.output_prefix {c : Nat} (h : At q b r c s) : s.output <+: (turns q b).flatMap (lines q b) := by
  rw [h.output]
  exact (prefix_turns r c).flatMap _

/-- Inside a turn they are the first ones of its lines. -/
theorem Turn.out_prefix (h : Turn q b r i v d out) : out <+: lines q b (r, i) := by
  cases h with
  | asleep p hran =>
    rw [hran.lines]
    exact List.prefix_append [_] _
  | ended p justFinished hran => exact List.prefix_refl _
  | left p pc hran hpc => exact List.prefix_refl _
  | _ => exact List.nil_prefix

/-- What has been printed is the beginning of what the turns print. -/
theorem Follows.output_prefix {pc : DispatcherPc n} (h : Follows q b s pc) :
    s.output <+: (turns q b).flatMap (lines q b) := by
  cases pc with
  | wait k finished =>
    obtain ⟨r, -, hlt, turn, hturn, hprinted⟩ := h
    have hturns := (prefix_turns (q := q) (b := b) r (k + 1)).flatMap (lines q b)
    rw [before_turn hlt, List.flatMap_append, List.flatMap_singleton] at hturns
    rw [hprinted]
    exact ((List.prefix_append_right_inj _).mpr hturn.out_prefix).trans hturns
  | _ =>
    obtain ⟨r, hat⟩ := h
    exact hat.output_prefix

/-- When the program has completed, it has printed what the turns print. -/
theorem Followed.output_eq (h : Followed q b s) (hcompleted : s.Completed) : s.output = (turns q b).flatMap (lines q b) := by
  obtain ⟨hpc, hdone⟩ := hcompleted
  have hfollows := h.follows
  rw [hpc] at hfollows
  obtain ⟨r, hran, houtput⟩ := hfollows
  rw [houtput, before_all]
  intro i
  have hi := hran i
  rw [if_neg (Nat.not_lt_zero _)] at hi
  exact hi.done.mp (hdone i).2.1

/-- The slices that the turns report. -/
theorem slices_of_lines (l : List (Nat × Fin n)) :
    (l.flatMap (lines q b)).filterMap Line.slice? = l.map (fun t => (((t.2 : Nat) : Int), (work q b t : Int))) := by
  induction l with
  | nil => rfl
  | cons t l ih =>
    have hline : (lines q b t).filterMap Line.slice? = [(((t.2 : Nat) : Int), (work q b t : Int))] := by
      unfold lines
      split <;> simp [Line.slice?]
    rw [List.flatMap_cons, List.filterMap_append, hline, ih]
    rfl

end SequentialAux

/-- For every number of processes, quantum and burst times: under every interleaving the slices executed so far are the first ones of
sequential round-robin, a run that cannot go on has executed them all, and every run can go on until then. In that sequence the slices
of a process add up to its burst time, and between two consecutive slices of a process every other one that is not finished has one. -/
theorem scheduler_refines_rounds (n q : Nat) (b : Fin n → Nat) (hn : 1 ≤ n) (hq : 1 ≤ q) :
    (∀ s, Reachable (step q) (State.init (fun i => (b i : Int))) s →
      s.slices <+: (slices q b).map (fun x => (((x.1 : Nat) : Int), (x.2 : Int))) ∧
      (Stuck (step q) s → s.slices = (slices q b).map (fun x => (((x.1 : Nat) : Int), (x.2 : Int)))) ∧
      ∃ s', Reachable (step q) s s' ∧ Stuck (step q) s') ∧
    (∀ i, total (slices q b) i = b i) ∧
    ∀ i j pre mid post w w', slices q b = pre ++ (i, w) :: (mid ++ (i, w') :: post) → (∀ x ∈ mid, x.1 ≠ i) → j ≠ i →
      (mid.filter (fun x => x.1 = j)).length = if Finished b pre j then 0 else 1 := by
  have hall : ((turns q b).flatMap (SequentialAux.lines q b)).filterMap Line.slice? =
      (slices q b).map (fun x => (((x.1 : Nat) : Int), (x.2 : Int))) := by
    rw [SequentialAux.slices_of_lines, slices, List.map_map]
    rfl
  refine ⟨?_, total_slices hq, fun i j pre mid post w w' => slices_fair hq⟩
  intro s hs
  have hfollowed := SequentialAux.Followed.reachable hn hq hs
  refine ⟨?_, ?_, ?_⟩
  · rw [← hall]
    exact hfollowed.follows.output_prefix.filterMap _
  · intro hstuck
    rw [← hall, State.slices, hfollowed.output_eq (CompletionAux.completed_of_stuck hfollowed.inv hstuck)]
  · exact exists_stuck (Inv.step (by omega)) (CompletionAux.step_stepsLeft (by omega)) hfollowed.inv

/-- Two processes with burst times 3 and 1. -/
theorem scheduler_refines_rounds_two : ∃ s : State 2, Stuck (step 2) s ∧ s.slices = [(0, 2), (1, 1), (0, 1)] := by
  have htwo := (scheduler_refines_rounds 2 2 ![3, 1] (by decide) (by decide)).1
  obtain ⟨s, hs, hstuck⟩ := (htwo _ (Reachable.refl _)).2.2
  exact ⟨s, hstuck, ((htwo s hs).2.1 hstuck).trans (by decide)⟩

end OsSecurity.Scheduler
