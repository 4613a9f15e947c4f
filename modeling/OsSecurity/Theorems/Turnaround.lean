import OsSecurity.Lib.Cut
import OsSecurity.Theorems.SequentialRounds

/-!
# When the processes finish

The simulated time is what the slices have run for. The turns of sequential round-robin say how much of it has passed when a process
gets its turn in a round and when it is finished, and in which order the processes finish, whatever the interleaving.
-/

namespace OsSecurity.Scheduler

open Interleaving Rounds

variable {n : Nat}

/-- The time that a line reports a process to run for. -/
def Line.time : Line → Int
  | .running _ runTime _ => runTime
  | .finished _ => 0

/-- The process that a line reports as finished. -/
def Line.finished? : Line → Option Int
  | .running _ _ _ => none
  | .finished pid => some pid

/-- The simulated time that the lines take. -/
def elapsed (out : List Line) : Int := (out.map Line.time).sum

/-- The processes that have finished, by `pid`. -/
def State.finished (s : State n) : List Int := s.output.filterMap Line.finished?

namespace TurnaroundAux

open SequentialAux

variable {q : Nat} {b : Fin n → Nat} {s : State n} {i : Fin n} {r : Nat} {pre post : List Line}

/-! ## What the turns print -/

theorem elapsed_append (l m : List Line) : elapsed (l ++ m) = elapsed l + elapsed m := by
  rw [elapsed, List.map_append, List.sum_append]
  rfl

theorem elapsed_lines (t : Nat × Fin n) : elapsed (lines q b t) = work q b t := by
  unfold lines elapsed
  split <;> simp [Line.time]

/-- The lines of some turns take the time that these work. -/
theorem elapsed_turns (l : List (Nat × Fin n)) : elapsed (l.flatMap (lines q b)) = (l.map (work q b)).sum := by
  induction l with
  | nil => rfl
  | cons t l ih =>
    rw [List.flatMap_cons, elapsed_append, elapsed_lines, ih, List.map_cons, List.sum_cons, Nat.cast_add]

theorem finished_lines (t : Nat × Fin n) : (lines q b t).filterMap Line.finished? =
    if rounds q (b t.2) ≤ t.1 + 1 then [((t.2 : Nat) : Int) + 1] else [] := by
  unfold lines
  split <;> rfl

/-- The processes that the turns finish are those that have their last turn. -/
theorem finished_turns (l : List (Nat × Fin n)) : (l.flatMap (lines q b)).filterMap Line.finished? =
    ((l.filter (fun t => rounds q (b t.2) ≤ t.1 + 1)).map (·.2)).map (fun i : Fin n => ((i : Nat) : Int) + 1) := by
  induction l with
  | nil => rfl
  | cons t l ih =>
    rw [List.flatMap_cons, List.filterMap_append, ih, finished_lines]
    by_cases hlast : rounds q (b t.2) ≤ t.1 + 1 <;> simp [hlast]

/-! ## The turn that prints a line -/

/-- A line that has been printed is one of a turn, and what was printed before it is what the turns before have printed. -/
theorem exists_turn {x : Line} (h : Followed q b s) (hout : s.output = pre ++ x :: post) :
    ∃ us t vs c d, turns q b = us ++ t :: vs ∧ lines q b t = c ++ x :: d ∧ pre = us.flatMap (lines q b) ++ c := by
  obtain ⟨rest, hall⟩ := h.follows.output_prefix
  rw [hout, List.append_assoc, List.cons_append] at hall
  exact Cut.exists_of_flatMap hall.symm

/-- What is left of a process tells its round. -/
theorem round_eq (hq : 1 ≤ q) {k : Nat} (hr : r < rounds q (b i)) (hk : k < rounds q (b i)) (h : b i - k * q = b i - r * q) :
    k = r := by
  have hlt : ∀ {k r : Nat}, r < rounds q (b i) → k < r → b i - r * q < b i - k * q := by
    intro k r hr hkr
    have hleft : ¬ b i ≤ r * q := fun hle => Nat.not_le.mpr hr ((rounds_le_iff hq).mpr ⟨Nat.one_le_of_lt hkr, hle⟩)
    have hmul : k * q < r * q := Nat.mul_lt_mul_of_pos_right hkr hq
    omega
  rcases Nat.lt_trichotomy k r with hkr | rfl | hkr
  · exact absurd h (hlt hr hkr).ne'
  · rfl
  · exact absurd h (hlt hk hkr).ne

/-- A process starts to run in a round when the turns before its turn have run. -/
theorem elapsed_running (hq : 1 ≤ q) (h : Followed q b s) {runTime : Int} (hr : r < rounds q (b i))
    (hout : s.output = pre ++ .running ((i : Nat) + 1) runTime (b i - r * q : Nat) :: post) :
    elapsed pre = startTime q b (r, i) := by
  obtain ⟨us, ⟨k, j⟩, vs, c, d, hturns, hlines, rfl⟩ := exists_turn h hout
  have hk : k < rounds q (b j) := mem_turns.mp (hturns ▸ List.mem_append_right us List.mem_cons_self)
  cases c with
  | nil =>
    obtain ⟨hline, -⟩ := List.cons.inj hlines
    obtain ⟨hpid, -, hremaining⟩ := Line.running.inj hline
    obtain rfl : j = i := Fin.ext (Int.ofNat_inj.mp (add_right_cancel hpid))
    obtain rfl := round_eq hq hr hk (Int.ofNat_inj.mp hremaining)
    rw [List.append_nil, elapsed_turns, sum_work_before hq hturns]
  | cons line c =>
    exfalso
    rw [List.cons_append] at hlines
    obtain ⟨-, htail⟩ := List.cons.inj hlines
    split at htail
    · cases c with
      | nil => cases (List.cons.inj htail).1
      | cons line c => exact absurd (List.cons.inj htail).2 (by simp)
    · exact absurd htail (by simp)

/-- A process is finished when the turns up to its last one have run. -/
theorem elapsed_finished (hq : 1 ≤ q) (h : Followed q b s) (hout : s.output = pre ++ .finished ((i : Nat) + 1) :: post) :
    elapsed pre = finishTime q b i := by
  obtain ⟨us, ⟨k, j⟩, vs, c, d, hturns, hlines, rfl⟩ := exists_turn h hout
  have hk : k < rounds q (b j) := mem_turns.mp (hturns ▸ List.mem_append_right us List.mem_cons_self)
  cases c with
  | nil => cases (List.cons.inj hlines).1
  | cons line c =>
    obtain ⟨rfl, htail⟩ := List.cons.inj hlines
    dsimp only at htail
    split at htail
    · rename_i hlast
      cases c with
      | nil =>
        obtain rfl : j = i := Fin.ext (Int.ofNat_inj.mp (add_right_cancel (Line.finished.inj (List.cons.inj htail).1)))
        obtain rfl : k = rounds q (b j) - 1 := by omega
        rw [elapsed_append, elapsed_turns, sum_work_before hq hturns, ← startTime_add_work hq, Nat.cast_add]
        simp [elapsed, Line.time]
      | cons line c => exact absurd (List.cons.inj htail).2 (by simp)
    · exact absurd htail (by simp)

end TurnaroundAux

/-- For every number of processes, quantum and burst times, under every interleaving: the simulated time that has passed when a process
starts to run in a round, and when it is finished, is that of sequential round-robin; so no process is finished later than the burst times
add up to, nor waits for more than a quantum of each other one in each of its rounds. The processes finish in the order of the rounds
they need, and of their index where these are the same; a run that cannot go on has finished them all, in the time of all the bursts. -/
theorem processes_finish (n q : Nat) (b : Fin n → Nat) (hn : 1 ≤ n) (hq : 1 ≤ q) (s : State n)
    (hs : Reachable (step q) (State.init (fun i => (b i : Int))) s) :
    (∀ i r runTime pre post, r < rounds q (b i) →
      s.output = pre ++ .running ((i : Nat) + 1) runTime (b i - r * q : Nat) :: post → elapsed pre = startTime q b (r, i)) ∧
    (∀ i pre post, s.output = pre ++ .finished ((i : Nat) + 1) :: post →
      elapsed pre = finishTime q b i ∧ elapsed pre ≤ ((∑ j, b j : Nat) : Int) ∧
        elapsed pre - b i ≤ ((n - 1) * (rounds q (b i) * q) : Nat)) ∧
    s.finished <+: (finishOrder q b).map (fun i : Fin n => ((i : Nat) : Int) + 1) ∧
    (Stuck (step q) s →
      s.finished = (finishOrder q b).map (fun i : Fin n => ((i : Nat) : Int) + 1) ∧ elapsed s.output = ((∑ j, b j : Nat) : Int)) := by
  have h := SequentialAux.Followed.reachable hn hq hs
  have horder : ((turns q b).flatMap (SequentialAux.lines q b)).filterMap Line.finished? =
      (finishOrder q b).map (fun i : Fin n => ((i : Nat) : Int) + 1) := by
    rw [TurnaroundAux.finished_turns, lastTurns_eq]
  refine ⟨?_, ?_, ?_, ?_⟩
  · intro i r runTime pre post hr hout
    exact TurnaroundAux.elapsed_running hq h hr hout
  · intro i pre post hout
    have hsum := finishTime_le_sum q b i
    have hwait := finishTime_le_wait q b i
    rw [TurnaroundAux.elapsed_finished hq h hout]
    omega
  · rw [← horder]
    exact h.follows.output_prefix.filterMap _
  · intro hstuck
    have houtput := h.output_eq (CompletionAux.completed_of_stuck h.inv hstuck)
    rw [State.finished, houtput, horder, TurnaroundAux.elapsed_turns, sum_work_turns hq]
    exact ⟨rfl, rfl⟩

/-- Of two processes with burst times 3 and 1 the second one finishes first. -/
theorem processes_finish_two : ∃ s : State 2, s.finished = [2, 1] ∧ elapsed s.output = 4 := by
  have hburst : ∀ i, (0 : Int) ≤ ((![3, 1] : Fin 2 → Nat) i : Int) := fun i => Int.natCast_nonneg _
  have hinv : RoundRobinAux.Inv 2 _ _ := RoundRobinAux.inv_init (by decide : 1 ≤ 2) hburst
  obtain ⟨s, hs, hstuck⟩ := exists_stuck (RoundRobinAux.Inv.step (by decide)) (CompletionAux.step_stepsLeft (by decide)) hinv
  obtain ⟨hfinished, htime⟩ := (processes_finish 2 2 ![3, 1] (by decide) (by decide) s hs).2.2.2 hstuck
  exact ⟨s, hfinished.trans (by decide), htime.trans (by decide)⟩

end OsSecurity.Scheduler
