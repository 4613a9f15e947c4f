import OsSecurity.Lemmas.RaceRuns

/-!
# The counters of the race demonstration

The counter that is incremented under the lock is exact at the end of every run. The other one can lose increments: at worst all but
two of them, at best none.
-/

namespace OsSecurity.Scheduler

open Interleaving

variable {n : Nat}

/-- A state at the end of a run of the demonstration. -/
def RaceState.EndOf (m : Nat) (s : RaceState n) : Prop := Reachable (raceStep m) RaceState.init s ∧ s.main = .finished

namespace RaceAux

variable {m : Nat} {s : RaceState n}

/-- At the end all threads have returned. -/
theorem exited_of_end (h : s.EndOf m) : (∀ t, s.workers t = .exited) ∧ s.printed = some (s.report m) := by
  have hknows := (raceInv_of_reachable h.1).knows
  rw [h.2] at hknows
  exact hknows

theorem safe_of_end (h : s.EndOf m) : s.sharedCounterSafe = n * m := by
  have hexited := (exited_of_end h).1
  calc s.sharedCounterSafe
      = ∑ t, (s.workers t).safeDone m := (raceInv_of_reachable h.1).safe
    _ = ∑ _t : Fin n, m := Finset.sum_congr rfl (fun t _ => by rw [hexited t, WorkerPc.safeDone])
    _ = n * m := by
      rw [Finset.sum_const, Finset.card_univ, Fintype.card_fin]
      rfl

/-- And the increments of the unsafe counter are over. -/
theorem increments_of_end (h : s.EndOf m) :
    Reachable (LostUpdates.step m) LostUpdates.State.init (s.increments m) ∧ (s.increments m).Ended m :=
  ⟨increments_reachable raceInv_init h.1, fun t => congrArg (WorkerPc.worker m) ((exited_of_end h).1 t)⟩

theorem bounds_of_end (h : s.EndOf m) (hn : 0 < n) (hm : 2 ≤ m) :
    2 ≤ s.sharedCounterUnsafe ∧ s.sharedCounterUnsafe ≤ n * m := by
  obtain ⟨hreach, hended⟩ := increments_of_end h
  have : Nonempty (Fin n) := ⟨⟨0, hn⟩⟩
  have hbounds := LostUpdates.counter_bounds hm hreach hended
  rwa [Fintype.card_fin] at hbounds

/-- The report of counters within the bounds. -/
theorem report_of_bounds (hsafe : s.sharedCounterSafe = n * m) (hvalue : s.sharedCounterUnsafe ≤ n * m) :
    0 ≤ (s.report m).lostUpdates ∧ (s.report m).matchesExpected = true := by
  have hcast : (s.sharedCounterUnsafe : Int) ≤ n * m := by exact_mod_cast hvalue
  refine ⟨Int.sub_nonneg.mpr hcast, ?_⟩
  simp [RaceState.report, hsafe]

end RaceAux

open RaceAux

/-- For `n` threads with `m` increments each, both at least 2: every run can be taken on to its end; there the counter under the lock
is `n * m` and the other one between 2 and `n * m`, so the lost updates that are printed are not negative and the safe counter is said
to match; and either bound is reached by some order of the steps. -/
theorem race_counters (n m : Nat) (hn : 2 ≤ n) (hm : 2 ≤ m) :
    (∀ s : RaceState n, Reachable (raceStep m) RaceState.init s → ∃ s', Reachable (raceStep m) s s' ∧ s'.EndOf m) ∧
      (∀ s : RaceState n, s.EndOf m →
        s.sharedCounterSafe = n * m ∧ 2 ≤ s.sharedCounterUnsafe ∧ s.sharedCounterUnsafe ≤ n * m ∧
          ∃ r, s.printed = some r ∧ r.unsafeCounter = s.sharedCounterUnsafe ∧ r.safeCounter = s.sharedCounterSafe ∧
            r.lostUpdates = n * m - s.sharedCounterUnsafe ∧ 0 ≤ r.lostUpdates ∧ r.matchesExpected = true) ∧
      (∃ s : RaceState n, s.EndOf m ∧ s.sharedCounterUnsafe = 2) ∧
      ∃ s : RaceState n, s.EndOf m ∧ s.sharedCounterUnsafe = n * m := by
  refine ⟨?_, ?_, ?_, ?_⟩
  · intro s hs
    obtain ⟨s', hs', hfinished⟩ := exists_finished (raceInv_of_reachable hs)
    exact ⟨s', hs', hs.trans hs', hfinished⟩
  · intro s hs
    obtain ⟨hleast, hmost⟩ := bounds_of_end hs (Nat.zero_lt_of_lt hn) hm
    obtain ⟨hlost, hmatches⟩ := report_of_bounds (safe_of_end hs) hmost
    exact ⟨safe_of_end hs, hleast, hmost, s.report m, (exited_of_end hs).2, rfl, rfl, rfl, hlost, hmatches⟩
  · have hne : (⟨0, Nat.zero_lt_of_lt hn⟩ : Fin n) ≠ ⟨1, hn⟩ := fun h => nomatch Fin.mk.inj h
    obtain ⟨t, ht, hended, hcounter⟩ := LostUpdates.exists_two hne (Nat.le_of_succ_le hm)
    obtain ⟨s, hs, hfinished, hvalue⟩ := exists_finished_of_ended ht hended
    exact ⟨s, ⟨hs, hfinished⟩, hvalue.trans hcounter⟩
  · obtain ⟨t, ht, hended, hcounter⟩ := LostUpdates.exists_all (T := Fin n) (m := m)
    obtain ⟨s, hs, hfinished, hvalue⟩ := exists_finished_of_ended ht hended
    rw [Fintype.card_fin] at hcounter
    exact ⟨s, ⟨hs, hfinished⟩, hvalue.trans hcounter⟩

/-- With the constants of the source, 4 threads and 2000 increments, from 2 to 8000. -/
theorem race_counters_source :
    (∃ s : RaceState 4, s.EndOf 2000 ∧ s.sharedCounterUnsafe = 2) ∧
      ∃ s : RaceState 4, s.EndOf 2000 ∧ s.sharedCounterUnsafe = 8000 :=
  (race_counters 4 2000 (by decide) (by decide)).2.2

end OsSecurity.Scheduler
