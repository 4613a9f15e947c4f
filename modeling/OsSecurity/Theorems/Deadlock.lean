import OsSecurity.Lemmas.Deadlock

/-!
# The deadlock demonstration, with and without an order of the locks

In the safe mode no order of the steps keeps the program from its end. In the unsafe mode there is one state in which it hangs, and it
is told by the state of the locks whether it can still complete and whether it can still hang.
-/

namespace OsSecurity.Scheduler

open Interleaving DeadlockAux

/-- In the safe mode a run has at most 24 steps, whatever their order; it can be taken on until the program has completed; and it stops
only there, after all 24 steps, with both resources free and the last line printed. -/
theorem demo_safe_completes {as : List DemoActor} {s : DemoState} (h : run demoStep (DemoState.init .safe) as = some s) :
    as.length ≤ 24 ∧ (∃ bs s', run demoStep s bs = some s' ∧ s'.Completed) ∧
      (Stuck demoStep s → s.Completed ∧ as.length = 24 ∧ (∀ r, s.threads.owner r = none) ∧ completedLine ∈ s.threads.output) := by
  have hinv : DemoInv .safe s := demoInv_of_reachable ⟨as, h⟩
  have hend : ∀ s', DemoInv .safe s' → Stuck demoStep s' → s'.Completed := by
    intro s' hs' hstuck
    rcases completed_or_waits hs' hstuck with hend | ⟨-, ⟨t, hcode⟩, hthreads⟩
    · exact hend
    · exact absurd (hs'.disciplined.done_of_stuck wellFounded_safe hthreads t) hcode
  have hlength := length_add_eq (fun _ _ _ hstep => remaining_demoStep hstep) h
  have htotal : (DemoState.init .safe).remaining = 24 := rfl
  refine ⟨by omega, ?_, fun hstuck => ?_⟩
  · obtain ⟨s', ⟨bs, hbs⟩, hstuck⟩ := exists_stuck (I := fun _ => True) (μ := DemoState.remaining) (fun _ _ _ _ _ => trivial)
      (fun _ _ _ _ hstep => Nat.lt_of_succ_le (Nat.le_of_eq (remaining_demoStep hstep))) trivial
    exact ⟨bs, s', hbs, hend s' (demoInv_reachable hinv ⟨bs, hbs⟩) hstuck⟩
  · have hdone := hend s hinv hstuck
    have hnothing : s.remaining = 0 := by
      simp [DemoState.remaining, Locking.State.remaining, hdone.1, hdone.2]
    exact ⟨hdone, by omega, hinv.disciplined.owner_eq_none hdone.2, hinv.last.mpr hdone.1⟩

/-- `thread_a` has the first resource, and `thread_b` has come to it. -/
def untilContended : List DemoActor := [.main, .main, .main, .thread .a, .thread .a, .thread .b]

/-- There `thread_b` has to wait, and the program still completes. -/
theorem demo_safe_completes_contended :
    ∃ s, run demoStep (DemoState.init .safe) untilContended = some s ∧ s.threads.owner .resource1 = some .a ∧
      demoStep s (.thread .b) = none ∧ ∃ bs s', run demoStep s bs = some s' ∧ s'.Completed :=
  ⟨_, rfl, rfl, rfl, (@demo_safe_completes untilContended _ rfl).2.1⟩

/-- In the unsafe mode a state of a run has no step just when the program has completed or each thread has its first resource and waits
for its second. It can still complete just when it is not so that each thread has its first resource and has still to take its second;
and it can still hang just when neither has taken its second. -/
theorem demo_unsafe_outcomes {s : DemoState} (h : Reachable demoStep (DemoState.init .demoUnsafe) s) :
    (Stuck demoStep s ↔ s.Completed ∨ s.Deadlocked) ∧
      ((∃ s', Reachable demoStep s s' ∧ s'.Completed) ↔ ¬s.Doomed) ∧
      ((∃ s', Reachable demoStep s s' ∧ s'.Deadlocked) ↔ ∀ t : DemoThread, .lock t.second ∈ s.threads.code t) ∧
      (completedLine ∈ s.threads.output ↔ s.Completed) := by
  have hinv := demoInv_of_reachable h
  obtain ⟨s₁, hreach₁, hcreated₁, howner₁, hcode₁⟩ := exists_created hinv
  have hinv₁ := demoInv_reachable hinv hreach₁
  refine ⟨⟨completed_or_deadlocked hinv, ?_⟩, ⟨?_, ?_⟩, ⟨?_, ?_⟩, ?_⟩
  · rintro (hend | hdead)
    · exact stuck_of_completed hend
    · exact stuck_of_deadlocked hdead
  · rintro ⟨s', hreach, hend⟩ hdoomed
    have hstill := doomed_reachable hinv hdoomed hreach .a
    exact absurd hstill.2 (by rw [hend.2]; exact List.not_mem_nil)
  · intro hnot
    have hnot₁ : ¬s₁.Doomed := by simpa only [DemoState.Doomed, howner₁, hcode₁] using hnot
    obtain ⟨s', hreach, hend⟩ := exists_completed_of_not_doomed hinv₁ hcreated₁ hnot₁
    exact ⟨s', hreach₁.trans hreach, hend⟩
  · rintro ⟨s', hreach, hdead⟩ t
    obtain ⟨-, cs, hcs⟩ := hdead.1 t
    exact (demo_code_suffix hreach t).subset (hcs ▸ List.mem_cons_self ..)
  · intro hsecond
    obtain ⟨s', hreach, hdead⟩ := exists_deadlocked hinv₁ hcreated₁ (fun t => hcode₁ ▸ hsecond t)
    exact ⟨s', hreach₁.trans hreach, hdead⟩
  · exact ⟨fun hline => ⟨hinv.last.mp hline, fun t => hinv.joined t (by rw [hinv.last.mp hline]; exact List.not_mem_nil)⟩,
      fun hend => hinv.last.mpr hend.1⟩

/-- So from its beginning the program can complete, and it can hang. -/
theorem demo_unsafe_outcomes_init :
    (∃ s, Reachable demoStep (DemoState.init .demoUnsafe) s ∧ s.Completed) ∧
      ∃ s, Reachable demoStep (DemoState.init .demoUnsafe) s ∧ s.Deadlocked := by
  obtain ⟨-, hcomplete, hhang, -⟩ := demo_unsafe_outcomes (Reachable.refl (DemoState.init .demoUnsafe))
  refine ⟨hcomplete.mpr (fun hdoomed => nomatch (hdoomed .a).1), hhang.mpr (fun t => ?_)⟩
  cases t <;> decide

end OsSecurity.Scheduler
