import OsSecurity.Lemmas.Paging

/-!
# FIFO

The queue of `run_fifo` is read off its frames, around from `fifo_queue_next` once they are full. It is the queue of the policy, so
it holds the pages that the faults loaded last, in the order of their loads.
-/

namespace OsSecurity.Paging

open DemandPaging SimulatorAux

/-- The occupied frames, read cyclically from `fifo_queue_next`, and from the first while not all are occupied. -/
def FifoVars.queue (s : FifoVars) (numFrames : Nat) : List Int :=
  (s.ft.frames.ints.take s.filled).rotate (if s.filled = numFrames then s.fifoQueueNext else 0)

namespace FifoAux

variable {k : Nat} {s : FifoVars} {q : List Int}

/-- The queue of the simulation, read off the frames. -/
theorem queue_eq (h : FifoSim k s q) : s.queue k = q := by
  obtain ⟨xs, hholds, hlen, -, hq⟩ := h.holds
  rw [FifoVars.queue, ← hlen, hholds.take_length]
  by_cases hfull : xs.length = k
  · rw [if_pos hfull, hq]
  · have hzero := h.next_eq (Nat.lt_of_le_of_ne h.filled_le (hlen ▸ hfull))
    rw [if_neg hfull, ← hq, hzero]

/-- The occupied frames are the first ones. -/
theorem occupied_iff (hk' : k ≤ maxFrames) (h : FifoSim k s q) {i : Nat} (hi : i < k) :
    s.ft.frames.get i ≠ -1 ↔ i < s.filled := by
  obtain ⟨xs, hholds, hlen, hpos, -⟩ := h.holds
  rw [← hlen]
  exact hholds.get_ne_iff (hlen ▸ h.filled_le) hk' hpos hi

/-- A page is in a frame when it is in the queue. -/
theorem mem_queue_iff (h : FifoSim k s q) (p : Int) : p ∈ s.ft.frames.ints.take s.filled ↔ p ∈ q := by
  obtain ⟨xs, hholds, hlen, -, hq⟩ := h.holds
  rw [← hlen, hholds.take_length, ← hq, List.mem_rotate]

/-- No page is in two frames when none is twice in the queue. -/
theorem nodup_iff (h : FifoSim k s q) : (s.ft.frames.ints.take s.filled).Nodup ↔ q.Nodup := by
  obtain ⟨xs, hholds, hlen, -, hq⟩ := h.holds
  rw [← hlen, hholds.take_length, ← hq, List.nodup_rotate]

/-- The pages at the end of a list without repetitions there, picked out of it in the order of their last occurrence. -/
theorem filter_dedup_of_suffix {l r : List Int} (h : r <:+ l) (hr : r.Nodup) : l.dedup.filter (fun p => decide (p ∈ r)) = r := by
  obtain ⟨u, rfl⟩ := h
  obtain ⟨t, -, ht⟩ := List.sublist_suffix_of_union u r.dedup
  have hnodup : (t ++ r).Nodup := by
    have hd := List.nodup_dedup (u ++ r)
    rwa [List.dedup_append, ← ht, hr.dedup] at hd
  have hout : t.filter (fun p => decide (p ∈ r)) = [] := by
    rw [List.filter_eq_nil_iff]
    intro p hp
    rw [decide_eq_true_eq]
    intro hpr
    exact (List.nodup_append.mp hnodup).2.2 p hp p hpr rfl
  have hin : r.filter (fun p => decide (p ∈ r)) = r := by
    rw [List.filter_eq_self]
    intro p hp
    exact decide_eq_true hp
  rw [List.dedup_append, ← ht, hr.dedup, List.filter_append, hout, hin, List.nil_append]

/-- The last `k` elements, when there are fewer. -/
theorem rtake_min_length (l : List Int) : l.rtake (min k l.length) = l.rtake k := by
  rw [List.rtake, List.rtake]
  congr 1
  omega

/-- A load into the full queue: the oldest page goes. -/
theorem load_full {page : Int} (hk : 1 ≤ k) (hfull : q.length = k) (hnodup : q.Nodup) (hpage : page ∉ q) :
    ∃ oldest rest, q = oldest :: rest ∧ load k q page = rest ++ [page] ∧ oldest ∉ rest ++ [page] := by
  cases q with
  | nil => exact absurd hfull (Nat.ne_of_lt hk)
  | cons oldest rest =>
    refine ⟨oldest, rest, rfl, ?_, ?_⟩
    · rw [load, if_neg (hfull ▸ Nat.lt_irrefl _), List.tail_cons]
    · rw [List.mem_append, List.mem_singleton, not_or]
      exact ⟨(List.nodup_cons.mp hnodup).1, fun heq => hpage (heq ▸ List.mem_cons_self)⟩

end FifoAux

/-- For every reference string of non-negative addresses, page size and number of frames `k`, after each prefix: the occupied frames
are the first `filled`, they hold distinct pages, and `fifo_queue_next < k`; read as a queue they are the resident pages in the order
of their latest load, the last `min(k, faults)` loaded. An access takes the queue to that of the policy; it is a HIT exactly when
its page is among those; and a fault on full frames removes the page loaded longest ago. The hits and faults are the accesses. -/
theorem fifo_meets_spec (k : Nat) (pageSize : Int) (refs : List Int) (hk : 1 ≤ k) (hk' : k ≤ maxFrames) (hp : 1 ≤ pageSize)
    (h : ∀ a ∈ refs, 0 ≤ a) :
    (∀ as bs, refs = as ++ bs →
        let s := runFifo as k pageSize
        let loaded := loadedPages (fifoReports as k pageSize)
        s.filled ≤ k ∧ (∀ i < k, s.ft.frames.get i ≠ -1 ↔ i < s.filled) ∧ (s.ft.frames.ints.take s.filled).Nodup ∧
          s.fifoQueueNext < k ∧
          s.queue k = loaded.dedup.filter (fun p => decide (p ∈ s.ft.frames.ints.take s.filled)) ∧
          s.queue k = loaded.rtake (min k s.ft.pageFaults)) ∧
      (∀ as a bs, refs = as ++ a :: bs →
        let s := runFifo as k pageSize
        let s' := runFifo (as ++ [a]) k pageSize
        let page := addressToPage a pageSize
        s'.queue k = fifo k (s.queue k) page ∧
          ∃ r, (fifoReports refs k pageSize)[as.length]? = some r ∧
            (r.hit = true ↔ page ∈ (loadedPages (fifoReports as k pageSize)).rtake (min k s.ft.pageFaults)) ∧
            (r.hit = false → s.filled = k → ∃ oldest rest, s.queue k = oldest :: rest ∧ s'.queue k = rest ++ [page] ∧
              oldest ∉ s'.queue k)) ∧
      (runFifo refs k pageSize).ft.pageHits + (runFifo refs k pageSize).ft.pageFaults = refs.length := by
  refine ⟨?_, ?_, fifo_total refs k pageSize⟩
  · rintro as bs rfl
    have has : ∀ a ∈ as, 0 ≤ a := fun a ha => h a (List.mem_append_left bs ha)
    have hsim := (fifo_run hk hk' hp has).1
    have hnodup := (final_fifo hk (pageString as pageSize)).2
    have hqueue := fifo_queue hk hk' hp has
    refine ⟨hsim.filled_le, fun i hi => FifoAux.occupied_iff hk' hsim hi, (FifoAux.nodup_iff hsim).mpr hnodup, hsim.next_lt,
      ?_, ?_⟩
    · simp only [FifoAux.mem_queue_iff hsim, FifoAux.queue_eq hsim]
      rw [hqueue] at hnodup ⊢
      exact (FifoAux.filter_dedup_of_suffix (rtake_suffix k _) hnodup).symm
    · rw [FifoAux.queue_eq hsim, hqueue, fifo_faults hk hk' hp has, FifoAux.rtake_min_length]
  · rintro as a bs rfl
    have has : ∀ b ∈ as, 0 ≤ b := fun b hb => h b (List.mem_append_left _ hb)
    have ha : 0 ≤ a := h a (List.mem_append_right as List.mem_cons_self)
    have hsim := (fifo_run hk hk' hp has).1
    have hstep := hsim.step hk' hp _ _ a ha
    have hnext : (runFifo (as ++ [a]) k pageSize).queue k = fifo k ((runFifo as k pageSize).queue k) (addressToPage a pageSize) := by
      rw [FifoAux.queue_eq hsim, runFifo, Runs.final_concat]
      exact FifoAux.queue_eq hstep.1
    refine ⟨hnext, _, fifoReports_getElem? as a bs k pageSize, ?_, ?_⟩
    · rw [fifo_hit_iff hk hk' hp has ha, fifo_faults hk hk' hp has, FifoAux.rtake_min_length]
    · intro hfault hfull
      have hout : addressToPage a pageSize ∉ (runFifo as k pageSize).queue k := by
        rw [FifoAux.queue_eq hsim]
        have hout := hstep.2
        rw [hfault] at hout
        exact of_decide_eq_true hout.symm
      rw [hnext, fifo, if_neg hout]
      rw [FifoAux.queue_eq hsim] at hout ⊢
      obtain ⟨oldest, rest, hq, hload, hgone⟩ :=
        FifoAux.load_full hk (hsim.length_eq.trans hfull) (final_fifo hk (pageString as pageSize)).2 hout
      exact ⟨oldest, rest, hq, hload, hload ▸ hgone⟩

/-- The pages 1, 2, 1, 3 of four bytes, with two frames: the last access replaces page 1. -/
theorem fifo_meets_spec_run :
    (runFifo [4, 8, 4, 12] 2 4).queue 2 = fifo 2 ((runFifo [4, 8, 4] 2 4).queue 2) 3 ∧
      (runFifo [4, 8, 4, 12] 2 4).ft.pageHits + (runFifo [4, 8, 4, 12] 2 4).ft.pageFaults = 4 := by
  obtain ⟨-, hstep, htotal⟩ := fifo_meets_spec 2 4 [4, 8, 4, 12] (by decide) (by decide) (by decide) (by decide)
  exact ⟨(hstep [4, 8, 4] 12 [] rfl).1, htotal⟩

end OsSecurity.Paging
