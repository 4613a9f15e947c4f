import OsSecurity.Lemmas.Paging

/-!
# Windows

A window of accesses may start in any state that the accesses before it left. Faults on one page are `k` other pages apart there as
well, so no page of a window with at most `k` pages faults twice in it.
-/

namespace OsSecurity.Paging

open DemandPaging SimulatorAux

namespace ConservativeAux

/-- The loads of a window, where the accesses of the run are those before it and its own. -/
theorem loads_window_le {policy : List Int → Int → List Int} {k : Nat} {pageSize : Int} {as w : List Int}
    (hspaced : Spaced k (Runs.trace (access policy) [] (pageString (as ++ w) pageSize)))
    (hw : (pageString w pageSize).toFinset.card ≤ k) :
    (loads (Runs.trace (access policy) [] (pageString (as ++ w) pageSize))).length ≤
      (loads (Runs.trace (access policy) [] (pageString as pageSize))).length + k := by
  have hpages : pageString (as ++ w) pageSize = pageString as pageSize ++ pageString w pageSize := List.map_append
  rw [hpages, Runs.trace_append] at hspaced ⊢
  rw [loads_append, List.length_append]
  refine Nat.add_le_add_left (hspaced.length_loads_le (List.append_nil _).symm ?_) _
  rwa [Runs.trace_map_fst]

end ConservativeAux

open ConservativeAux

/-- For every reference string of non-negative addresses, page size and number of frames `k`: in a window `w` of it that touches at most
`k` distinct pages, `run_fifo` counts at most `k` faults, and so does `run_lru`, whatever accesses `as` came before. -/
theorem faults_conservative (k : Nat) (pageSize : Int) (as w : List Int) (hk : 1 ≤ k) (hk' : k ≤ maxFrames) (hp : 1 ≤ pageSize)
    (h : ∀ a ∈ as ++ w, 0 ≤ a) (hw : (pageString w pageSize).toFinset.card ≤ k) :
    (runFifo (as ++ w) k pageSize).ft.pageFaults ≤ (runFifo as k pageSize).ft.pageFaults + k ∧
      (runLru (as ++ w) k pageSize).pageFaults ≤ (runLru as k pageSize).pageFaults + k := by
  have has : ∀ a ∈ as, 0 ≤ a := fun a ha => h a (List.mem_append_left w ha)
  constructor
  · rw [fifo_faults hk hk' hp h, fifo_faults hk hk' hp has, fifo_loaded hk hk' hp h, fifo_loaded hk hk' hp has]
    exact loads_window_le (spaced_fifo hk _) hw
  · rw [lru_faults hk hk' hp h, lru_faults hk hk' hp has]
    exact loads_window_le (spaced_lru hk _) hw

/-- The pages 1, 2, 3 of four bytes and then the window 4, 3, 4, with two frames. -/
theorem faults_conservative_run :
    (runFifo ([4, 8, 12] ++ [16, 12, 16]) 2 4).ft.pageFaults ≤ (runFifo [4, 8, 12] 2 4).ft.pageFaults + 2 ∧
      (runLru ([4, 8, 12] ++ [16, 12, 16]) 2 4).pageFaults ≤ (runLru [4, 8, 12] 2 4).pageFaults + 2 :=
  faults_conservative 2 4 [4, 8, 12] [16, 12, 16] (by decide) (by decide) (by decide) (by decide) (by decide)

end OsSecurity.Paging
