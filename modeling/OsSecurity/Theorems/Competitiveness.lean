import OsSecurity.Lemmas.Paging

/-!
# Competitiveness

Both policies fault on a page a second time only after `k` other pages, which is all that the comparison with another schedule
needs of them.
-/

namespace OsSecurity.Paging

open DemandPaging SimulatorAux

/-- Let `C 0 = ∅`, `C 1`, ... be the page sets of any schedule with room for `h ≤ k` pages, which holds each page after its access and
loads nothing else, and let it miss `M` accesses. Then the faults `F` of `run_fifo` with `k` frames, and likewise those of `run_lru`,
satisfy `(k - h + 1) * F ≤ k * M + (k - 1) * (k - h + 1)`. -/
theorem faults_competitive (k h : Nat) (pageSize : Int) (refs : List Int) (C : Nat → Finset Int) (hh : 1 ≤ h) (hhk : h ≤ k)
    (hk' : k ≤ maxFrames) (hp : 1 ≤ pageSize) (hrefs : ∀ a ∈ refs, 0 ≤ a) (hzero : C 0 = ∅)
    (hC : ∀ t r, (pageString refs pageSize)[t]? = some r →
      (C (t + 1)).card ≤ h ∧ r ∈ C (t + 1) ∧ C (t + 1) ⊆ insert r (C t)) :
    let M := (pageString refs pageSize).zipIdx.countP (fun e => decide (e.1 ∉ C e.2))
    (k - h + 1) * (runFifo refs k pageSize).ft.pageFaults ≤ k * M + (k - 1) * (k - h + 1) ∧
      (k - h + 1) * (runLru refs k pageSize).pageFaults ≤ k * M + (k - 1) * (k - h + 1) := by
  have hk : 1 ≤ k := Nat.le_trans hh hhk
  have hserves := serves_zipIdx C (pageString refs pageSize) 0 (by simpa using hC)
  have hmisses := misses_zipIdx C (pageString refs pageSize) 0
  have hpages : ∀ policy : List Int → Int → List Int,
      ((pageString refs pageSize).zipIdx.map (fun e => (e.1, C (e.2 + 1)))).map (·.1) =
        (Runs.trace (access policy) [] (pageString refs pageSize)).map (·.1) := by
    intro policy
    rw [Runs.trace_map_fst, List.map_map]
    exact List.zipIdx_map_fst 0 _
  rw [hzero] at hserves hmisses
  intro M
  constructor
  · have hbound := competitive hh hhk (spaced_fifo hk _) (hpages (fifo k)) hserves
    rwa [hmisses, ← fifo_loaded hk hk' hp hrefs, ← fifo_faults hk hk' hp hrefs] at hbound
  · have hbound := competitive hh hhk (spaced_lru hk _) (hpages (lru k)) hserves
    rwa [hmisses, ← lru_faults hk hk' hp hrefs] at hbound

/-- The pages 1, 2, 1 of four bytes, beside the schedule that holds the page accessed last and misses three times. -/
theorem faults_competitive_run :
    (2 - 1 + 1) * (runFifo [4, 8, 4] 2 4).ft.pageFaults ≤ 2 * 3 + (2 - 1) * (2 - 1 + 1) ∧
      (2 - 1 + 1) * (runLru [4, 8, 4] 2 4).pageFaults ≤ 2 * 3 + (2 - 1) * (2 - 1 + 1) := by
  refine faults_competitive 2 1 4 [4, 8, 4] (fun t => if t = 0 then ∅ else if t = 2 then {2} else {1}) (Nat.le_refl 1)
    (by decide) (by decide) (by decide) (by decide) rfl ?_
  intro t r ht
  match t, ht with
  | 0, ht =>
    obtain rfl : 1 = r := Option.some.inj ht
    exact ⟨by decide, by decide, by decide⟩
  | 1, ht =>
    obtain rfl : 2 = r := Option.some.inj ht
    exact ⟨by decide, by decide, by decide⟩
  | 2, ht =>
    obtain rfl : 1 = r := Option.some.inj ht
    exact ⟨by decide, by decide, by decide⟩

end OsSecurity.Paging
