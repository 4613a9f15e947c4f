import OsSecurity.Lib.PagingAdversary
import OsSecurity.Theorems.Addresses
import Mathlib.Data.Int.Interval

/-!
# The competitive bound cannot be improved

Both simulators fault on a page that is in no frame, and among more than sixteen pages there always is one. So a reference string can be
chosen against either of them that faults at each access, and which a schedule that knows it serves with `k - h + 1` misses in `k`
accesses.
-/

namespace OsSecurity.Paging

open DemandPaging SimulatorAux

namespace LowerBoundAux

/-- A page is loaded into an empty frame, or for another one. -/
theorem length_load_le {k : Nat} (hk : 1 ≤ k) {q : List Int} (p : Int) (hq : q.length ≤ k) : (load k q p).length ≤ k := by
  unfold load
  split
  · rw [List.length_append, List.length_singleton]
    omega
  · rw [List.length_append, List.length_tail, List.length_singleton]
    omega

/-- FIFO holds at most as many pages as there are frames. -/
theorem within_fifo {k : Nat} (hk : 1 ≤ k) : Within k (fifo k : List Int → Int → List Int) := by
  intro q p hq
  unfold fifo
  split
  · exact hq
  · exact length_load_le hk p hq

/-- LRU holds at most as many pages as there are frames. -/
theorem within_lru {k : Nat} (hk : 1 ≤ k) : Within k (lru k : List Int → Int → List Int) := by
  intro q p hq
  unfold lru
  split
  · have hlength := List.length_erase_add_one (a := p) (l := q) ‹_›
    rw [List.length_append, List.length_singleton]
    omega
  · exact length_load_le hk p hq

variable {k h : Nat} {s : Int} {policy : List Int → Int → List Int}

/-- The addresses of a hard reference string, built as `main` builds its own. -/
theorem exists_addresses (hpolicy : Within k policy) (hh : 1 ≤ h) (hhk : h ≤ k) (hs : 1 ≤ s) (hs' : 2 * k * s + s / 2 ≤ 2 ^ 31 - 1) (n : Nat) :
    ∃ (refs : List Int) (run : List (Int × Finset Int)), (∀ a ∈ refs, 0 ≤ a ∧ a ≤ 2 ^ 31 - 1) ∧
      run.map (·.1) = pageString refs s ∧ Serves h ∅ run ∧ misses ∅ run ≤ h + n * (k - h + 1) ∧
      (loads (Runs.trace (access policy) [] (pageString refs s))).length = h + n * k := by
  have hA : 2 * k < (Finset.Icc (0 : Int) (2 * k)).card := by
    rw [Int.card_Icc]
    omega
  obtain ⟨run, hlength, hmisses, hrun⟩ := exists_hard_phases hpolicy hh hhk hA n
  have hpos : ∀ p ∈ run.map (·.1), 0 ≤ p := fun p hp => (Finset.mem_Icc.mp (hrun.pages p hp)).1
  have hrange : InRange s (run.map (·.1)) := by
    intro p hp
    have hle := Int.mul_le_mul_of_nonneg_right (Finset.mem_Icc.mp (hrun.pages p hp)).2 (Int.le_trans (by decide) hs)
    omega
  have hwidth : s < 2 ^ 31 := by
    have hle := Int.mul_le_mul_of_nonneg_right (show (1 : Int) ≤ 2 * k by omega) (Int.le_trans (by decide) hs)
    omega
  have hpages := (AddressesAux.pageString_build_iff hpos hs hwidth).mpr hrange
  refine ⟨buildAddressesFromPages (run.map (·.1)) s, run, ?_, hpages.symm, hrun.serves, hmisses, ?_⟩
  · intro a ha
    refine ⟨AddressesAux.build_nonneg hpos hs hrange a ha, ?_⟩
    obtain ⟨p, hp, rfl⟩ := List.mem_map.mp ha
    rw [AddressesAux.wrapInt_of_range (hpos p hp) hs (hrange p hp)]
    exact hrange p hp
  · rw [hpages, hrun.faults.loads_eq, List.length_map, hlength]

end LowerBoundAux

open LowerBoundAux

/-- For every `h ≤ k` and every `n` there are addresses on which `run_fifo` with `k` frames counts `h + n * k` faults, and likewise others
for `run_lru`, while some schedule with room for `h` pages that loads what is accessed and nothing else misses at most
`h + n * (k - h + 1)` of these accesses. -/
theorem competitive_bound_tight (k h n : Nat) (s : Int) (hh : 1 ≤ h) (hhk : h ≤ k) (hk' : k ≤ maxFrames) (hs : 1 ≤ s)
    (hs' : 2 * k * s + s / 2 ≤ 2 ^ 31 - 1) :
    (∃ (refs : List Int) (run : List (Int × Finset Int)), (∀ a ∈ refs, 0 ≤ a ∧ a ≤ 2 ^ 31 - 1) ∧
      run.map (·.1) = pageString refs s ∧ Serves h ∅ run ∧ misses ∅ run ≤ h + n * (k - h + 1) ∧
      (runFifo refs k s).ft.pageFaults = h + n * k) ∧
    ∃ (refs : List Int) (run : List (Int × Finset Int)), (∀ a ∈ refs, 0 ≤ a ∧ a ≤ 2 ^ 31 - 1) ∧
      run.map (·.1) = pageString refs s ∧ Serves h ∅ run ∧ misses ∅ run ≤ h + n * (k - h + 1) ∧
      (runLru refs k s).pageFaults = h + n * k := by
  have hk : 1 ≤ k := Nat.le_trans hh hhk
  constructor
  · obtain ⟨refs, run, hrefs, hpages, hserves, hmisses, hfaults⟩ := exists_addresses (within_fifo hk) hh hhk hs hs' n
    have hnonneg : ∀ a ∈ refs, 0 ≤ a := fun a ha => (hrefs a ha).1
    refine ⟨refs, run, hrefs, hpages, hserves, hmisses, ?_⟩
    rw [fifo_faults hk hk' hs hnonneg, fifo_loaded hk hk' hs hnonneg, hfaults]
  · obtain ⟨refs, run, hrefs, hpages, hserves, hmisses, hfaults⟩ := exists_addresses (within_lru hk) hh hhk hs hs' n
    have hnonneg : ∀ a ∈ refs, 0 ≤ a := fun a ha => (hrefs a ha).1
    refine ⟨refs, run, hrefs, hpages, hserves, hmisses, ?_⟩
    rw [lru_faults hk hk' hs hnonneg, hfaults]

/-- Four frames of 4 KB pages against a schedule with three, in a hundred phases. -/
theorem competitive_bound_tight_four :
    (∃ (refs : List Int) (run : List (Int × Finset Int)), (∀ a ∈ refs, 0 ≤ a ∧ a ≤ 2 ^ 31 - 1) ∧
      run.map (·.1) = pageString refs 4096 ∧ Serves 3 ∅ run ∧ misses ∅ run ≤ 3 + 100 * (4 - 3 + 1) ∧
      (runFifo refs 4 4096).ft.pageFaults = 3 + 100 * 4) ∧
    ∃ (refs : List Int) (run : List (Int × Finset Int)), (∀ a ∈ refs, 0 ≤ a ∧ a ≤ 2 ^ 31 - 1) ∧
      run.map (·.1) = pageString refs 4096 ∧ Serves 3 ∅ run ∧ misses ∅ run ≤ 3 + 100 * (4 - 3 + 1) ∧
      (runLru refs 4 4096).pageFaults = 3 + 100 * 4 :=
  competitive_bound_tight 4 3 100 4096 (by decide) (by decide) (by decide) (by decide) (by decide)

end OsSecurity.Paging
