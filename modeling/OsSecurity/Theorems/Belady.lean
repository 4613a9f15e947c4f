import OsSecurity.Theorems.Addresses

/-!
# FIFO's anomaly

The reference string of the first two test cases has 9 faults with three frames and 10 with four. Behind pages that it does not access
it goes as from empty frames, and leaves none of them, so blocks of it over two sets of five pages in turn add up.
-/

namespace OsSecurity.Paging

open DemandPaging SimulatorAux

/-- `pattern1` of `main`. -/
def pattern1 : List Int := [1, 2, 3, 4, 1, 2, 5, 1, 2, 3, 4, 5]

/-- `n` times the pattern over the pages 1 to 5 and the pattern over the pages 6 to 10. -/
def alternating (n : Nat) : List Int := (List.replicate n (pattern1 ++ pattern1.map (· + 5))).flatten

namespace BeladyAux

/-- The pages are those of the first block. -/
theorem mem_block {n : Nat} {p : Int} (h : p ∈ alternating n) : p ∈ pattern1 ++ pattern1.map (· + 5) := by
  obtain ⟨block, hblock, hp⟩ := List.mem_flatten.mp h
  rwa [List.eq_of_mem_replicate hblock] at hp

/-- No page is above 10. -/
theorem bounds {n : Nat} {p : Int} (h : p ∈ alternating n) : 0 ≤ p ∧ p ≤ 10 := by
  have hall : ∀ q ∈ pattern1 ++ pattern1.map (· + 5), 0 ≤ q ∧ q ≤ 10 := by decide
  exact hall p (mem_block h)

/-- The addresses are in the range of an `int`. -/
theorem inRange {s : Int} (hs : 1 ≤ s) (hs' : 10 * s + s / 2 ≤ 2 ^ 31 - 1) (n : Nat) : InRange s (alternating n) := by
  intro p hp
  have hle := Int.mul_le_mul_of_nonneg_right (bounds hp).2 (Int.le_trans (by decide) hs)
  omega

/-- There are at most ten pages. -/
theorem card_le (n : Nat) : (alternating n).toFinset.card ≤ 10 := by
  have hsub : (alternating n).toFinset ⊆ (pattern1 ++ pattern1.map (· + 5)).toFinset := by
    intro p hp
    exact List.mem_toFinset.mpr (mem_block (List.mem_toFinset.mp hp))
  have hblock : (pattern1 ++ pattern1.map (· + 5)).toFinset.card = 10 := by decide +kernel
  exact hblock ▸ Finset.card_le_card hsub

/-- The faults of FIFO on the blocks are those of each block from empty frames. -/
theorem faults_alternating {k : Nat} (hk : 1 ≤ k) (hk' : k ≤ maxFrames) {s : Int} (hs : 1 ≤ s)
    (hs' : 10 * s + s / 2 ≤ 2 ^ 31 - 1) (n : Nat) (has : (Runs.final (access (fifo k)) [] pattern1).length = k)
    (hbs : (Runs.final (access (fifo k)) [] (pattern1.map (· + 5))).length = k) :
    (runFifo (buildAddressesFromPages (alternating n) s) k s).ft.pageFaults =
      n * ((loads (Runs.trace (access (fifo k)) [] pattern1)).length +
        (loads (Runs.trace (access (fifo k)) [] (pattern1.map (· + 5)))).length) := by
  have hpos : ∀ p ∈ alternating n, 0 ≤ p := fun p hp => (bounds hp).1
  have hrange := inRange hs hs' n
  have hrefs := AddressesAux.build_nonneg hpos hs hrange
  rw [fifo_faults hk hk' hs hrefs, fifo_loaded hk hk' hs hrefs, (AddressesAux.pageString_build_iff hpos hs (by omega)).mpr hrange]
  exact loads_fifo_alternate hk (by decide) has hbs n (Nat.zero_le k) (fun _ _ => List.not_mem_nil)

end BeladyAux

open BeladyAux

/-- For every page size that ten pages allow and every `n` there are addresses in at most ten distinct pages on which `run_fifo` counts
at least `n` more faults with four frames than with three. -/
theorem belady_unbounded (s : Int) (hs : 1 ≤ s) (hs' : 10 * s + s / 2 ≤ 2 ^ 31 - 1) (n : Nat) :
    ∃ refs : List Int, (∀ a ∈ refs, 0 ≤ a ∧ a ≤ 2 ^ 31 - 1) ∧ (pageString refs s).toFinset.card ≤ 10 ∧
      (runFifo refs 3 s).ft.pageFaults + n ≤ (runFifo refs 4 s).ft.pageFaults := by
  have hpos : ∀ p ∈ alternating n, 0 ≤ p := fun p hp => (bounds hp).1
  have hrange := inRange hs hs' n
  refine ⟨buildAddressesFromPages (alternating n) s, ?_, ?_, ?_⟩
  · intro a ha
    refine ⟨AddressesAux.build_nonneg hpos hs hrange a ha, ?_⟩
    obtain ⟨p, hp, rfl⟩ := List.mem_map.mp ha
    rw [AddressesAux.wrapInt_of_range (hpos p hp) hs (hrange p hp)]
    exact hrange p hp
  · rw [(AddressesAux.pageString_build_iff hpos hs (by omega)).mpr hrange]
    exact card_le n
  · have hthree : (loads (Runs.trace (access (fifo 3)) [] pattern1)).length +
        (loads (Runs.trace (access (fifo 3)) [] (pattern1.map (· + 5)))).length = 9 + 9 := by decide +kernel
    have hfour : (loads (Runs.trace (access (fifo 4)) [] pattern1)).length +
        (loads (Runs.trace (access (fifo 4)) [] (pattern1.map (· + 5)))).length = 10 + 10 := by decide +kernel
    rw [faults_alternating (by decide) (by decide) hs hs' n (by decide +kernel) (by decide +kernel),
      faults_alternating (by decide) (by decide) hs hs' n (by decide +kernel) (by decide +kernel), hthree, hfour]
    omega

/-- The page size of `main`, and a hundred more faults. -/
theorem belady_unbounded_hundred :
    ∃ refs : List Int, (∀ a ∈ refs, 0 ≤ a ∧ a ≤ 2 ^ 31 - 1) ∧ (pageString refs 4096).toFinset.card ≤ 10 ∧
      (runFifo refs 3 4096).ft.pageFaults + 100 ≤ (runFifo refs 4 4096).ft.pageFaults :=
  belady_unbounded 4096 (by decide) (by decide) 100

end OsSecurity.Paging
