import OsSecurity.Lemmas.Paging

/-!
# From pages to addresses and back

A product that wraps leaves the address of another page: it is off by a multiple of `2 ^ 32`, and a page is smaller than that. So the
pages come back exactly where no address wraps, and there what the loops do is a function of the pages alone.
-/

namespace OsSecurity.Paging

open DemandPaging SimulatorAux

/-- No address that `build_addresses_from_pages` makes of the pattern wraps. -/
def InRange (pageSize : Int) (pattern : List Int) : Prop := ∀ p ∈ pattern, p * pageSize + pageSize / 2 ≤ 2 ^ 31 - 1

namespace AddressesAux

variable {p s : Int}

theorem wrapInt_build (hs : 1 ≤ s) : wrapInt (wrapInt (p * s) + s.tdiv 2) = (p * s + s / 2).bmod (2 ^ 32) := by
  rw [wrapInt, wrapInt, Int.bmod_add_bmod, Int.tdiv_eq_ediv_of_nonneg (Int.le_trans (by decide) hs)]

theorem middle_nonneg (hp : 0 ≤ p) (hs : 1 ≤ s) : 0 ≤ p * s + s / 2 :=
  Int.add_nonneg (Int.mul_nonneg hp (by omega)) (by omega)

/-- An address in range is the one computed. -/
theorem wrapInt_of_range (hp : 0 ≤ p) (hs : 1 ≤ s) (h : p * s + s / 2 ≤ 2 ^ 31 - 1) :
    wrapInt (wrapInt (p * s) + s.tdiv 2) = p * s + s / 2 := by
  have hnonneg := middle_nonneg hp hs
  rw [wrapInt_build hs]
  exact Int.bmod_eq_of_le (by omega) (by omega)

/-- The middle of a page is in it. -/
theorem middle_ediv (hs : 1 ≤ s) : (p * s + s / 2) / s = p := by
  rw [Int.add_comm, Int.add_mul_ediv_right _ _ (by omega), Int.ediv_eq_zero_of_lt (by omega) (by omega), Int.zero_add]

/-- The page of an address is the one it was made of if and only if nothing wrapped. -/
theorem addressToPage_build_iff (hp : 0 ≤ p) (hs : 1 ≤ s) (hs' : s < 2 ^ 31) :
    addressToPage (wrapInt (wrapInt (p * s) + s.tdiv 2)) s = p ↔ p * s + s / 2 ≤ 2 ^ 31 - 1 := by
  have hnonneg := middle_nonneg hp hs
  constructor
  · intro h
    by_contra hwraps
    rw [wrapInt_build hs, addressToPage] at h
    have hlt : (p * s + s / 2).bmod (2 ^ 32) < 2 ^ 31 := Int.bmod_lt (by decide)
    have hmod := Int.bmod_add_bdiv (p * s + s / 2) (2 ^ 32)
    generalize (p * s + s / 2).bmod (2 ^ 32) = y at h hlt hmod
    rcases Int.lt_or_le y 0 with hneg | hpos
    · -- a negative address has no positive page, and page 0 is in range
      have hle : 0 ≤ (-y).tdiv s := Int.tdiv_nonneg (by omega) (by omega)
      rw [Int.neg_tdiv, h] at hle
      obtain rfl : p = 0 := by omega
      omega
    · -- the address is in page `p`, so less than half a page below the one computed
      rw [Int.tdiv_eq_ediv_of_nonneg hpos] at h
      have hpage : p * s ≤ y := by
        rw [← h]
        exact Int.ediv_mul_le y (by omega)
      omega
  · intro h
    rw [wrapInt_of_range hp hs h, addressToPage, Int.tdiv_eq_ediv_of_nonneg hnonneg, middle_ediv hs]

theorem pageString_build_iff {pattern : List Int} (hp : ∀ p ∈ pattern, 0 ≤ p) (hs : 1 ≤ s) (hs' : s < 2 ^ 31) :
    pageString (buildAddressesFromPages pattern s) s = pattern ↔ InRange s pattern := by
  have hself : pageString (buildAddressesFromPages pattern s) s = pattern ↔
      ∀ p ∈ pattern, addressToPage (wrapInt (wrapInt (p * s) + s.tdiv 2)) s = p := by
    rw [pageString, buildAddressesFromPages, List.map_map]
    nth_rewrite 2 [← List.map_id pattern]
    exact List.map_inj_left
  rw [hself, InRange]
  exact forall₂_congr fun p hmem => addressToPage_build_iff (hp p hmem) hs hs'

/-- Addresses in range are not negative. -/
theorem build_nonneg {pattern : List Int} (hp : ∀ p ∈ pattern, 0 ≤ p) (hs : 1 ≤ s) (h : InRange s pattern) :
    ∀ a ∈ buildAddressesFromPages pattern s, 0 ≤ a := by
  intro a ha
  obtain ⟨p, hmem, rfl⟩ := List.mem_map.mp ha
  rw [wrapInt_of_range (hp p hmem) hs (h p hmem)]
  exact middle_nonneg (hp p hmem) hs

/-! ## What depends on the pages alone -/

theorem fifoStep_pages (k : Nat) (s : Int) (v : FifoVars) (a : Int) :
    (fifoStep k s v a).1 = (fifoStep k 1 v (addressToPage a s)).1 ∧
      (fifoStep k s v a).2.hit = (fifoStep k 1 v (addressToPage a s)).2.hit := by
  have hpage : addressToPage (addressToPage a s) 1 = addressToPage a s := Int.tdiv_one _
  unfold fifoStep
  cases hf : findPage v.ft (addressToPage a s) with
  | some i =>
    simp only [hpage, hf]
    exact ⟨trivial, rfl⟩
  | none =>
    by_cases hfree : v.filled < k
    · simp only [hpage, hf, if_pos hfree]
      exact ⟨trivial, rfl⟩
    · simp only [hpage, hf, if_neg hfree]
      exact ⟨trivial, rfl⟩

theorem lruStep_pages (k : Nat) (s : Int) (v : LruVars) (a : Int) :
    (lruStep k s v a).1 = (lruStep k 1 v (addressToPage a s)).1 ∧
      (lruStep k s v a).2.hit = (lruStep k 1 v (addressToPage a s)).2.hit := by
  have hpage : addressToPage (addressToPage a s) 1 = addressToPage a s := Int.tdiv_one _
  unfold lruStep
  cases hf : (v.frames.ints.take k).findIdx? (· == addressToPage a s) with
  | some i =>
    simp only [hpage, hf]
    exact ⟨trivial, rfl⟩
  | none =>
    by_cases hfree : v.filled < k
    · simp only [hpage, hf, if_pos hfree]
      exact ⟨trivial, rfl⟩
    · simp only [hpage, hf, if_neg hfree]
      exact ⟨trivial, rfl⟩

/-- The hits of a loop whose steps depend on the pages alone. -/
theorem hits_eq {S : Type} {step : Int → S → Int → S × Report}
    (hstep : ∀ v a, (step s v a).1 = (step 1 v (addressToPage a s)).1 ∧
      (step s v a).2.hit = (step 1 v (addressToPage a s)).2.hit) (v : S) (refs : List Int) :
    ((Runs.trace (step s) v refs).map (·.2)).map (·.hit) =
      ((Runs.trace (step 1) v (pageString refs s)).map (·.2)).map (·.hit) := by
  induction refs generalizing v with
  | nil => rfl
  | cons a refs ih =>
    obtain ⟨hnext, hhit⟩ := hstep v a
    rw [pageString, List.map_cons, Runs.trace_cons, Runs.trace_cons, List.map_cons, List.map_cons, List.map_cons, List.map_cons,
      ih, hnext, hhit]
    rfl

end AddressesAux

open AddressesAux

/-- For every pattern of page numbers and page size: the pages that `run_fifo` derives from the addresses are the pattern, and so are
those of `run_lru`, if and only if no address wraps. The hits and faults are then the same for every other such page size. -/
theorem pages_roundtrip_iff (k : Nat) (s : Int) (pattern : List Int) (hs : 1 ≤ s) (hs' : s < 2 ^ 31) (hp : ∀ p ∈ pattern, 0 ≤ p) :
    ((fifoReports (buildAddressesFromPages pattern s) k s).map (·.page) = pattern ↔ InRange s pattern) ∧
      ((lruReports (buildAddressesFromPages pattern s) k s).map (·.page) = pattern ↔ InRange s pattern) ∧
      (∀ s', 1 ≤ s' → s' < 2 ^ 31 → InRange s pattern → InRange s' pattern →
        (fifoReports (buildAddressesFromPages pattern s) k s).map (·.hit) =
            (fifoReports (buildAddressesFromPages pattern s') k s').map (·.hit) ∧
          (lruReports (buildAddressesFromPages pattern s) k s).map (·.hit) =
            (lruReports (buildAddressesFromPages pattern s') k s').map (·.hit)) := by
  refine ⟨?_, ?_, ?_⟩
  · rw [fifoReports, reports_page (fifoStep_page k s), pageString_build_iff hp hs hs']
  · rw [lruReports, reports_page (lruStep_page k s), pageString_build_iff hp hs hs']
  · intro s' hs₁ hs₁' h h'
    have hpages := (pageString_build_iff hp hs hs').mpr h
    have hpages' := (pageString_build_iff hp hs₁ hs₁').mpr h'
    constructor
    · rw [fifoReports, fifoReports, hits_eq (fifoStep_pages k s), hits_eq (fifoStep_pages k s'), hpages, hpages']
    · rw [lruReports, lruReports, hits_eq (lruStep_pages k s), hits_eq (lruStep_pages k s'), hpages, hpages']

/-- Two pages with the page size of `main` and with one of eight bytes. -/
theorem pages_roundtrip_iff_run :
    (fifoReports (buildAddressesFromPages [7, 524287] 4096) 3 4096).map (·.page) = [7, 524287] ∧
      (lruReports (buildAddressesFromPages [7, 524287] 4096) 3 4096).map (·.page) = [7, 524287] ∧
      (fifoReports (buildAddressesFromPages [7, 524287] 4096) 3 4096).map (·.hit) =
        (fifoReports (buildAddressesFromPages [7, 524287] 8) 3 8).map (·.hit) := by
  obtain ⟨hfifo, hlru, hhits⟩ := pages_roundtrip_iff 3 4096 [7, 524287] (by decide) (by decide) (by decide)
  have hrange : InRange 4096 [7, 524287] := by
    unfold InRange
    decide
  have hrange' : InRange 8 [7, 524287] := by
    unfold InRange
    decide
  exact ⟨hfifo.mpr hrange, hlru.mpr hrange, (hhits 8 (by decide) (by decide) hrange hrange').1⟩

end OsSecurity.Paging
