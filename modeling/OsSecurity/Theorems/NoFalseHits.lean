import OsSecurity.Lemmas.Paging

/-!
# Hits for any address

A negative address has a negative page, and the pages from -1 on are ints like any other. Page -1 is also what a free frame holds,
so an access to it is found there until the frames are full.
-/

namespace OsSecurity.Paging

open DemandPaging SimulatorAux

/-- Each access reported as a HIT is to a page accessed before. -/
def HonestHits (reports : List Report) : Prop :=
  ∀ before r after, reports = before ++ r :: after → r.hit = true → r.page ∈ before.map (·.page)

/-- The first access to page -1, if there is one, comes after `k` other pages. -/
def MarkerLate (k : Nat) (pages : List Int) : Prop :=
  ∀ before page after, pages = before ++ page :: after → page = -1 → -1 ∉ before → k ≤ before.toFinset.card

namespace NoFalseHitsAux

/-! ## The frames under one access -/

/-- What an access does to the frames, and whether it is a hit. -/
inductive Placement (k : Nat) (page : Int) (frames : IntArray) (filled : Nat) : IntArray → Nat → Bool → Prop
  | found (h : page ∈ frames.ints.take k) : Placement k page frames filled frames filled true
  | added (h : page ∉ frames.ints.take k) (hfree : filled < k) :
      Placement k page frames filled (frames.set filled page) (filled + 1) false
  | replaced (i : Nat) (h : page ∉ frames.ints.take k) (hfull : ¬filled < k) (hi : i < k) :
      Placement k page frames filled (frames.set i page) filled false

/-- The occupied frames hold pages that were accessed, and all of them while a frame is free. -/
structure Occupied (k : Nat) (frames : IntArray) (filled : Nat) (seen : List Int) : Prop where
  holds : ∃ xs, Holds frames xs ∧ xs.length = filled ∧ xs.Nodup ∧ xs ⊆ seen ∧ (filled < k → seen ⊆ xs)
  filled_le : filled ≤ k

theorem occupied_init (k : Nat) : Occupied k (IntArray.fill (-1)) 0 [] :=
  ⟨⟨[], holds_fill, rfl, List.nodup_nil, List.Subset.refl _, fun _ => List.Subset.refl _⟩, Nat.zero_le k⟩

section

variable {k filled filled' : Nat} {frames frames' : IntArray} {seen xs : List Int} {page : Int} {hit : Bool}

/-- A page is found in an occupied frame, and -1 in a free one as well. -/
theorem mem_frames (h : Holds frames xs) (hlen : xs.length ≤ k) (hk' : k ≤ maxFrames) (page : Int) :
    page ∈ frames.ints.take k ↔ page ∈ xs ∨ page = -1 ∧ xs.length < k := by
  rw [h.take hlen hk', List.mem_append, List.mem_replicate, and_comm (a := page = -1)]
  refine or_congr_right (and_congr_left fun _ => ?_)
  omega

/-- An access that does not hit a page which was not accessed keeps the frames as they are to be. -/
theorem Occupied.step (hk' : k ≤ maxFrames) (h : Occupied k frames filled seen)
    (hplace : Placement k page frames filled frames' filled' hit) (hhonest : hit = true → page ∈ seen) :
    Occupied k frames' filled' (seen ++ [page]) := by
  obtain ⟨⟨xs, hholds, rfl, hnodup, hxs, hall⟩, hle⟩ := h
  have hout : page ∉ frames.ints.take k → page ∉ xs := fun h hx => h ((mem_frames hholds hle hk' page).mpr (.inl hx))
  cases hplace with
  | found _ =>
    refine ⟨⟨xs, hholds, rfl, hnodup, fun x hx => List.mem_append_left _ (hxs hx), ?_⟩, hle⟩
    intro hfree
    refine List.append_subset.mpr ⟨hall hfree, ?_⟩
    intro x hx
    rw [List.mem_singleton.mp hx]
    exact hall hfree (hhonest rfl)
  | added hnot hfree =>
    refine ⟨⟨xs ++ [page], hholds.set_length (Nat.lt_of_lt_of_le hfree hk'), ?_, nodup_concat hnodup (hout hnot), ?_, ?_⟩, hfree⟩
    · rw [List.length_append, List.length_singleton]
    · exact List.append_subset.mpr ⟨fun x hx => List.mem_append_left _ (hxs hx), List.subset_append_right _ _⟩
    · intro _
      exact List.append_subset.mpr ⟨fun x hx => List.mem_append_left _ (hall hfree hx), List.subset_append_right _ _⟩
  | replaced i hnot hfull hi =>
    obtain ⟨us, x, vs, rfl, rfl⟩ := Cut.exists_of_lt (l := xs) (i := i) (by omega)
    have hlen : (us ++ page :: vs).length = (us ++ x :: vs).length := by simp
    have hperm : (us ++ page :: vs).Perm (page :: (us ++ vs)) := List.perm_middle
    have hrest : (us ++ vs).Sublist (us ++ x :: vs) := (List.sublist_cons_self x vs).append_left us
    refine ⟨⟨us ++ page :: vs, hholds.set_append, hlen, ?_, ?_, fun hfree => absurd hfree hfull⟩, hle⟩
    · rw [hperm.nodup_iff, List.nodup_cons]
      exact ⟨fun hmem => hout hnot (hrest.subset hmem), hnodup.sublist hrest⟩
    · refine Cut.forall_mem_replace (fun y hy => List.mem_append_left _ (hxs hy)) ?_
      exact List.mem_append_right _ List.mem_cons_self

/-- Only -1 is hit without having been accessed, and only while fewer than `k` pages were. -/
theorem Occupied.hit_iff (hk' : k ≤ maxFrames) (h : Occupied k frames filled seen)
    (hplace : Placement k page frames filled frames' filled' hit) (hnew : page ∉ seen) :
    hit = true ↔ page = -1 ∧ seen.toFinset.card < k := by
  obtain ⟨⟨xs, hholds, rfl, hnodup, hxs, hall⟩, hle⟩ := h
  have hcard : seen.toFinset.card < k ↔ xs.length < k := by
    have hsub : xs.toFinset ⊆ seen.toFinset := fun x hx => List.mem_toFinset.mpr (hxs (List.mem_toFinset.mp hx))
    have hfew := Finset.card_le_card hsub
    rw [List.toFinset_card_of_nodup hnodup] at hfew
    constructor
    · omega
    · intro hfree
      have hsub' : seen.toFinset ⊆ xs.toFinset := fun x hx => List.mem_toFinset.mpr (hall hfree (List.mem_toFinset.mp hx))
      have hmany := Finset.card_le_card hsub'
      rw [List.toFinset_card_of_nodup hnodup] at hmany
      omega
  have hmem := mem_frames hholds hle hk' page
  rw [or_iff_right (fun hx => hnew (hxs hx))] at hmem
  rw [hcard, ← hmem]
  cases hplace with
  | found h => exact iff_of_true rfl h
  | added h _ => exact iff_of_false Bool.false_ne_true h
  | replaced _ h _ _ => exact iff_of_false Bool.false_ne_true h

end

/-! ## Runs -/

section

variable {S : Type} {step : S → Int → S × Report} {frames : S → IntArray} {filled : S → Nat} {I : S → Prop} {s : S}
  {k : Nat} {pageSize : Int}

/-- Where each access places its page: the hits are honest if and only if page -1 comes late, and then the frames are as they are
to be. The induction is on the accesses, since an access after a false hit may be anything. -/
theorem honest_run (hk' : k ≤ maxFrames) (hI : I s) (hstep : ∀ s a, I s → I (step s a).1)
    (hpage : ∀ s a, (step s a).2.page = addressToPage a pageSize)
    (hplace : ∀ s a, I s → Placement k (addressToPage a pageSize) (frames s) (filled s) (frames (step s a).1)
      (filled (step s a).1) (step s a).2.hit) (hinit : Occupied k (frames s) (filled s) []) (refs : List Int) :
    (HonestHits ((Runs.trace step s refs).map (·.2)) ↔ MarkerLate k (pageString refs pageSize)) ∧
      (HonestHits ((Runs.trace step s refs).map (·.2)) →
        Occupied k (frames (Runs.final step s refs)) (filled (Runs.final step s refs)) (pageString refs pageSize)) := by
  induction refs using List.reverseRecOn with
  | nil => exact ⟨iff_of_true (by simp [HonestHits]) (by simp [MarkerLate, pageString]), fun _ => hinit⟩
  | append_singleton refs a ih =>
    obtain ⟨hiff, hoccupied⟩ := ih
    have hIrefs : I (Runs.final step s refs) :=
      Runs.final_invariant (P := fun _ => True) (fun s a _ => hstep s a) hI (fun _ _ => trivial)
    have hlast := hplace _ a hIrefs
    have hpages : pageString (refs ++ [a]) pageSize = pageString refs pageSize ++ [addressToPage a pageSize] := List.map_append
    have hreports := reports_page hpage s refs
    rw [Runs.trace_concat, List.map_append, List.map_singleton, Runs.final_concat, hpages]
    unfold HonestHits MarkerLate at *
    rw [Cut.forall_cut_concat, Cut.forall_cut_concat, ← hiff, hreports, hpage]
    refine ⟨and_congr_right fun hhonest => ?_, fun hhonest => (hoccupied hhonest.1).step hk' hlast hhonest.2⟩
    by_cases hseen : addressToPage a pageSize ∈ pageString refs pageSize
    · refine iff_of_true (fun _ => hseen) ?_
      intro hmarker hnot
      rw [hmarker] at hseen
      exact absurd hseen hnot
    · rw [(hoccupied hhonest).hit_iff hk' hlast hseen]
      constructor
      · intro h hmarker _
        by_contra hfew
        exact hseen (h ⟨hmarker, Nat.not_le.mp hfew⟩)
      · rintro h ⟨hmarker, hfew⟩
        rw [hmarker] at hseen
        exact absurd (h hmarker hseen) (Nat.not_le.mpr hfew)

/-- With honest hits, the faults are at least the distinct pages. -/
theorem card_le_faults (faults : S → Nat)
    (hcount : ∀ s a, faults (step s a).1 = faults s + if (!(step s a).2.hit) = true then 1 else 0) (hzero : faults s = 0)
    (hpage : ∀ s a, (step s a).2.page = addressToPage a pageSize) {refs : List Int}
    (h : HonestHits ((Runs.trace step s refs).map (·.2))) :
    (pageString refs pageSize).toFinset.card ≤ faults (Runs.final step s refs) := by
  have hpages := reports_page hpage s refs
  rw [Runs.final_count faults (fun r => !r.hit) hcount, hzero, Nat.zero_add, ← hpages]
  have hfaults : (Runs.trace step s refs).countP (fun e => !e.2.hit) =
      (loads (((Runs.trace step s refs).map (·.2)).map (fun r => (r.page, !r.hit)))).length := by
    rw [loads, List.length_map, ← List.countP_eq_length_filter, List.countP_map, List.countP_map]
    rfl
  rw [hfaults]
  generalize (Runs.trace step s refs).map (·.2) = reports at h ⊢
  have hloads : reports.map (·.page) ⊆ loads (reports.map (fun r => (r.page, !r.hit))) := by
    have hearlier : ∀ a p c, reports.map (fun r => (r.page, !r.hit)) = a ++ (p, false) :: c → p ∈ a.map (·.1) := by
      intro a p c heq
      obtain ⟨before, rest, rfl, rfl, hrest⟩ := List.map_eq_append_iff.mp heq
      obtain ⟨r, after, rfl, hr, -⟩ := List.map_eq_cons_iff.mp hrest
      obtain ⟨rfl, hhit⟩ := Prod.mk.inj hr
      rw [List.map_map]
      exact h before r after rfl (by simpa using hhit)
    have hsub := subset_loads hearlier
    rwa [List.map_map] at hsub
  calc (reports.map (·.page)).toFinset.card ≤ (loads (reports.map (fun r => (r.page, !r.hit)))).toFinset.card := by
        refine Finset.card_le_card ?_
        intro x hx
        exact List.mem_toFinset.mpr (hloads (List.mem_toFinset.mp hx))
    _ ≤ _ := List.toFinset_card_le _

end

/-! ## The two loops -/

theorem fifoStep_placement {k : Nat} (pageSize : Int) {s : FifoVars} (hs : s.ft.numFrames = k ∧ s.fifoQueueNext < k) (a : Int) :
    Placement k (addressToPage a pageSize) s.ft.frames s.filled (fifoStep k pageSize s a).1.ft.frames
      (fifoStep k pageSize s a).1.filled (fifoStep k pageSize s a).2.hit := by
  obtain ⟨hnum, hnext⟩ := hs
  unfold fifoStep
  cases hf : findPage s.ft (addressToPage a pageSize) with
  | some i =>
    simp only [hf]
    refine .found ?_
    by_contra hnot
    rw [findPage, hnum, (findIdx?_eq_none_iff _).mpr hnot] at hf
    exact absurd hf.symm (Option.some_ne_none i)
  | none =>
    have hnot : addressToPage a pageSize ∉ s.ft.frames.ints.take k := by
      rw [← hnum]
      exact (findIdx?_eq_none_iff _).mp hf
    by_cases hfree : s.filled < k
    · simp only [hf, if_pos hfree]
      exact .added hnot hfree
    · simp only [hf, if_neg hfree]
      exact .replaced _ hnot hfree hnext

theorem fifoStep_next {k : Nat} (pageSize : Int) {s : FifoVars} (hs : s.ft.numFrames = k ∧ s.fifoQueueNext < k) (a : Int) :
    (fifoStep k pageSize s a).1.ft.numFrames = k ∧ (fifoStep k pageSize s a).1.fifoQueueNext < k := by
  unfold fifoStep
  cases hf : findPage s.ft (addressToPage a pageSize) with
  | some i =>
    simp only [hf]
    exact hs
  | none =>
    by_cases hfree : s.filled < k
    · simp only [hf, if_pos hfree]
      exact hs
    · simp only [hf, if_neg hfree]
      exact ⟨hs.1, Nat.mod_lt _ (Nat.zero_lt_of_lt hs.2)⟩

theorem lruStep_placement {k : Nat} (hk : 1 ≤ k) (pageSize : Int) (s : LruVars) (a : Int) :
    Placement k (addressToPage a pageSize) s.frames s.filled (lruStep k pageSize s a).1.frames (lruStep k pageSize s a).1.filled
      (lruStep k pageSize s a).2.hit := by
  unfold lruStep
  cases hf : (s.frames.ints.take k).findIdx? (· == addressToPage a pageSize) with
  | some i =>
    simp only [hf]
    refine .found ?_
    by_contra hnot
    rw [(findIdx?_eq_none_iff _).mpr hnot] at hf
    exact absurd hf.symm (Option.some_ne_none i)
  | none =>
    have hnot := (findIdx?_eq_none_iff _).mp hf
    by_cases hfree : s.filled < k
    · simp only [hf, if_pos hfree]
      exact .added hnot hfree
    · simp only [hf, if_neg hfree]
      exact .replaced _ hnot hfree (lruVictim_least hk s.lastUsed).1

end NoFalseHitsAux

open NoFalseHitsAux

/-- For every reference string of ints, page size and number of frames `k`: every HIT is to a page accessed before, and the faults are
at least the distinct pages, if and only if the first access to page -1 finds no free frame. This holds of `run_fifo` and of
`run_lru`. -/
theorem honestHits_iff (k : Nat) (pageSize : Int) (refs : List Int) (hk : 1 ≤ k) (hk' : k ≤ maxFrames) :
    (HonestHits (fifoReports refs k pageSize) ∧ (pageString refs pageSize).toFinset.card ≤ (runFifo refs k pageSize).ft.pageFaults ↔
        MarkerLate k (pageString refs pageSize)) ∧
      (HonestHits (lruReports refs k pageSize) ∧ (pageString refs pageSize).toFinset.card ≤ (runLru refs k pageSize).pageFaults ↔
        MarkerLate k (pageString refs pageSize)) := by
  have hfifo := (honest_run (I := fun s : FifoVars => s.ft.numFrames = k ∧ s.fifoQueueNext < k) (s := FifoVars.init k) hk' ⟨rfl, hk⟩
    (fun s a hs => fifoStep_next pageSize hs a) (fifoStep_page k pageSize) (fun s a hs => fifoStep_placement pageSize hs a)
    (occupied_init k) refs).1
  have hlru := (honest_run (I := fun _ => True) (s := LruVars.init) hk' trivial (fun _ _ _ => trivial) (lruStep_page k pageSize)
    (fun s a _ => lruStep_placement hk pageSize s a) (occupied_init k) refs).1
  constructor
  · rw [← hfifo]
    refine and_iff_left_of_imp fun h => ?_
    exact card_le_faults (fun s => s.ft.pageFaults) (fun s a => (fifoStep_counters k pageSize s a).1) rfl (fifoStep_page k pageSize) h
  · rw [← hlru]
    refine and_iff_left_of_imp fun h => ?_
    exact card_le_faults LruVars.pageFaults (fun s a => (lruStep_counters k pageSize s a).1) rfl (lruStep_page k pageSize) h

/-- Address -4096 with pages of 4096 bytes: the first access of all is reported as a HIT, by both. -/
theorem hits_not_honest : ¬HonestHits (fifoReports [-4096] 3 4096) ∧ ¬HonestHits (lruReports [-4096] 3 4096) := by
  constructor
  · intro h
    exact absurd (h [] _ [] rfl rfl) List.not_mem_nil
  · intro h
    exact absurd (h [] _ [] rfl rfl) List.not_mem_nil

/-- Addresses below zero whose pages are not -1. -/
theorem honestHits_iff_run :
    HonestHits (fifoReports [-8192, -1, -8192] 3 4096) ∧ HonestHits (lruReports [-8192, -1, -8192] 3 4096) := by
  obtain ⟨hfifo, hlru⟩ := honestHits_iff 3 4096 [-8192, -1, -8192] (by decide) (by decide)
  have hlate : MarkerLate 3 (pageString [-8192, -1, -8192] 4096) := by
    have hpages : -1 ∉ pageString [-8192, -1, -8192] 4096 := by decide
    rintro before page after hcut rfl
    rw [hcut] at hpages
    exact absurd (List.mem_append_right before List.mem_cons_self) hpages
  exact ⟨(hfifo.mpr hlate).1, (hlru.mpr hlate).1⟩

end OsSecurity.Paging
