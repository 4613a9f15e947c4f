import OsSecurity.Lemmas.Paging

/-!
# LRU

`dedup` keeps the last occurrence of each page, so the `dedup` of a page string is its distinct pages in the order of their last
access, and the end of it those accessed most recently.
-/

namespace OsSecurity.Paging

open DemandPaging SimulatorAux

namespace LruAux

variable {k : Nat} {pageSize : Int} {refs : List Int}

/-- The last `k` different pages, when there are fewer. -/
theorem rtake_min_card (ps : List Int) : ps.dedup.rtake (min k ps.toFinset.card) = ps.dedup.rtake k := by
  rw [List.card_toFinset, List.rtake, List.rtake]
  congr 1
  omega

/-- The frames hold distinct pages, and these are the ones accessed most recently. -/
theorem resident_nodup (hk : 1 ≤ k) (hk' : k ≤ maxFrames) (hp : 1 ≤ pageSize) (h : ∀ a ∈ refs, 0 ≤ a) :
    (residentPages (runLru refs k pageSize).frames k).Nodup := by
  rw [(lru_resident hk hk' hp h).nodup_iff]
  exact (List.nodup_dedup _).sublist (rtake_suffix k _).sublist

/-- A page is resident when it is among the last `k` different ones. -/
theorem mem_resident_iff (hk : 1 ≤ k) (hk' : k ≤ maxFrames) (hp : 1 ≤ pageSize) (h : ∀ a ∈ refs, 0 ≤ a) (page : Int) :
    page ∈ residentPages (runLru refs k pageSize).frames k ↔ page ∈ (pageString refs pageSize).dedup.rtake k :=
  (lru_resident hk hk' hp h).mem_iff

end LruAux

/-- For every reference string of non-negative addresses, page size and number of frames `k`: after each prefix the frames hold
distinct pages, the `min(k, d)` most recently accessed of the `d` distinct pages of the prefix; an access is a HIT exactly when its
page was accessed before and fewer than `k` distinct pages since; and the hits and faults are the accesses. -/
theorem lru_meets_spec (k : Nat) (pageSize : Int) (refs : List Int) (hk : 1 ≤ k) (hk' : k ≤ maxFrames) (hp : 1 ≤ pageSize)
    (h : ∀ a ∈ refs, 0 ≤ a) :
    (∀ as bs, refs = as ++ bs →
        (residentPages (runLru as k pageSize).frames k).Nodup ∧
          (residentPages (runLru as k pageSize).frames k).Perm
            ((pageString as pageSize).dedup.rtake (min k (pageString as pageSize).toFinset.card))) ∧
      (∀ as a bs, refs = as ++ a :: bs → ∃ r, (lruReports refs k pageSize)[as.length]? = some r ∧
        (r.hit = true ↔ ∃ before since, pageString as pageSize = before ++ addressToPage a pageSize :: since ∧
          addressToPage a pageSize ∉ since ∧ since.toFinset.card < k)) ∧
      (runLru refs k pageSize).pageHits + (runLru refs k pageSize).pageFaults = refs.length := by
  refine ⟨?_, ?_, lru_total refs k pageSize⟩
  · rintro as bs rfl
    have has : ∀ a ∈ as, 0 ≤ a := fun a ha => h a (List.mem_append_left bs ha)
    refine ⟨LruAux.resident_nodup hk hk' hp has, ?_⟩
    rw [LruAux.rtake_min_card]
    exact lru_resident hk hk' hp has
  · rintro as a bs rfl
    have has : ∀ a ∈ as, 0 ≤ a := fun b hb => h b (List.mem_append_left _ hb)
    have ha : 0 ≤ a := h a (List.mem_append_right as List.mem_cons_self)
    refine ⟨_, lruReports_getElem? as a bs k pageSize, ?_⟩
    rw [lru_hit_iff hk hk' hp has ha, mem_rtake_dedup_iff]

/-- The accesses to the pages 1, 2, 3, 1 of four bytes, with two frames. -/
theorem lru_meets_spec_run :
    (residentPages (runLru [4, 8, 12, 4] 2 4).frames 2).Perm
        ((pageString [4, 8, 12, 4] 4).dedup.rtake (min 2 (pageString [4, 8, 12, 4] 4).toFinset.card)) ∧
      (runLru [4, 8, 12, 4] 2 4).pageHits + (runLru [4, 8, 12, 4] 2 4).pageFaults = 4 := by
  obtain ⟨hframes, -, htotal⟩ := lru_meets_spec 2 4 [4, 8, 12, 4] (by decide) (by decide) (by decide) (by decide)
  exact ⟨(hframes [4, 8, 12, 4] [] rfl).2, htotal⟩

/-! ## No anomaly -/

namespace LruAux

variable {k k' : Nat} {pageSize : Int} {refs : List Int}

/-- More frames hold what fewer hold. -/
theorem resident_subset (hk : 1 ≤ k) (hkk' : k ≤ k') (hk' : k' ≤ maxFrames) (hp : 1 ≤ pageSize) (h : ∀ a ∈ refs, 0 ≤ a) :
    residentPages (runLru refs k pageSize).frames k ⊆ residentPages (runLru refs k' pageSize).frames k' := by
  intro page hpage
  rw [mem_resident_iff hk (Nat.le_trans hkk' hk') hp h] at hpage
  rw [mem_resident_iff (Nat.le_trans hk hkk') hk' hp h]
  exact (rtake_suffix_rtake hkk' _).subset hpage

/-- A hit with fewer frames is one with more. -/
theorem hit_of_hit (hk : 1 ≤ k) (hkk' : k ≤ k') (hk' : k' ≤ maxFrames) (hp : 1 ≤ pageSize) (h : ∀ a ∈ refs, 0 ≤ a)
    {address : Int} (ha : 0 ≤ address) (hhit : (lruStep k pageSize (runLru refs k pageSize) address).2.hit = true) :
    (lruStep k' pageSize (runLru refs k' pageSize) address).2.hit = true := by
  rw [lru_hit_iff hk (Nat.le_trans hkk' hk') hp h ha] at hhit
  rw [lru_hit_iff (Nat.le_trans hk hkk') hk' hp h ha]
  exact (rtake_suffix_rtake hkk' _).subset hhit

/-- More frames do not fault more. -/
theorem faults_le (hk : 1 ≤ k) (hkk' : k ≤ k') (hk' : k' ≤ maxFrames) (hp : 1 ≤ pageSize) (h : ∀ a ∈ refs, 0 ≤ a) :
    (runLru refs k' pageSize).pageFaults ≤ (runLru refs k pageSize).pageFaults := by
  induction refs using List.reverseRecOn with
  | nil => exact Nat.le_refl _
  | append_singleton refs a ih =>
    have hrefs : ∀ b ∈ refs, 0 ≤ b := fun b hb => h b (List.mem_append_left _ hb)
    have ha : 0 ≤ a := h a (List.mem_append_right refs List.mem_cons_self)
    have hfewer := (lruStep_counters k pageSize (runLru refs k pageSize) a).1
    have hmore := (lruStep_counters k' pageSize (runLru refs k' pageSize) a).1
    have hhit := hit_of_hit hk hkk' hk' hp hrefs ha
    rw [runLru, runLru, Runs.final_concat, Runs.final_concat]
    unfold runLru at hfewer hmore hhit ih
    rw [hfewer, hmore]
    refine Nat.add_le_add (ih hrefs) ?_
    cases hr : (lruStep k pageSize (Runs.final (lruStep k pageSize) LruVars.init refs) a).2.hit with
    | true => rw [hhit hr]
    | false => split <;> simp

end LruAux

/-- LRU with more frames holds all that it holds with fewer, after every prefix; so each HIT with fewer frames is a HIT with more,
and the faults are no more. -/
theorem lru_inclusion (k k' : Nat) (pageSize : Int) (refs : List Int) (hk : 1 ≤ k) (hkk' : k ≤ k') (hk' : k' ≤ maxFrames)
    (hp : 1 ≤ pageSize) (h : ∀ a ∈ refs, 0 ≤ a) :
    (∀ as bs, refs = as ++ bs →
        residentPages (runLru as k pageSize).frames k ⊆ residentPages (runLru as k' pageSize).frames k') ∧
      (∀ as a bs, refs = as ++ a :: bs → ∃ r r', (lruReports refs k pageSize)[as.length]? = some r ∧
        (lruReports refs k' pageSize)[as.length]? = some r' ∧ (r.hit = true → r'.hit = true)) ∧
      (runLru refs k' pageSize).pageFaults ≤ (runLru refs k pageSize).pageFaults := by
  refine ⟨?_, ?_, LruAux.faults_le hk hkk' hk' hp h⟩
  · rintro as bs rfl
    exact LruAux.resident_subset hk hkk' hk' hp (fun a ha => h a (List.mem_append_left bs ha))
  · rintro as a bs rfl
    refine ⟨_, _, lruReports_getElem? as a bs k pageSize, lruReports_getElem? as a bs k' pageSize, ?_⟩
    exact LruAux.hit_of_hit hk hkk' hk' hp (fun b hb => h b (List.mem_append_left _ hb))
      (h a (List.mem_append_right as List.mem_cons_self))

/-- The pages 1, 2, 3, 1 with two and with three frames: the last access is a hit with three only. -/
theorem lru_inclusion_run :
    residentPages (runLru [4, 8, 12, 4] 2 4).frames 2 ⊆ residentPages (runLru [4, 8, 12, 4] 3 4).frames 3 ∧
      (runLru [4, 8, 12, 4] 3 4).pageFaults ≤ (runLru [4, 8, 12, 4] 2 4).pageFaults := by
  obtain ⟨hframes, -, hfaults⟩ :=
    lru_inclusion 2 3 4 [4, 8, 12, 4] (by decide) (by decide) (by decide) (by decide) (by decide)
  exact ⟨hframes [4, 8, 12, 4] [] rfl, hfaults⟩

end OsSecurity.Paging
