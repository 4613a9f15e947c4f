import OsSecurity.Paging.Simulator
import OsSecurity.Lib.DemandPaging
import OsSecurity.Lib.Cut
import Mathlib.Data.List.GetD
import Mathlib.Data.List.Rotate

/-!
# Helpers about the paging simulator: the arrays simulate the policies

The frames hold the resident pages in the first places and -1 behind them (`Holds`). FIFO's queue is these pages read around from
`fifo_queue_next`; LRU's recency order is a permutation of the frames and their `last_used` by increasing `last_used`.
-/

namespace OsSecurity.Paging

open DemandPaging

/-- The pages in the frames. -/
def residentPages (frames : IntArray) (numFrames : Nat) : List Int := (frames.ints.take numFrames).filter (· ≠ -1)

/-- The pages that the faults of a run loaded. -/
def loadedPages (reports : List Report) : List Int := (reports.filter (!·.hit)).map (·.page)

/-- The pages of the addresses of a reference string. -/
def pageString (refs : List Int) (pageSize : Int) : List Int := refs.map (addressToPage · pageSize)

namespace SimulatorAux

/-! ## The frames -/

/-- The array holds `xs` in the first places, and -1 in the others. -/
def Holds (a : IntArray) (xs : List Int) : Prop := a.ints = xs ++ List.replicate (maxFrames - xs.length) (-1)

variable {a : IntArray} {xs : List Int} {k : Nat}

@[simp] theorem ints_set (a : IntArray) (i : Nat) (x : Int) : (a.set i x).ints = a.ints.set i x := rfl

/-- The frames before the first access. -/
theorem holds_fill : Holds (IntArray.fill (-1)) [] := rfl

/-- A place that is taken holds its page. -/
theorem Holds.get (h : Holds a xs) {i : Nat} (hi : i < xs.length) : a.get i = xs[i] := by
  rw [IntArray.get, h, List.getD_append _ _ _ _ hi, List.getD_eq_getElem _ _ hi]

/-- The place behind `us` holds the next page. -/
theorem Holds.get_length {x : Int} {us vs : List Int} (h : Holds a (us ++ x :: vs)) : a.get us.length = x := by
  rw [IntArray.get, h, List.append_assoc, List.getD_append_right _ _ _ _ (Nat.le_refl _), Nat.sub_self]
  rfl

/-- A page is replaced in its place. -/
theorem Holds.set_append {x y : Int} {us vs : List Int} (h : Holds a (us ++ x :: vs)) :
    Holds (a.set us.length y) (us ++ y :: vs) := by
  unfold Holds
  rw [ints_set, h, List.append_assoc, List.cons_append, Cut.set_append, List.append_assoc, List.cons_append]
  simp only [List.length_append, List.length_cons]

/-- A page is put into the first empty frame. -/
theorem Holds.set_length {x : Int} (h : Holds a xs) (hlen : xs.length < maxFrames) : Holds (a.set xs.length x) (xs ++ [x]) := by
  unfold Holds
  obtain ⟨n, hn⟩ := Nat.exists_eq_add_of_lt hlen
  have hfree : maxFrames - xs.length = n + 1 := by omega
  have hfree' : maxFrames - (xs ++ [x]).length = n := by
    rw [List.length_append, List.length_singleton]
    omega
  rw [ints_set, h, hfree, hfree', List.replicate_succ, Cut.set_append, List.append_assoc]
  rfl

/-- The first `k` frames: the pages, and -1 in those that are empty. -/
theorem Holds.take (h : Holds a xs) (hlen : xs.length ≤ k) (hk : k ≤ maxFrames) :
    a.ints.take k = xs ++ List.replicate (k - xs.length) (-1) := by
  rw [h, List.take_append, List.take_of_length_le hlen, List.take_replicate, Nat.min_eq_left (Nat.sub_le_sub_right hk _)]

/-- The frames that are taken. -/
theorem Holds.take_length (h : Holds a xs) : a.ints.take xs.length = xs := by
  rw [h, List.take_left]

section

variable (h : Holds a xs) (hlen : xs.length ≤ k) (hk : k ≤ maxFrames) (hpos : ∀ x ∈ xs, 0 ≤ x)

include h hlen hk

/-- The search over the frames finds a page in its place. -/
theorem Holds.findIdx?_eq {page : Int} (hpage : 0 ≤ page) :
    (a.ints.take k).findIdx? (· == page) = xs.findIdx? (· == page) := by
  have hfree : (List.replicate (k - xs.length) (-1 : Int)).findIdx? (· == page) = none := by
    rw [List.findIdx?_eq_none_iff]
    intro x hx
    rw [List.eq_of_mem_replicate hx, beq_eq_false_iff_ne]
    omega
  rw [h.take hlen hk, List.findIdx?_append, hfree, Option.map_none, Option.or_none]

include hpos

/-- The resident pages are those that the frames hold. -/
theorem Holds.residentPages_eq : residentPages a k = xs := by
  unfold residentPages
  have hxs : xs.filter (· ≠ -1) = xs := by
    rw [List.filter_eq_self]
    intro x hx
    have hx' := hpos x hx
    rw [decide_eq_true_eq]
    omega
  have hfree : (List.replicate (k - xs.length) (-1 : Int)).filter (· ≠ -1) = [] := by
    rw [List.filter_replicate]
    rfl
  rw [h.take hlen hk, List.filter_append, hxs, hfree, List.append_nil]

/-- The occupied frames are the first ones. -/
theorem Holds.get_ne_iff {i : Nat} (hi : i < k) : a.get i ≠ -1 ↔ i < xs.length := by
  constructor
  · intro hne
    by_contra hge
    have hrest : i - xs.length < maxFrames - xs.length := by omega
    refine hne ?_
    rw [IntArray.get, h, List.getD_append_right _ _ _ _ (Nat.not_lt.mp hge), List.getD_replicate _ hrest]
  · intro hlt
    have hx := hpos _ (List.getElem_mem hlt)
    rw [h.get hlt]
    omega

end

/-- The page of an address that is not negative is not the -1 of an empty frame. -/
theorem page_nonneg {address pageSize : Int} (ha : 0 ≤ address) (hp : 1 ≤ pageSize) : 0 ≤ addressToPage address pageSize :=
  Int.tdiv_nonneg ha (Int.le_trans (by decide) hp)

/-- The search for a page fails when it is in no frame. -/
theorem findIdx?_eq_none_iff (page : Int) : xs.findIdx? (· == page) = none ↔ page ∉ xs := by
  rw [List.findIdx?_eq_none_iff]
  constructor
  · intro h hmem
    exact absurd (h page hmem) (by simp)
  · intro h x hx
    rw [beq_eq_false_iff_ne]
    rintro rfl
    exact h hx

/-- The search for a page tells a place that holds it. -/
theorem exists_of_findIdx? {page : Int} {i : Nat} (h : xs.findIdx? (· == page) = some i) :
    ∃ us vs, xs = us ++ page :: vs ∧ us.length = i := by
  obtain ⟨us, x, vs, hxs, hlen, hx, -⟩ := Cut.exists_of_findIdx? h
  exact ⟨us, vs, by rw [hxs, eq_of_beq hx], hlen⟩

/-! ## FIFO -/

/-- `run_fifo`'s variables, where the queue of the policy is `q`: the frames read around from `fifo_queue_next`. -/
structure FifoSim (k : Nat) (s : FifoVars) (q : List Int) : Prop where
  numFrames : s.ft.numFrames = k
  holds : ∃ xs, Holds s.ft.frames xs ∧ xs.length = s.filled ∧ (∀ x ∈ xs, 0 ≤ x) ∧ xs.rotate s.fifoQueueNext = q
  filled_le : s.filled ≤ k
  next_lt : s.fifoQueueNext < k
  next_eq : s.filled < k → s.fifoQueueNext = 0

/-- `run_fifo` begins with an empty queue. -/
theorem fifoSim_init (hk : 1 ≤ k) : FifoSim k (FifoVars.init k) [] :=
  ⟨rfl, ⟨[], holds_fill, rfl, by simp, rfl⟩, Nat.zero_le k, hk, fun _ => rfl⟩

/-- The queue is as long as the frames are filled. -/
theorem FifoSim.length_eq {s : FifoVars} {q : List Int} (h : FifoSim k s q) : q.length = s.filled := by
  obtain ⟨xs, -, hlen, -, rfl⟩ := h.holds
  rw [List.length_rotate, hlen]

/-- An access of `run_fifo` is one of the policy. -/
theorem FifoSim.step (hk : k ≤ maxFrames) {pageSize : Int} (hp : 1 ≤ pageSize) (s : FifoVars) (q : List Int) (address : Int)
    (ha : 0 ≤ address) (h : FifoSim k s q) :
    FifoSim k (fifoStep k pageSize s address).1 (access (fifo k) q (addressToPage address pageSize)).1 ∧
      (!(fifoStep k pageSize s address).2.hit) = (access (fifo k) q (addressToPage address pageSize)).2 := by
  obtain ⟨hnum, ⟨xs, hholds, hlen, hpos, hq⟩, hfilled, hnext, hzero⟩ := id h
  have hpage := page_nonneg ha hp
  have hxsk : xs.length ≤ k := hlen ▸ hfilled
  have hmem : ∀ x, x ∈ q ↔ x ∈ xs := fun x => by rw [← hq, List.mem_rotate]
  have hfind : findPage s.ft (addressToPage address pageSize) = xs.findIdx? (· == addressToPage address pageSize) := by
    rw [findPage, hnum, hholds.findIdx?_eq hxsk hk hpage]
  unfold fifoStep
  generalize addressToPage address pageSize = page at hpage hfind ⊢
  cases hf : xs.findIdx? (· == page) with
  | some i =>
    simp only [hfind, hf]
    obtain ⟨us, vs, hxs, -⟩ := exists_of_findIdx? hf
    have hin : page ∈ q := (hmem page).mpr (by simp [hxs])
    rw [access_fifo_of_mem hin]
    exact ⟨⟨hnum, ⟨xs, hholds, hlen, hpos, hq⟩, hfilled, hnext, hzero⟩, rfl⟩
  | none =>
    have hout : page ∉ q := by
      rw [hmem]
      exact (findIdx?_eq_none_iff page).mp hf
    simp only [hfind, hf]
    rw [access_fifo_of_notMem hout, load, h.length_eq]
    by_cases hfree : s.filled < k
    · have hxs : xs = q := by rw [← hq, hzero hfree, List.rotate_zero]
      rw [if_pos hfree, if_pos hfree]
      refine ⟨⟨hnum, ⟨xs ++ [page], ?_, ?_, ?_, ?_⟩, hfree, hnext, fun _ => hzero hfree⟩, rfl⟩
      · rw [← hlen]
        exact hholds.set_length (Nat.lt_of_lt_of_le (hlen ▸ hfree) hk)
      · rw [List.length_append, hlen, List.length_singleton]
      · simpa [or_imp, forall_and, hpage] using hpos
      · rw [hzero hfree, List.rotate_zero, hxs]
    · -- the frames are full, and the oldest page is the one at `fifo_queue_next`
      have hfull : s.filled = k := Nat.le_antisymm hfilled (Nat.not_lt.mp hfree)
      obtain ⟨us, x, vs, rfl, hus⟩ := Cut.exists_of_lt (l := xs) (i := s.fifoQueueNext) (by rw [hlen, hfull]; exact hnext)
      rw [if_neg hfree, if_neg hfree]
      have hlen' : (us ++ page :: vs).length = k := by
        rw [← hfull, ← hlen]
        simp
      refine ⟨⟨hnum, ⟨us ++ page :: vs, ?_, ?_, ?_, ?_⟩, hfilled, Nat.mod_lt _ (Nat.zero_lt_of_lt hnext),
        fun hlt => absurd hlt hfree⟩, rfl⟩
      · rw [← hus]
        exact hholds.set_append
      · rw [hlen', hfull]
      · exact Cut.forall_mem_replace hpos hpage
      · have hrot : (us ++ page :: vs).rotate ((s.fifoQueueNext + 1) % k) = vs ++ (us ++ [page]) := by
          have hone : us.length + 1 = (us ++ [page]).length := by rw [List.length_append, List.length_singleton]
          rw [← hlen', List.rotate_mod, List.append_cons, ← hus, hone, List.rotate_append_length_eq]
        rw [← hus, List.rotate_append_length_eq] at hq
        rw [hrot, ← hq, List.cons_append, List.tail_cons, List.append_assoc]

/-! ## LRU -/

/-- The loop that looks for the smallest `last_used` ends at an index where it is least. -/
theorem foldl_least (g : Nat → Int) (v : Nat) (fs : List Nat) :
    fs.foldl (fun victim f => if g f < g victim then f else victim) v ∈ v :: fs ∧
      ∀ f ∈ v :: fs, g (fs.foldl (fun victim f => if g f < g victim then f else victim) v) ≤ g f := by
  induction fs generalizing v with
  | nil => simp
  | cons f fs ih =>
    rw [List.foldl_cons]
    obtain ⟨hmem, hle⟩ := ih (if g f < g v then f else v)
    have hfirst : g (if g f < g v then f else v) ≤ g v ∧ g (if g f < g v then f else v) ≤ g f := by
      split <;> omega
    have hleast := hle _ List.mem_cons_self
    constructor
    · rcases List.mem_cons.mp hmem with h | h
      · rw [h]
        split <;> simp
      · exact List.mem_cons_of_mem v (List.mem_cons_of_mem f h)
    · intro i hi
      rcases List.mem_cons.mp hi with rfl | hi
      · exact Int.le_trans hleast hfirst.1
      · rcases List.mem_cons.mp hi with rfl | hi
        · exact Int.le_trans hleast hfirst.2
        · exact hle i (List.mem_cons_of_mem _ hi)

/-- The loop for the least recently used page goes through all frames. -/
theorem mem_frames_iff (hk : 1 ≤ k) (i : Nat) : i ∈ 0 :: List.range' 1 (k - 1) ↔ i < k := by
  rw [List.mem_cons, List.mem_range'_1]
  omega

/-- The victim is a frame whose `last_used` is least. -/
theorem lruVictim_least (hk : 1 ≤ k) (lastUsed : IntArray) :
    lruVictim lastUsed k < k ∧ ∀ f < k, lastUsed.get (lruVictim lastUsed k) ≤ lastUsed.get f := by
  obtain ⟨hmem, hle⟩ := foldl_least lastUsed.get 0 (List.range' 1 (k - 1))
  exact ⟨(mem_frames_iff hk _).mp hmem, fun f hf => hle f ((mem_frames_iff hk f).mpr hf)⟩

/-- The frames in use, each as the page in it and its `last_used`. -/
structure Cells (frames lastUsed : IntArray) (filled : Nat) (cells : List (Int × Int)) : Prop where
  frames : Holds frames (cells.map (·.1))
  lastUsed : Holds lastUsed (cells.map (·.2))
  length_eq : cells.length = filled
  page_nonneg : ∀ c ∈ cells, 0 ≤ c.1

/-- `order` is the cells by increasing `last_used`, all before the clock, and `q` its pages. -/
structure Recency (cells order : List (Int × Int)) (clock : Int) (q : List Int) : Prop where
  perm : order.Perm cells
  pages : order.map (·.1) = q
  sorted : order.Pairwise (·.2 < ·.2)
  lt_clock : ∀ c ∈ order, c.2 < clock

/-- `run_lru`'s variables, where the recency order of the policy is `q`. -/
structure LruSim (k : Nat) (s : LruVars) (q : List Int) : Prop where
  cells : ∃ cells order, Cells s.frames s.lastUsed s.filled cells ∧ Recency cells order s.clock q
  nodup : q.Nodup
  filled_le : s.filled ≤ k

/-- `run_lru` begins with an empty queue. -/
theorem lruSim_init : LruSim k LruVars.init [] :=
  ⟨⟨[], [], ⟨holds_fill, holds_fill, rfl, by simp⟩, ⟨List.Perm.refl _, rfl, List.Pairwise.nil, by simp⟩⟩, List.nodup_nil,
    Nat.zero_le k⟩

section

variable {frames lastUsed : IntArray} {filled : Nat} {cells order us vs : List (Int × Int)} {c : Int × Int}
  {page clock : Int} {q : List Int}

/-- The cell of a page that goes on with a new time. -/
theorem Cells.touch {t : Int} (h : Cells frames lastUsed filled (us ++ (page, t) :: vs)) :
    Cells frames (lastUsed.set us.length clock) filled (us ++ (page, clock) :: vs) := by
  obtain ⟨hframes, hused, hlen, hpos⟩ := h
  rw [List.map_append, List.map_cons] at hframes hused
  have hpage : 0 ≤ page := hpos _ (List.mem_append_right us List.mem_cons_self)
  refine ⟨?_, ?_, ?_, Cut.forall_mem_replace hpos hpage⟩
  · rw [List.map_append, List.map_cons]
    exact hframes
  · rw [List.map_append, List.map_cons, ← List.length_map (·.2)]
    exact hused.set_append
  · rw [← hlen, List.length_append, List.length_append, List.length_cons, List.length_cons]

/-- The cell of a page that is replaced. -/
theorem Cells.replace (h : Cells frames lastUsed filled (us ++ c :: vs)) (hpage : 0 ≤ page) :
    Cells (frames.set us.length page) (lastUsed.set us.length clock) filled (us ++ (page, clock) :: vs) := by
  obtain ⟨hframes, hused, hlen, hpos⟩ := h
  rw [List.map_append, List.map_cons] at hframes hused
  refine ⟨?_, ?_, ?_, Cut.forall_mem_replace hpos hpage⟩
  · rw [List.map_append, List.map_cons, ← List.length_map (·.1)]
    exact hframes.set_append
  · rw [List.map_append, List.map_cons, ← List.length_map (·.2)]
    exact hused.set_append
  · rw [← hlen, List.length_append, List.length_append, List.length_cons, List.length_cons]

/-- The first free cell. -/
theorem Cells.add (h : Cells frames lastUsed filled cells) (hfree : filled < maxFrames) (hpage : 0 ≤ page) :
    Cells (frames.set filled page) (lastUsed.set filled clock) (filled + 1) (cells ++ [(page, clock)]) := by
  obtain ⟨hframes, hused, hlen, hpos⟩ := h
  refine ⟨?_, ?_, ?_, ?_⟩
  · rw [List.map_append, ← hlen, ← List.length_map (·.1)]
    exact hframes.set_length (by rwa [List.length_map, hlen])
  · rw [List.map_append, ← hlen, ← List.length_map (·.2)]
    exact hused.set_length (by rwa [List.length_map, hlen])
  · rw [List.length_append, hlen, List.length_singleton]
  · intro e he
    rcases List.mem_append.mp he with he | he
    · exact hpos e he
    · rw [List.mem_singleton.mp he]
      exact hpage

/-- The queue has the pages of the frames. -/
theorem Recency.mem_iff (h : Recency cells order clock q) (p : Int) : p ∈ q ↔ p ∈ cells.map (·.1) := by
  rw [← h.pages, (h.perm.map (·.1)).mem_iff]

/-- The queue is as long as the frames are filled. -/
theorem Recency.length_eq (h : Recency cells order clock q) : q.length = cells.length := by
  rw [← h.pages, List.length_map, h.perm.length_eq]

/-- The cell of a page is in the recency order, and both go on without it. -/
theorem Recency.exists_cut (h : Recency (us ++ c :: vs) order clock q) :
    ∃ before after, order = before ++ c :: after ∧ (before ++ after).Perm (us ++ vs) := by
  have hmem : c ∈ order := h.perm.mem_iff.mpr (List.mem_append_right us List.mem_cons_self)
  obtain ⟨before, after, rfl⟩ := List.append_of_mem hmem
  exact ⟨before, after, rfl, (List.perm_cons c).mp ((List.perm_middle.symm.trans h.perm).trans List.perm_middle)⟩

/-- A cell that is accessed now comes last. -/
theorem Recency.concat {rest : List (Int × Int)} (h : Recency cells order clock q) (page : Int) (hsub : rest.Sublist order)
    (hcells : rest.Perm (us ++ vs)) :
    Recency (us ++ (page, clock) :: vs) (rest ++ [(page, clock)]) (clock + 1) (rest.map (·.1) ++ [page]) := by
  have hlt : ∀ e ∈ rest, e.2 < clock := fun e he => h.lt_clock e (hsub.subset he)
  refine ⟨?_, ?_, ?_, ?_⟩
  · exact ((List.perm_append_singleton _ _).trans (hcells.cons _)).trans List.perm_middle.symm
  · rw [List.map_append]
    rfl
  · refine List.pairwise_append.mpr ⟨h.sorted.sublist hsub, List.pairwise_singleton _ _, ?_⟩
    intro e he e' he'
    rw [List.mem_singleton.mp he']
    exact hlt e he
  · intro e he
    rcases List.mem_append.mp he with he | he
    · exact Int.lt_trans (hlt e he) (Int.lt_succ clock)
    · rw [List.mem_singleton.mp he]
      exact Int.lt_succ clock

/-- The cell whose `last_used` is least is the first of the recency order. -/
theorem Recency.victim (h : Recency (us ++ c :: vs) order clock q) (hcells : Cells frames lastUsed filled (us ++ c :: vs))
    (hleast : ∀ f < (us ++ c :: vs).length, lastUsed.get us.length ≤ lastUsed.get f) : ∃ after, order = c :: after := by
  obtain ⟨before, after, rfl, -⟩ := h.exists_cut
  cases before with
  | nil => exact ⟨after, rfl⟩
  | cons e before =>
    -- the first of the order is in some frame, whose `last_used` is not below the victim's
    have hlt : e.2 < c.2 := (List.pairwise_cons.mp h.sorted).1 c (List.mem_append_right before List.mem_cons_self)
    have hmem : e ∈ us ++ c :: vs := h.perm.mem_iff.mp List.mem_cons_self
    obtain ⟨us', vs', hcut⟩ := List.append_of_mem hmem
    have hle := hleast us'.length (by rw [hcut]; simp)
    have hused := hcells.lastUsed
    have hvictim : lastUsed.get us.length = c.2 := by
      rw [List.map_append, List.map_cons] at hused
      simpa using hused.get_length
    have hfirst : lastUsed.get us'.length = e.2 := by
      rw [hcut, List.map_append, List.map_cons] at hused
      simpa using hused.get_length
    omega

end

/-- An access of `run_lru` is one of the policy. -/
theorem LruSim.step (hk : 1 ≤ k) (hk' : k ≤ maxFrames) {pageSize : Int} (hp : 1 ≤ pageSize) (s : LruVars) (q : List Int)
    (address : Int) (ha : 0 ≤ address) (h : LruSim k s q) :
    LruSim k (lruStep k pageSize s address).1 (access (lru k) q (addressToPage address pageSize)).1 ∧
      (!(lruStep k pageSize s address).2.hit) = (access (lru k) q (addressToPage address pageSize)).2 := by
  obtain ⟨⟨cells, order, hcells, hrec⟩, hnodup, hfilled⟩ := h
  have hpage := page_nonneg ha hp
  have hlen : (cells.map (·.1)).length ≤ k := by rwa [List.length_map, hcells.length_eq]
  have hfind := hcells.frames.findIdx?_eq hlen hk' hpage
  have hnext := lru_nodup (k := k) hnodup (addressToPage address pageSize)
  unfold lruStep
  generalize addressToPage address pageSize = page at hpage hfind hnext ⊢
  cases hf : (cells.map (·.1)).findIdx? (· == page) with
  | some i =>
    have hf' := hf
    rw [List.findIdx?_map] at hf'
    obtain ⟨us, ⟨p, t⟩, vs, rfl, rfl, hpt, -⟩ := Cut.exists_of_findIdx? hf'
    obtain rfl : p = page := eq_of_beq hpt
    obtain ⟨before, after, rfl, hperm⟩ := hrec.exists_cut
    have hin : p ∈ q := (hrec.mem_iff p).mpr (by simp)
    have herase : q.erase p = (before ++ after).map (·.1) := by
      rw [← hrec.pages, List.map_append, List.map_cons] at hnodup ⊢
      have hbefore : p ∉ before.map (·.1) := fun h => (List.nodup_append.mp hnodup).2.2 p h p List.mem_cons_self rfl
      rw [List.erase_append_right _ hbefore, List.erase_cons_head, List.map_append]
    rw [lru, if_pos hin] at hnext
    simp only [hfind, hf]
    have hconcat := hrec.concat p ((List.sublist_cons_self _ after).append_left before) hperm
    rw [← herase] at hconcat
    rw [access_lru_of_mem hin]
    exact ⟨⟨⟨_, _, hcells.touch, hconcat⟩, hnext, hfilled⟩, rfl⟩
  | none =>
    have hout : page ∉ q := by
      rw [hrec.mem_iff]
      exact (findIdx?_eq_none_iff page).mp hf
    rw [lru, if_neg hout] at hnext
    simp only [hfind, hf]
    rw [access_lru_of_notMem hout]
    unfold load at hnext ⊢
    rw [hrec.length_eq, hcells.length_eq] at hnext ⊢
    by_cases hfree : s.filled < k
    · rw [if_pos hfree] at hnext
      rw [if_pos hfree, if_pos hfree]
      have hperm : order.Perm (cells ++ []) := by
        rw [List.append_nil]
        exact hrec.perm
      have hconcat := hrec.concat page (List.Sublist.refl order) hperm
      rw [hrec.pages] at hconcat
      exact ⟨⟨⟨_, _, hcells.add (Nat.lt_of_lt_of_le hfree hk') hpage, hconcat⟩, hnext, hfree⟩, rfl⟩
    · rw [if_neg hfree] at hnext
      rw [if_neg hfree, if_neg hfree]
      have hfull : s.filled = k := Nat.le_antisymm hfilled (Nat.not_lt.mp hfree)
      obtain ⟨hvictim, hleast⟩ := lruVictim_least hk s.lastUsed
      obtain ⟨us, c, vs, rfl, hus⟩ := Cut.exists_of_lt (l := cells) (i := lruVictim s.lastUsed k)
        (by rw [hcells.length_eq, hfull]; exact hvictim)
      rw [← hus] at hleast ⊢
      obtain ⟨after, rfl⟩ := hrec.victim hcells (by rw [hcells.length_eq, hfull]; exact hleast)
      have hconcat := hrec.concat page (List.sublist_cons_self c after)
        ((List.perm_cons c).mp (hrec.perm.trans List.perm_middle))
      rw [← hrec.pages] at hnext ⊢
      exact ⟨⟨⟨_, _, hcells.replace hpage, hconcat⟩, hnext, hfilled⟩, rfl⟩

/-! ## Runs -/

/-- The report of an access names the page of its address. -/
theorem fifoStep_page (k : Nat) (pageSize : Int) (s : FifoVars) (address : Int) :
    (fifoStep k pageSize s address).2.page = addressToPage address pageSize := by
  unfold fifoStep
  dsimp only
  split
  · rfl
  · split <;> rfl

/-- So does that of `run_lru`. -/
theorem lruStep_page (k : Nat) (pageSize : Int) (s : LruVars) (address : Int) :
    (lruStep k pageSize s address).2.page = addressToPage address pageSize := by
  unfold lruStep
  dsimp only
  split
  · rfl
  · split <;> rfl

/-- Every access is a hit or a fault, and the counters say which. -/
theorem fifoStep_counters (k : Nat) (pageSize : Int) (s : FifoVars) (address : Int) :
    (fifoStep k pageSize s address).1.ft.pageFaults =
        s.ft.pageFaults + (if (!(fifoStep k pageSize s address).2.hit) = true then 1 else 0) ∧
      (fifoStep k pageSize s address).1.ft.pageHits + (fifoStep k pageSize s address).1.ft.pageFaults =
        s.ft.pageHits + s.ft.pageFaults + 1 := by
  unfold fifoStep
  cases hf : findPage s.ft (addressToPage address pageSize) with
  | some i =>
    simp only [hf]
    exact ⟨rfl, Nat.add_right_comm s.ft.pageHits 1 s.ft.pageFaults⟩
  | none =>
    by_cases hfree : s.filled < k
    · simp only [hf, if_pos hfree]
      exact ⟨rfl, rfl⟩
    · simp only [hf, if_neg hfree]
      exact ⟨rfl, rfl⟩

/-- An access adds one to the faults if it is no hit, and one to the sum of both counters. -/
theorem lruStep_counters (k : Nat) (pageSize : Int) (s : LruVars) (address : Int) :
    (lruStep k pageSize s address).1.pageFaults =
        s.pageFaults + (if (!(lruStep k pageSize s address).2.hit) = true then 1 else 0) ∧
      (lruStep k pageSize s address).1.pageHits + (lruStep k pageSize s address).1.pageFaults =
        s.pageHits + s.pageFaults + 1 := by
  unfold lruStep
  cases hf : (s.frames.ints.take k).findIdx? (· == addressToPage address pageSize) with
  | some i =>
    simp only [hf]
    exact ⟨rfl, Nat.add_right_comm s.pageHits 1 s.pageFaults⟩
  | none =>
    by_cases hfree : s.filled < k
    · simp only [hf, if_pos hfree]
      exact ⟨rfl, rfl⟩
    · simp only [hf, if_neg hfree]
      exact ⟨rfl, rfl⟩

/-- Each access of `run_fifo` is a hit or a fault. -/
theorem fifo_total (refs : List Int) (k : Nat) (pageSize : Int) :
    (runFifo refs k pageSize).ft.pageHits + (runFifo refs k pageSize).ft.pageFaults = refs.length := by
  have h := Runs.final_clock (fun s : FifoVars => s.ft.pageHits + s.ft.pageFaults)
    (fun s a => (fifoStep_counters k pageSize s a).2) (FifoVars.init k) refs
  exact h.trans (Nat.zero_add _)

/-- Each access of `run_lru` is a hit or a fault. -/
theorem lru_total (refs : List Int) (k : Nat) (pageSize : Int) :
    (runLru refs k pageSize).pageHits + (runLru refs k pageSize).pageFaults = refs.length := by
  have h := Runs.final_clock (fun s : LruVars => s.pageHits + s.pageFaults)
    (fun s a => (lruStep_counters k pageSize s a).2) LruVars.init refs
  exact h.trans (Nat.zero_add _)

/-- What is printed about an access in the middle of a run. -/
theorem fifoReports_getElem? (as : List Int) (a : Int) (bs : List Int) (k : Nat) (pageSize : Int) :
    (fifoReports (as ++ a :: bs) k pageSize)[as.length]? = some (fifoStep k pageSize (runFifo as k pageSize) a).2 := by
  rw [fifoReports, List.getElem?_map, Runs.getElem?_trace]
  rfl

/-- The report at a place is that of the step on the run before it. -/
theorem lruReports_getElem? (as : List Int) (a : Int) (bs : List Int) (k : Nat) (pageSize : Int) :
    (lruReports (as ++ a :: bs) k pageSize)[as.length]? = some (lruStep k pageSize (runLru as k pageSize) a).2 := by
  rw [lruReports, List.getElem?_map, Runs.getElem?_trace]
  rfl

section

variable {S : Type} {step : S → Int → S × Report} {s : S} {refs : List Int} {pageSize : Int}
  {policy : List Int → Int → List Int}

/-- The pages of the reports are those of the addresses. -/
theorem reports_page (hpage : ∀ s a, (step s a).2.page = addressToPage a pageSize) (s : S) (refs : List Int) :
    ((Runs.trace step s refs).map (·.2)).map (·.page) = pageString refs pageSize := by
  induction refs generalizing s with
  | nil => rfl
  | cons a refs ih =>
    rw [Runs.trace_cons, List.map_cons, List.map_cons, ih, hpage]
    rfl

/-- What a loop loads, where its run is one of a policy. -/
theorem loadedPages_eq (hpage : ∀ s a, (step s a).2.page = addressToPage a pageSize)
    (htrace : (Runs.trace step s refs).map (fun e => (addressToPage e.1 pageSize, !e.2.hit)) =
      Runs.trace (access policy) [] (pageString refs pageSize)) :
    loadedPages ((Runs.trace step s refs).map (·.2)) = loads (Runs.trace (access policy) [] (pageString refs pageSize)) := by
  have hpages : ∀ e ∈ Runs.trace step s refs, e.2.page = addressToPage e.1 pageSize :=
    Runs.trace_invariant (I := fun _ => True) (P := fun _ => True) (Q := fun a (r : Report) => r.page = addressToPage a pageSize)
      (fun _ _ _ _ => trivial) (fun s a _ _ => hpage s a) trivial (fun _ _ => trivial)
  rw [← htrace, loadedPages, loads, List.filter_map, List.filter_map, List.map_map, List.map_map]
  refine List.map_congr_left ?_
  intro e he
  exact hpages e (List.mem_filter.mp he).1

/-- A counter of the faults counts the loads. -/
theorem faults_eq (faults : S → Nat)
    (hstep : ∀ s a, faults (step s a).1 = faults s + if (!(step s a).2.hit) = true then 1 else 0) (hzero : faults s = 0)
    (htrace : (Runs.trace step s refs).map (fun e => (addressToPage e.1 pageSize, !e.2.hit)) =
      Runs.trace (access policy) [] (pageString refs pageSize)) :
    faults (Runs.final step s refs) = (loads (Runs.trace (access policy) [] (pageString refs pageSize))).length := by
  rw [Runs.final_count faults (fun r => !r.hit) hstep, hzero, Nat.zero_add, ← htrace, loads, List.length_map,
    ← List.countP_eq_length_filter, List.countP_map]
  rfl

end

section

variable (hk : 1 ≤ k) (hk' : k ≤ maxFrames) {pageSize : Int} (hp : 1 ≤ pageSize) {refs : List Int} (h : ∀ a ∈ refs, 0 ≤ a)

include hk hk' hp h

/-- A run of `run_fifo` is one of the policy. -/
theorem fifo_run :
    FifoSim k (runFifo refs k pageSize) (Runs.final (access (fifo k)) [] (pageString refs pageSize)) ∧
      (Runs.trace (fifoStep k pageSize) (FifoVars.init k) refs).map (fun e => (addressToPage e.1 pageSize, !e.2.hit)) =
        Runs.trace (access (fifo k)) [] (pageString refs pageSize) :=
  Runs.simulation (addressToPage · pageSize) (fun r : Report => !r.hit) (fun s q a ha hs => hs.step hk' hp s q a ha)
    (fifoSim_init hk) h

/-- The pages that the faults loaded are those that the queue took in. -/
theorem fifo_loaded :
    loadedPages (fifoReports refs k pageSize) = loads (Runs.trace (access (fifo k)) [] (pageString refs pageSize)) :=
  loadedPages_eq (fifoStep_page k pageSize) (fifo_run hk hk' hp h).2

/-- The faults of `run_fifo` are its loads. -/
theorem fifo_faults : (runFifo refs k pageSize).ft.pageFaults = (loadedPages (fifoReports refs k pageSize)).length := by
  rw [fifo_loaded hk hk' hp h]
  exact faults_eq (fun s => s.ft.pageFaults) (fun s a => (fifoStep_counters k pageSize s a).1) rfl (fifo_run hk hk' hp h).2

/-- The queue of FIFO is what the run loaded last. -/
theorem fifo_queue :
    Runs.final (access (fifo k)) [] (pageString refs pageSize) = (loadedPages (fifoReports refs k pageSize)).rtake k := by
  rw [fifo_loaded hk hk' hp h]
  exact (final_fifo hk _).1

/-- An access is a hit when its page is among the last `k` pages loaded. -/
theorem fifo_hit_iff {address : Int} (ha : 0 ≤ address) :
    (fifoStep k pageSize (runFifo refs k pageSize) address).2.hit = true ↔
      addressToPage address pageSize ∈ (loadedPages (fifoReports refs k pageSize)).rtake k := by
  have hstep := ((fifo_run hk hk' hp h).1.step hk' hp _ _ address ha).2
  rw [← fifo_queue hk hk' hp h, ← Bool.not_eq_false', hstep, access, decide_eq_false_iff_not, not_not]

/-- A run of `run_lru` is one of the policy. -/
theorem lru_run :
    LruSim k (runLru refs k pageSize) (Runs.final (access (lru k)) [] (pageString refs pageSize)) ∧
      (Runs.trace (lruStep k pageSize) LruVars.init refs).map (fun e => (addressToPage e.1 pageSize, !e.2.hit)) =
        Runs.trace (access (lru k)) [] (pageString refs pageSize) :=
  Runs.simulation (addressToPage · pageSize) (fun r : Report => !r.hit) (fun s q a ha hs => hs.step hk hk' hp s q a ha)
    lruSim_init h

/-- The faults of `run_lru` are the loads of its queue. -/
theorem lru_faults :
    (runLru refs k pageSize).pageFaults = (loads (Runs.trace (access (lru k)) [] (pageString refs pageSize))).length :=
  faults_eq LruVars.pageFaults (fun s a => (lruStep_counters k pageSize s a).1) rfl (lru_run hk hk' hp h).2

/-- The frames of LRU hold the pages accessed last. -/
theorem lru_resident :
    (residentPages (runLru refs k pageSize).frames k).Perm ((pageString refs pageSize).dedup.rtake k) := by
  obtain ⟨⟨cells, order, hcells, hrec⟩, -, hfilled⟩ := (lru_run hk hk' hp h).1
  have hlen : (cells.map (·.1)).length ≤ k := by rwa [List.length_map, hcells.length_eq]
  have hpos : ∀ x ∈ cells.map (·.1), 0 ≤ x := by
    intro x hx
    obtain ⟨c, hc, rfl⟩ := List.mem_map.mp hx
    exact hcells.page_nonneg c hc
  rw [hcells.frames.residentPages_eq hlen hk' hpos, ← final_lru hk, ← hrec.pages]
  exact (hrec.perm.map _).symm

/-- An access is a hit when its page is among the last `k` different pages. -/
theorem lru_hit_iff {address : Int} (ha : 0 ≤ address) :
    (lruStep k pageSize (runLru refs k pageSize) address).2.hit = true ↔
      addressToPage address pageSize ∈ (pageString refs pageSize).dedup.rtake k := by
  have hstep := ((lru_run hk hk' hp h).1.step hk hk' hp _ _ address ha).2
  rw [← final_lru hk, ← Bool.not_eq_false', hstep, access, decide_eq_false_iff_not, not_not]

end

end SimulatorAux

end OsSecurity.Paging
