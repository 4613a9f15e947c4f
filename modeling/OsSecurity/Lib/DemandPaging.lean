import OsSecurity.Lib.Runs
import Mathlib.Data.Finset.Card
import Mathlib.Data.List.Dedup
import Mathlib.Data.List.DropRight

/-!
# Demand paging

Pages are accessed one after the other, and `k` of them fit. The two classical replacement policies as lists of resident pages:
FIFO keeps them in the order they were loaded, LRU in the order of their last access, and both replace the first when they are
full. After a run FIFO holds the last `k` loads, and LRU the `k` pages accessed last.

The second half compares a run with any other way to serve the same accesses: what is needed of the policy is `Spaced`, that a
page which faults twice has seen `k` other pages in between.
-/

namespace DemandPaging

variable {P : Type*}

/-! ## Loads and last accesses -/

/-- The resident pages after a load: the first goes when `k` are there. -/
def load (k : Nat) (q : List P) (p : P) : List P := if q.length < k then q ++ [p] else q.tail ++ [p]

theorem rtake_of_length_le {k : Nat} {l : List P} (h : l.length ≤ k) : l.rtake k = l := by
  rw [List.rtake, Nat.sub_eq_zero_of_le h, List.drop_zero]

theorem length_rtake (k : Nat) (l : List P) : (l.rtake k).length = min k l.length := by
  rw [List.rtake, List.length_drop]
  omega

theorem rtake_suffix (k : Nat) (l : List P) : l.rtake k <:+ l := List.drop_suffix _ _

/-- A longer end of a list ends in a shorter one. -/
theorem rtake_suffix_rtake {j k : Nat} (h : j ≤ k) (l : List P) : l.rtake j <:+ l.rtake k := by
  have hd : l.rtake j = (l.rtake k).drop ((l.length - j) - (l.length - k)) := by
    rw [List.rtake, List.rtake, List.drop_drop]
    congr 1
    omega
  rw [hd]
  exact List.drop_suffix _ _

theorem tail_rtake {k : Nat} {l : List P} (h : k + 1 ≤ l.length) : (l.rtake (k + 1)).tail = l.rtake k := by
  rw [List.rtake, List.rtake, List.tail_drop]
  congr 1
  omega

/-- The end of a list is that of its second part, when it fits there. -/
theorem rtake_append {k : Nat} {w : List P} (h : k ≤ w.length) (u : List P) : (u ++ w).rtake k = w.rtake k := by
  rw [List.rtake, List.rtake, List.length_append, Nat.add_sub_assoc h, List.drop_append]
  simp

/-- Loading a page into the last `k` of a list gives the last `k` of the longer list. -/
theorem load_rtake {k : Nat} (hk : 0 < k) (l : List P) (p : P) : load k (l.rtake k) p = (l ++ [p]).rtake k := by
  obtain ⟨j, rfl⟩ := Nat.exists_eq_add_of_lt hk
  rw [Nat.zero_add, List.rtake_concat_succ, load, length_rtake]
  by_cases h : l.length < j + 1
  · rw [if_pos (Nat.lt_of_le_of_lt (Nat.min_le_right _ _) h), rtake_of_length_le (Nat.le_of_lt h),
      rtake_of_length_le (Nat.le_of_lt_succ h)]
  · rw [if_neg (by rw [Nat.min_eq_left (Nat.not_lt.mp h)]; exact Nat.lt_irrefl _), tail_rtake (Nat.not_lt.mp h)]

theorem mem_rtake_of_length_lt {k : Nat} {x y : List P} {p : P} (h : y.length < k) : p ∈ (x ++ p :: y).rtake k := by
  have hsuffix := rtake_suffix_rtake h (x ++ p :: y)
  have hend : (x ++ p :: y).rtake (y.length + 1) = p :: y := by
    rw [rtake_append (by rw [List.length_cons]), rtake_of_length_le (by rw [List.length_cons])]
  rw [Nat.succ_eq_add_one, hend] at hsuffix
  exact hsuffix.subset List.mem_cons_self

/-- In a list without repetitions, a page is among the last `k` when fewer than `k` are behind it. -/
theorem mem_rtake_iff {k : Nat} {x y : List P} {p : P} (hnodup : (x ++ p :: y).Nodup) :
    p ∈ (x ++ p :: y).rtake k ↔ y.length < k := by
  refine ⟨?_, mem_rtake_of_length_lt⟩
  intro hp
  by_contra hle
  rw [List.append_cons, rtake_append (Nat.not_lt.mp hle)] at hp
  have hy : p ∈ y := (rtake_suffix k y).subset hp
  exact (List.nodup_cons.mp (List.nodup_append.mp hnodup).2.1).1 hy

/-- The last access to a page. -/
theorem exists_last_access {p : P} {ps : List P} (h : p ∈ ps) : ∃ a b, ps = a ++ p :: b ∧ p ∉ b := by
  obtain ⟨b, a, hrev, hb⟩ := List.eq_append_cons_of_mem (List.mem_reverse.mpr h)
  refine ⟨a.reverse, b.reverse, ?_, by rwa [List.mem_reverse]⟩
  rw [← List.reverse_reverse ps, hrev]
  simp

/-- The pages that a run loaded, in the order of their loads. -/
def loads (tr : List (P × Bool)) : List P := (tr.filter (·.2)).map (·.1)

theorem loads_append (t u : List (P × Bool)) : loads (t ++ u) = loads t ++ loads u := by
  rw [loads, List.filter_append, List.map_append]
  rfl

theorem loads_cons_true (p : P) (t : List (P × Bool)) : loads ((p, true) :: t) = p :: loads t := rfl

theorem mem_of_mem_loads {p : P} {t : List (P × Bool)} (h : p ∈ loads t) : p ∈ t.map (·.1) := by
  obtain ⟨e, he, rfl⟩ := List.mem_map.mp h
  exact List.mem_map_of_mem (List.mem_filter.mp he).1

theorem nodup_concat {q : List P} {p : P} (hq : q.Nodup) (hp : p ∉ q) : (q ++ [p]).Nodup := by
  refine List.nodup_append.mpr ⟨hq, List.nodup_singleton p, ?_⟩
  intro x hx y hy hxy
  rw [hxy, List.mem_singleton.mp hy] at hx
  exact hp hx

theorem load_nodup {k : Nat} {q : List P} {p : P} (hq : q.Nodup) (hp : p ∉ q) : (load k q p).Nodup := by
  unfold load
  split
  · exact nodup_concat hq hp
  · exact nodup_concat (hq.sublist (List.tail_sublist q)) (fun h => hp (List.mem_of_mem_tail h))

variable [DecidableEq P]

/-! ## The policies -/

/-- FIFO: a hit changes nothing. -/
def fifo (k : Nat) (q : List P) (p : P) : List P := if p ∈ q then q else load k q p

/-- LRU: a hit makes the page the last accessed. -/
def lru (k : Nat) (q : List P) (p : P) : List P := if p ∈ q then q.erase p ++ [p] else load k q p

theorem lru_nodup {k : Nat} {q : List P} (hq : q.Nodup) (p : P) : (lru k q p).Nodup := by
  unfold lru
  split
  · exact nodup_concat (hq.erase p) (hq.not_mem_erase)
  · exact load_nodup hq ‹_›

/-- The distinct pages of a run in the order of their last access, after one more access. -/
theorem dedup_concat (l : List P) (p : P) : (l ++ [p]).dedup = l.dedup.erase p ++ [p] := by
  induction l with
  | nil => rfl
  | cons x l ih =>
    rw [List.cons_append]
    by_cases hx : x ∈ l
    · rw [List.dedup_cons_of_mem hx, List.dedup_cons_of_mem (List.mem_append_left _ hx), ih]
    · rw [List.dedup_cons_of_notMem hx]
      by_cases hp : x = p
      · subst hp
        have hnot : x ∉ l.dedup := fun h => hx (List.mem_dedup.mp h)
        rw [List.dedup_cons_of_mem (List.mem_append_right _ List.mem_cons_self), ih, List.erase_cons_head,
          List.erase_of_not_mem hnot]
      · have hnot : x ∉ l ++ [p] := by simp [hx, hp]
        rw [List.dedup_cons_of_notMem hnot, ih, List.erase_cons_tail (by simpa using hp), List.cons_append]

/-- The last `k` pages of a recency order, after an access. -/
theorem lru_rtake {k : Nat} (hk : 0 < k) {d : List P} (hd : d.Nodup) (p : P) :
    lru k (d.rtake k) p = (d.erase p ++ [p]).rtake k := by
  obtain ⟨j, rfl⟩ := Nat.exists_eq_add_of_lt hk
  rw [Nat.zero_add]
  have hlen := length_rtake (j + 1) d
  obtain ⟨u, hu⟩ := rtake_suffix (j + 1) d
  rw [lru, List.rtake_concat_succ]
  generalize hv : d.rtake (j + 1) = v at hlen hu ⊢
  subst hu
  have hshort : u ≠ [] → v.length = j + 1 := by
    intro hne
    have hpos := List.length_pos_iff.mpr hne
    rw [List.length_append] at hlen
    omega
  by_cases hp : p ∈ v
  · have hpu : p ∉ u := fun h => (List.nodup_append.mp hd).2.2 p h p hp rfl
    rw [if_pos hp, List.erase_append_right v hpu]
    congr 1
    cases u with
    | nil =>
      refine (rtake_of_length_le ?_).symm
      rw [List.length_erase_of_mem hp, hlen]
      omega
    | cons x u =>
      have hlen' : (v.erase p).length = j := by
        rw [List.length_erase_of_mem hp, hshort (List.cons_ne_nil x u)]
        rfl
      rw [rtake_append (Nat.le_of_eq hlen'.symm), rtake_of_length_le (Nat.le_of_eq hlen')]
  · have hload := load_rtake (Nat.succ_pos j) (u ++ v) p
    rw [hv, List.rtake_concat_succ] at hload
    rw [if_neg hp, hload]
    congr 1
    by_cases hpu : p ∈ u
    · have hle : j ≤ v.length := by
        rw [hshort (List.ne_nil_of_mem hpu)]
        exact Nat.le_succ j
      rw [List.erase_append_left v hpu, rtake_append hle, rtake_append hle]
    · rw [List.erase_of_not_mem (by simp [hpu, hp])]

/-! ## Runs of the policies -/

/-- An access under a policy: the resident pages after it, and whether it faulted. -/
def access (policy : List P → P → List P) (q : List P) (p : P) : List P × Bool := (policy q p, decide (p ∉ q))

theorem access_fifo_of_mem {k : Nat} {q : List P} {p : P} (h : p ∈ q) : access (fifo k) q p = (q, false) := by
  rw [access, fifo, if_pos h]
  simp [h]

theorem access_fifo_of_notMem {k : Nat} {q : List P} {p : P} (h : p ∉ q) : access (fifo k) q p = (load k q p, true) := by
  rw [access, fifo, if_neg h]
  simp [h]

theorem access_lru_of_mem {k : Nat} {q : List P} {p : P} (h : p ∈ q) : access (lru k) q p = (q.erase p ++ [p], false) := by
  rw [access, lru, if_pos h]
  simp [h]

theorem access_lru_of_notMem {k : Nat} {q : List P} {p : P} (h : p ∉ q) : access (lru k) q p = (load k q p, true) := by
  rw [access, lru, if_neg h]
  simp [h]

/-- FIFO holds the last `k` pages it loaded, and they are distinct. -/
theorem final_fifo {k : Nat} (hk : 0 < k) (ps : List P) :
    Runs.final (access (fifo k)) [] ps = (loads (Runs.trace (access (fifo k)) [] ps)).rtake k ∧
      (Runs.final (access (fifo k)) [] ps).Nodup := by
  induction ps using List.reverseRecOn with
  | nil => exact ⟨(List.rtake_nil k).symm, List.nodup_nil⟩
  | append_singleton ps p ih =>
    obtain ⟨hq, hnodup⟩ := ih
    rw [Runs.final_concat, Runs.trace_concat, loads_append]
    generalize Runs.final (access (fifo k)) [] ps = q at hq hnodup ⊢
    by_cases hp : p ∈ q
    · rw [access_fifo_of_mem hp]
      exact ⟨by rw [hq, show loads [(p, false)] = [] from rfl, List.append_nil], hnodup⟩
    · rw [access_fifo_of_notMem hp]
      refine ⟨?_, load_nodup hnodup hp⟩
      rw [hq, load_rtake hk]
      rfl

/-- A run of FIFO from at most `k` pages that it does not access goes as from none, and leaves what then still fits of them. -/
theorem trace_fifo_of_disjoint {k : Nat} (hk : 0 < k) {u ps : List P} (hu : u.length ≤ k) (hdisj : ∀ p ∈ ps, p ∉ u) :
    Runs.trace (access (fifo k)) u ps = Runs.trace (access (fifo k)) [] ps ∧
      Runs.final (access (fifo k)) u ps = (u ++ Runs.final (access (fifo k)) [] ps).rtake k := by
  induction ps using List.reverseRecOn with
  | nil =>
    refine ⟨rfl, ?_⟩
    rw [Runs.final_nil, Runs.final_nil, List.append_nil, rtake_of_length_le hu]
  | append_singleton ps p ih =>
    obtain ⟨htrace, hfinal⟩ := ih (fun q hq => hdisj q (List.mem_append_left _ hq))
    have hlen : (Runs.final (access (fifo k)) [] ps).length ≤ k := by
      rw [(final_fifo hk ps).1, length_rtake]
      exact Nat.min_le_left _ _
    rw [Runs.trace_concat, Runs.trace_concat, Runs.final_concat, Runs.final_concat, htrace, hfinal]
    generalize Runs.final (access (fifo k)) [] ps = q at hlen ⊢
    have hpu : p ∉ u := hdisj p (List.mem_append_right _ List.mem_cons_self)
    -- what is left of `u` is in front of `q`
    have hmem : p ∈ (u ++ q).rtake k ↔ p ∈ q := by
      constructor
      · intro hp
        exact (List.mem_append.mp ((rtake_suffix k _).subset hp)).resolve_left hpu
      · intro hp
        have hq : q <:+ (u ++ q).rtake k := by
          have hsuffix := rtake_suffix_rtake hlen (u ++ q)
          rwa [rtake_append (Nat.le_refl _), rtake_of_length_le (Nat.le_refl _)] at hsuffix
        exact hq.subset hp
    by_cases hp : p ∈ q
    · rw [access_fifo_of_mem hp, access_fifo_of_mem (hmem.mpr hp)]
      exact ⟨rfl, rfl⟩
    · rw [access_fifo_of_notMem hp, access_fifo_of_notMem (fun h => hp (hmem.mp h))]
      refine ⟨rfl, ?_⟩
      rw [load_rtake hk, List.append_assoc]
      by_cases hfree : q.length < k
      · rw [load, if_pos hfree]
      · have hload := load_rtake hk q p
        have hfull : k ≤ (q ++ [p]).length := by
          rw [List.length_append]
          omega
        have hend : ((q ++ [p]).rtake k).length = k := by rw [length_rtake, Nat.min_eq_left hfull]
        rw [rtake_of_length_le hlen] at hload
        rw [hload, rtake_append hfull, rtake_append (Nat.le_of_eq hend.symm) u, rtake_of_length_le (Nat.le_of_eq hend)]

/-- What FIFO holds was accessed. -/
theorem final_fifo_subset {k : Nat} (hk : 0 < k) (ps : List P) : Runs.final (access (fifo k)) [] ps ⊆ ps := by
  intro p hp
  rw [(final_fifo hk ps).1] at hp
  have hload := mem_of_mem_loads ((rtake_suffix k _).subset hp)
  rwa [Runs.trace_map_fst] at hload

/-- A run of FIFO that fills the frames leaves none of the pages that it does not access. -/
theorem final_fifo_of_disjoint {k : Nat} (hk : 0 < k) {u ps : List P} (hu : u.length ≤ k) (hdisj : ∀ p ∈ ps, p ∉ u)
    (hfull : (Runs.final (access (fifo k)) [] ps).length = k) :
    Runs.final (access (fifo k)) u ps = Runs.final (access (fifo k)) [] ps := by
  rw [(trace_fifo_of_disjoint hk hu hdisj).2, rtake_append (Nat.le_of_eq hfull.symm), rtake_of_length_le (Nat.le_of_eq hfull)]

/-- Two blocks of accesses without a common page, each of which fills the frames, in turn: every block loads what it loads alone. -/
theorem loads_fifo_alternate {k : Nat} (hk : 0 < k) {as bs : List P} (hdisj : ∀ p ∈ as, p ∉ bs)
    (has : (Runs.final (access (fifo k)) [] as).length = k) (hbs : (Runs.final (access (fifo k)) [] bs).length = k) (n : Nat)
    {u : List P} (hu : u.length ≤ k) (hdisj' : ∀ p ∈ as, p ∉ u) :
    (loads (Runs.trace (access (fifo k)) u (List.replicate n (as ++ bs)).flatten)).length =
      n * ((loads (Runs.trace (access (fifo k)) [] as)).length + (loads (Runs.trace (access (fifo k)) [] bs)).length) := by
  induction n generalizing u with
  | zero => rw [Nat.zero_mul]; rfl
  | succ n ih =>
    have hbs' : ∀ p ∈ bs, p ∉ Runs.final (access (fifo k)) [] as := fun p hp hpa => hdisj p (final_fifo_subset hk as hpa) hp
    have has' : ∀ p ∈ as, p ∉ Runs.final (access (fifo k)) [] bs := fun p hp hpb => hdisj p hp (final_fifo_subset hk bs hpb)
    have hlast : Runs.final (access (fifo k)) u (as ++ bs) = Runs.final (access (fifo k)) [] bs := by
      rw [Runs.final, List.foldl_append]
      change Runs.final (access (fifo k)) (Runs.final (access (fifo k)) u as) bs = _
      rw [final_fifo_of_disjoint hk hu hdisj' has, final_fifo_of_disjoint hk (Nat.le_of_eq has) hbs' hbs]
    rw [List.replicate_succ, List.flatten_cons, Runs.trace_append, loads_append, List.length_append, hlast,
      ih (Nat.le_of_eq hbs) has', Runs.trace_append, loads_append, List.length_append, (trace_fifo_of_disjoint hk hu hdisj').1,
      final_fifo_of_disjoint hk hu hdisj' has, (trace_fifo_of_disjoint hk (Nat.le_of_eq has) hbs').1, Nat.succ_mul, Nat.add_comm]

/-- LRU holds the `k` pages accessed last. -/
theorem final_lru {k : Nat} (hk : 0 < k) (ps : List P) : Runs.final (access (lru k)) [] ps = ps.dedup.rtake k := by
  induction ps using List.reverseRecOn with
  | nil => exact (List.rtake_nil k).symm
  | append_singleton ps p ih =>
    rw [Runs.final_concat, ih, dedup_concat]
    exact lru_rtake hk (List.nodup_dedup ps) p

/-- Behind the last access to a page, the recency order has the pages accessed since. -/
theorem dedup_append_cons {b : List P} {p : P} (hp : p ∉ b) (a : List P) : ∃ t, (a ++ p :: b).dedup = t ++ p :: b.dedup := by
  obtain ⟨t, -, ht⟩ := List.sublist_suffix_of_union a (p :: b).dedup
  exact ⟨t, by rw [List.dedup_append, ← ht, List.dedup_cons_of_notMem hp]⟩

/-- The pages accessed last have fewer than `k` others accessed since. -/
theorem mem_rtake_dedup_iff {k : Nat} {ps : List P} {p : P} :
    p ∈ ps.dedup.rtake k ↔ ∃ a b, ps = a ++ p :: b ∧ p ∉ b ∧ b.toFinset.card < k := by
  have hcut : ∀ {a b : List P}, ps = a ++ p :: b → p ∉ b → (p ∈ ps.dedup.rtake k ↔ b.toFinset.card < k) := by
    intro a b hps hb
    obtain ⟨t, ht⟩ := dedup_append_cons hb a
    have hnodup := List.nodup_dedup ps
    rw [hps, ht] at hnodup
    rw [hps, ht, mem_rtake_iff hnodup, List.card_toFinset]
  constructor
  · intro h
    obtain ⟨a, b, hps, hb⟩ := exists_last_access (List.mem_dedup.mp ((rtake_suffix k _).subset h))
    exact ⟨a, b, hps, hb, (hcut hps hb).mp h⟩
  · rintro ⟨a, b, hps, hb, hcard⟩
    exact (hcut hps hb).mpr hcard

/-! ## Spaced faults -/

/-- A page that faults twice has seen `k` other pages in between. -/
def Spaced (k : Nat) (tr : List (P × Bool)) : Prop :=
  ∀ (a b c : List (P × Bool)) (p : P), tr = a ++ (p, true) :: b ++ (p, true) :: c →
    k ≤ ((b.map (·.1)).toFinset.erase p).card

/-- At a fault the page is not among those that the accesses before it left. -/
theorem notMem_of_fault {policy : List P → P → List P} {ps : List P} {a c : List (P × Bool)} {p : P}
    (h : Runs.trace (access policy) [] ps = a ++ (p, true) :: c) :
    Runs.trace (access policy) [] (a.map (·.1)) = a ∧ p ∉ Runs.final (access policy) [] (a.map (·.1)) := by
  obtain ⟨htrace, hfault⟩ := Runs.trace_eq_append_cons (access policy) h
  exact ⟨htrace, of_decide_eq_true hfault⟩

theorem spaced_fifo {k : Nat} (hk : 0 < k) (ps : List P) : Spaced k (Runs.trace (access (fifo k)) [] ps) := by
  intro a b c p h
  obtain ⟨htrace, hnot⟩ := notMem_of_fault h
  obtain ⟨hq, hnodup⟩ := final_fifo hk ((a ++ (p, true) :: b).map (·.1))
  rw [htrace, loads_append, loads_cons_true] at hq
  have hlen : k ≤ (loads b).length := by
    by_contra hlt
    rw [hq] at hnot
    exact hnot (mem_rtake_of_length_lt (Nat.not_le.mp hlt))
  have hq' : Runs.final (access (fifo k)) [] ((a ++ (p, true) :: b).map (·.1)) = (loads b).rtake k := by
    rw [hq, List.append_cons, rtake_append hlen]
  rw [hq'] at hnodup hnot
  calc k = ((loads b).rtake k).toFinset.card := by
        rw [List.toFinset_card_of_nodup hnodup, length_rtake, Nat.min_eq_left hlen]
    _ ≤ ((b.map (·.1)).toFinset.erase p).card := by
        refine Finset.card_le_card ?_
        intro x hx
        rw [List.mem_toFinset] at hx
        have hxp : x ≠ p := fun h => hnot (h ▸ hx)
        exact Finset.mem_erase.mpr ⟨hxp, List.mem_toFinset.mpr (mem_of_mem_loads ((rtake_suffix k _).subset hx))⟩

theorem spaced_lru {k : Nat} (hk : 0 < k) (ps : List P) : Spaced k (Runs.trace (access (lru k)) [] ps) := by
  intro a b c p h
  obtain ⟨-, hnot⟩ := notMem_of_fault h
  rw [final_lru hk, mem_rtake_dedup_iff, List.map_append, List.map_cons] at hnot
  generalize b.map (·.1) = y, a.map (·.1) = x at hnot ⊢
  have hself : p ∈ p :: y := List.mem_cons_self
  obtain ⟨u, v, hcut, hv⟩ := exists_last_access hself
  have hsub : v.toFinset ⊆ y.toFinset.erase p := by
    intro z hz
    rw [List.mem_toFinset] at hz
    have hzp : z ≠ p := fun h => hv (h ▸ hz)
    have hmem : z ∈ p :: y := by
      rw [hcut]
      exact List.mem_append_right _ (List.mem_cons_of_mem p hz)
    exact Finset.mem_erase.mpr ⟨hzp, List.mem_toFinset.mpr ((List.mem_cons.mp hmem).resolve_left hzp)⟩
  have hcard : k ≤ v.toFinset.card := by
    by_contra hlt
    exact hnot ⟨x ++ u, v, by rw [hcut, List.append_assoc], hv, Nat.not_le.mp hlt⟩
  exact Nat.le_trans hcard (Finset.card_le_card hsub)

/-- Two faults on one page, where the loads are not distinct. -/
theorem exists_fault_twice {w : List (P × Bool)} (h : ¬ (loads w).Nodup) :
    ∃ a b c p, w = a ++ (p, true) :: b ++ (p, true) :: c := by
  induction w with
  | nil => exact absurd List.nodup_nil h
  | cons e w ih =>
    by_cases hw : (loads w).Nodup
    · obtain ⟨p, f⟩ := e
      cases f with
      | false => exact absurd hw h
      | true =>
        rw [loads_cons_true, List.nodup_cons, not_and_or, not_not] at h
        obtain ⟨e, he, rfl⟩ := List.mem_map.mp (h.resolve_right (not_not.mpr hw))
        obtain ⟨hmem, hfault⟩ := List.mem_filter.mp he
        obtain ⟨b, c, rfl⟩ := List.append_of_mem hmem
        exact ⟨[], b, c, e.1, by rw [← hfault]; rfl⟩
    · obtain ⟨a, b, c, p, rfl⟩ := ih hw
      exact ⟨e :: a, b, c, p, rfl⟩

section

variable {k : Nat} {tr a w c : List (P × Bool)}

omit [DecidableEq P] in
theorem loads_subset (w : List (P × Bool)) : loads w ⊆ w.map (·.1) := fun _ h => mem_of_mem_loads h

theorem card_loads (h : (loads w).Nodup) : (loads w).length ≤ (w.map (·.1)).toFinset.card := by
  rw [← List.toFinset_card_of_nodup h]
  refine Finset.card_le_card ?_
  intro x hx
  exact List.mem_toFinset.mpr (loads_subset w (List.mem_toFinset.mp hx))

/-- A part of a run in which a page faults twice accesses more than `k` pages. -/
theorem Spaced.lt_card_of_twice (h : Spaced k tr) (htr : tr = a ++ w ++ c) (htwice : ¬ (loads w).Nodup) :
    k < (w.map (·.1)).toFinset.card := by
  obtain ⟨w₁, w₂, w₃, q, rfl⟩ := exists_fault_twice htwice
  have hk := h (a ++ w₁) w₂ (w₃ ++ c) q (by simp [htr])
  have hsub : insert q ((w₂.map (·.1)).toFinset.erase q) ⊆ ((w₁ ++ (q, true) :: w₂ ++ (q, true) :: w₃).map (·.1)).toFinset := by
    intro x hx
    rw [Finset.mem_insert, Finset.mem_erase, List.mem_toFinset] at hx
    rw [List.mem_toFinset, List.map_append, List.map_append, List.map_cons]
    rcases hx with rfl | ⟨-, hx⟩
    · exact List.mem_append_left _ (List.mem_append_right _ List.mem_cons_self)
    · exact List.mem_append_left _ (List.mem_append_right _ (List.mem_cons_of_mem q hx))
  calc k < ((w₂.map (·.1)).toFinset.erase q).card + 1 := Nat.lt_succ_of_le hk
    _ = (insert q ((w₂.map (·.1)).toFinset.erase q)).card :=
        (Finset.card_insert_of_notMem (Finset.notMem_erase q _)).symm
    _ ≤ _ := Finset.card_le_card hsub

/-- A part of a run that accesses at most `k` pages faults at most `k` times. -/
theorem Spaced.length_loads_le (h : Spaced k tr) (htr : tr = a ++ w ++ c) (hw : (w.map (·.1)).toFinset.card ≤ k) :
    (loads w).length ≤ k := by
  have hnodup : (loads w).Nodup := by
    by_contra htwice
    exact Nat.not_lt.mpr hw (h.lt_card_of_twice htr htwice)
  exact Nat.le_trans (card_loads hnodup) hw

omit [DecidableEq P] in
/-- Where only pages accessed before are hit, each page accessed is loaded. -/
theorem subset_loads (h : ∀ a p c, tr = a ++ (p, false) :: c → p ∈ a.map (·.1)) : tr.map (·.1) ⊆ loads tr := by
  induction tr using List.reverseRecOn with
  | nil => exact List.Subset.refl _
  | append_singleton tr e ih =>
    have htr : tr.map (·.1) ⊆ loads tr := ih (fun a p c heq => h a p (c ++ [e]) (by simp [heq]))
    rw [List.map_append, loads_append]
    refine List.append_subset.mpr ⟨fun x hx => List.mem_append_left _ (htr hx), ?_⟩
    obtain ⟨p, fault⟩ := e
    intro x hx
    rw [List.mem_singleton.mp hx]
    cases fault with
    | true => exact List.mem_append_right _ List.mem_cons_self
    | false => exact List.mem_append_left _ (htr (h tr p [] rfl))

/-- A part of a run with `k` faults accesses `k` pages. -/
theorem Spaced.le_card (h : Spaced k tr) (htr : tr = a ++ w ++ c) (hk : k ≤ (loads w).length) :
    k ≤ (w.map (·.1)).toFinset.card := by
  by_cases hnodup : (loads w).Nodup
  · exact Nat.le_trans hk (card_loads hnodup)
  · exact Nat.le_of_lt (h.lt_card_of_twice htr hnodup)

/-- Behind a fault, a part with `k` faults accesses `k` pages other than the one that faulted. -/
theorem Spaced.le_card_erase {p : P} (h : Spaced k tr) (htr : tr = a ++ (p, true) :: w ++ c) (hk : k ≤ (loads w).length) :
    k ≤ ((w.map (·.1)).toFinset.erase p).card := by
  by_cases hnodup : (loads w).Nodup
  · by_cases hp : p ∈ loads w
    · obtain ⟨e, he, rfl⟩ := List.mem_map.mp hp
      obtain ⟨hmem, hfault⟩ := List.mem_filter.mp he
      obtain ⟨w₁, w₂, rfl⟩ := List.append_of_mem hmem
      refine Nat.le_trans (h a w₁ (w₂ ++ c) e.1 ?_) (Finset.card_le_card (Finset.erase_subset_erase _ ?_))
      · rw [htr, show (e.1, true) = e from Prod.ext rfl hfault.symm]
        simp
      · intro x hx
        rw [List.mem_toFinset] at hx ⊢
        rw [List.map_append]
        exact List.mem_append_left _ hx
    · calc k ≤ (loads w).toFinset.card := by rw [List.toFinset_card_of_nodup hnodup]; exact hk
        _ ≤ ((w.map (·.1)).toFinset.erase p).card := by
            refine Finset.card_le_card ?_
            intro x hx
            rw [List.mem_toFinset] at hx
            exact Finset.mem_erase.mpr ⟨fun h => hp (h ▸ hx), List.mem_toFinset.mpr (loads_subset w hx)⟩
  · have hlt := h.lt_card_of_twice (a := a ++ [(p, true)]) (c := c) (by simp [htr]) hnodup
    exact Nat.le_trans (Nat.le_sub_one_of_lt hlt) Finset.pred_card_le_card_erase

end

/-! ## Any other way to serve the accesses -/

/-- The accesses, each with the pages held after it: at most `h`, the accessed one among them, and no other new one. -/
def Serves (h : Nat) : Finset P → List (P × Finset P) → Prop
  | _, [] => True
  | C, (r, C') :: rest => C'.card ≤ h ∧ r ∈ C' ∧ C' ⊆ insert r C ∧ Serves h C' rest

/-- The accesses to pages that were not held. -/
def misses : Finset P → List (P × Finset P) → Nat
  | _, [] => 0
  | C, (r, C') :: rest => (if r ∈ C then 0 else 1) + misses C' rest

/-- The pages held in the end. -/
def held : Finset P → List (P × Finset P) → Finset P
  | C, [] => C
  | _, (_, C') :: rest => held C' rest

theorem misses_append (C : Finset P) (u v : List (P × Finset P)) :
    misses C (u ++ v) = misses C u + misses (held C u) v := by
  induction u generalizing C with
  | nil => simp [misses, held]
  | cons e u ih =>
    rw [List.cons_append, misses, misses, ih, held, Nat.add_assoc]

theorem Serves.append {h : Nat} {C : Finset P} {u v : List (P × Finset P)} (hs : Serves h C (u ++ v)) :
    Serves h C u ∧ Serves h (held C u) v := by
  induction u generalizing C with
  | nil => exact ⟨trivial, hs⟩
  | cons e u ih =>
    obtain ⟨h1, h2, h3, hrest⟩ := hs
    obtain ⟨hu, hv⟩ := ih hrest
    exact ⟨⟨h1, h2, h3, hu⟩, hv⟩

/-- Pages that were not held are missed. -/
theorem Serves.card_sdiff_le {h : Nat} {C : Finset P} {u : List (P × Finset P)} (hs : Serves h C u) :
    ((u.map (·.1)).toFinset \ C).card ≤ misses C u := by
  induction u generalizing C with
  | nil => simp
  | cons e u ih =>
    obtain ⟨r, C'⟩ := e
    obtain ⟨-, -, hsub, hrest⟩ := hs
    have hcover : (((r, C') :: u).map (·.1)).toFinset \ C ⊆ (if r ∈ C then ∅ else {r}) ∪ (u.map (·.1)).toFinset \ C' := by
      intro x hx
      obtain ⟨hx, hxC⟩ := Finset.mem_sdiff.mp hx
      rw [List.map_cons, List.mem_toFinset, List.mem_cons] at hx
      rw [Finset.mem_union, Finset.mem_sdiff, List.mem_toFinset]
      by_cases hxr : x = r
      · refine .inl ?_
        rw [if_neg (hxr ▸ hxC), hxr]
        exact Finset.mem_singleton_self r
      · refine .inr ⟨hx.resolve_left hxr, ?_⟩
        intro hxC'
        rcases Finset.mem_insert.mp (hsub hxC') with h | h
        · exact hxr h
        · exact hxC h
    calc _ ≤ ((if r ∈ C then ∅ else {r}) ∪ (u.map (·.1)).toFinset \ C').card := Finset.card_le_card hcover
      _ ≤ (if r ∈ C then (∅ : Finset P) else {r}).card + ((u.map (·.1)).toFinset \ C').card := Finset.card_union_le _ _
      _ ≤ (if r ∈ C then 0 else 1) + misses C' u := by
          refine Nat.add_le_add ?_ (ih hrest)
          split <;> simp

/-- Page sets `C i`, `C (i + 1)`, ..., one after each access, as a way to serve the accesses. -/
theorem serves_zipIdx {h : Nat} (C : Nat → Finset P) (ps : List P) (i : Nat)
    (hC : ∀ t r, ps[t]? = some r → (C (i + t + 1)).card ≤ h ∧ r ∈ C (i + t + 1) ∧ C (i + t + 1) ⊆ insert r (C (i + t))) :
    Serves h (C i) ((ps.zipIdx i).map (fun e => (e.1, C (e.2 + 1)))) := by
  induction ps generalizing i with
  | nil => trivial
  | cons p ps ih =>
    obtain ⟨hcard, hmem, hsub⟩ := hC 0 p rfl
    refine ⟨hcard, hmem, hsub, ih (i + 1) ?_⟩
    intro t r ht
    have hlater := hC (t + 1) r (by rw [List.getElem?_cons_succ, ht])
    rwa [← Nat.add_assoc, Nat.add_right_comm i t 1] at hlater

/-- They miss the pages not held when they are accessed. -/
theorem misses_zipIdx (C : Nat → Finset P) (ps : List P) (i : Nat) :
    misses (C i) ((ps.zipIdx i).map (fun e => (e.1, C (e.2 + 1)))) =
      (ps.zipIdx i).countP (fun e => decide (e.1 ∉ C e.2)) := by
  induction ps generalizing i with
  | nil => rfl
  | cons p ps ih =>
    rw [List.zipIdx_cons, List.map_cons, misses, ih, List.countP_cons, Nat.add_comm]
    by_cases hp : p ∈ C i <;> simp [hp]

/-- What is held after an access: the page accessed, and at most `h` pages. -/
theorem Serves.held_concat {h : Nat} {C C' : Finset P} {u : List (P × Finset P)} {r : P}
    (hs : Serves h C (u ++ [(r, C')])) : held C (u ++ [(r, C')]) = C' ∧ r ∈ C' ∧ C'.card ≤ h := by
  induction u generalizing C with
  | nil => exact ⟨rfl, hs.2.1, hs.1⟩
  | cons e u ih => exact ih hs.2.2.2

omit [DecidableEq P] in
/-- The part of a run up to its `k`-th fault. -/
theorem exists_phase {k : Nat} (hk : 0 < k) {w : List (P × Bool)} (h : k ≤ (loads w).length) :
    ∃ u v p, w = (u ++ [(p, true)]) ++ v ∧ (loads (u ++ [(p, true)])).length = k := by
  induction w generalizing k with
  | nil => exact absurd h (Nat.not_le.mpr hk)
  | cons e w ih =>
    obtain ⟨p, f⟩ := e
    cases f with
    | false =>
      obtain ⟨u, v, q, rfl, hlen⟩ := ih hk h
      exact ⟨(p, false) :: u, v, q, rfl, hlen⟩
    | true =>
      rw [loads_cons_true, List.length_cons] at h
      by_cases hone : k = 1
      · exact ⟨[], w, p, rfl, hone.symm⟩
      · obtain ⟨u, v, q, rfl, hlen⟩ := ih (k := k - 1) (by omega) (by omega)
        refine ⟨(p, true) :: u, v, q, rfl, ?_⟩
        rw [List.cons_append, loads_cons_true, List.length_cons, hlen]
        omega

/-- A start from which every part with `k` faults has `k` accessed pages, of which at most `h - 1` are held. -/
def Fresh (k h : Nat) (tr a : List (P × Bool)) (C : Finset P) : Prop :=
  ∀ w c, tr = a ++ w ++ c → k ≤ (loads w).length → k ≤ ((w.map (·.1)).toFinset \ C).card + (h - 1)

theorem fresh_empty {k h : Nat} {tr : List (P × Bool)} (hs : Spaced k tr) : Fresh k h tr [] ∅ := by
  intro w c htr hk
  rw [Finset.sdiff_empty]
  exact Nat.le_trans (hs.le_card htr hk) (Nat.le_add_right _ _)

theorem fresh_of_fault {k h : Nat} {tr a : List (P × Bool)} {p : P} {C : Finset P} (hs : Spaced k tr) (hp : p ∈ C)
    (hC : C.card ≤ h) : Fresh k h tr (a ++ [(p, true)]) C := by
  intro w c htr hk
  have hcard := hs.le_card_erase (p := p) (a := a) (c := c) (by simp [htr]) hk
  have hcover : (w.map (·.1)).toFinset.erase p ⊆ ((w.map (·.1)).toFinset \ C) ∪ C.erase p := by
    intro x hx
    obtain ⟨hxp, hx⟩ := Finset.mem_erase.mp hx
    rw [Finset.mem_union, Finset.mem_sdiff, Finset.mem_erase]
    by_cases hxC : x ∈ C
    · exact .inr ⟨hxp, hxC⟩
    · exact .inl ⟨hx, hxC⟩
  calc k ≤ ((w.map (·.1)).toFinset.erase p).card := hcard
    _ ≤ (((w.map (·.1)).toFinset \ C) ∪ C.erase p).card := Finset.card_le_card hcover
    _ ≤ ((w.map (·.1)).toFinset \ C).card + (C.erase p).card := Finset.card_union_le _ _
    _ ≤ ((w.map (·.1)).toFinset \ C).card + (h - 1) := by
        rw [Finset.card_erase_of_mem hp]
        exact Nat.add_le_add_left (Nat.sub_le_sub_right hC 1) _

/-- From a fresh start, each phase of `k` faults costs at least `k - h + 1` misses. -/
theorem competitive_from {k h : Nat} (hh : 0 < h) (hhk : h ≤ k) {tr : List (P × Bool)} (hs : Spaced k tr) (n : Nat)
    {a w : List (P × Bool)} {C : Finset P} {u : List (P × Finset P)} (hn : w.length ≤ n) (htr : tr = a ++ w)
    (hfresh : Fresh k h tr a C) (hu : u.map (·.1) = w.map (·.1)) (hserves : Serves h C u) :
    (k - h + 1) * (loads w).length ≤ k * misses C u + (k - 1) * (k - h + 1) := by
  induction n generalizing a w C u with
  | zero =>
    rw [List.length_eq_zero_iff.mp (Nat.le_zero.mp hn)]
    exact Nat.zero_le _
  | succ n ih =>
    rcases Nat.lt_or_ge (loads w).length k with hfew | hmany
    · calc (k - h + 1) * (loads w).length ≤ (k - h + 1) * (k - 1) := Nat.mul_le_mul_left _ (Nat.le_sub_one_of_lt hfew)
        _ = (k - 1) * (k - h + 1) := Nat.mul_comm _ _
        _ ≤ _ := Nat.le_add_left _ _
    · obtain ⟨x, v, p, rfl, hlen⟩ := exists_phase (Nat.lt_of_lt_of_le hh hhk) hmany
      rw [List.map_append] at hu
      obtain ⟨u₁, u₂, rfl, hu₁, hu₂⟩ := List.map_eq_append_iff.mp hu
      rw [List.map_append] at hu₁
      obtain ⟨u₀, e, rfl, -, he⟩ := List.map_eq_append_iff.mp hu₁
      obtain ⟨⟨q, C'⟩, rfl, hq⟩ := List.map_eq_singleton_iff.mp he
      obtain rfl : q = p := hq
      obtain ⟨hserves₁, hserves₂⟩ := hserves.append
      obtain ⟨hheld, hp, hC'⟩ := hserves₁.held_concat
      have hphase : k - h + 1 ≤ misses C (u₀ ++ [(q, C')]) := by
        have hpages := hfresh (x ++ [(q, true)]) v (by simp [htr]) (Nat.le_of_eq hlen.symm)
        have hmissed := hserves₁.card_sdiff_le
        rw [hu₁, ← List.map_append] at hmissed
        omega
      have hrest := ih (a := a ++ x ++ [(q, true)]) (w := v) (by simp at hn; omega) (by simp [htr])
        (fresh_of_fault hs hp hC') hu₂ (hheld ▸ hserves₂)
      rw [loads_append, List.length_append, hlen, misses_append, hheld]
      calc (k - h + 1) * (k + (loads v).length) = k * (k - h + 1) + (k - h + 1) * (loads v).length := by
            rw [Nat.mul_add, Nat.mul_comm (k - h + 1) k]
        _ ≤ k * misses C (u₀ ++ [(q, C')]) + (k * misses C' u₂ + (k - 1) * (k - h + 1)) :=
            Nat.add_le_add (Nat.mul_le_mul_left k hphase) hrest
        _ = k * (misses C (u₀ ++ [(q, C')]) + misses C' u₂) + (k - 1) * (k - h + 1) := by
            rw [Nat.mul_add k, Nat.add_assoc]

/-- A run whose faults are spaced by `k` pages, beside any way to serve its accesses with `h ≤ k` places. -/
theorem competitive {k h : Nat} (hh : 0 < h) (hhk : h ≤ k) {tr : List (P × Bool)} (hs : Spaced k tr)
    {u : List (P × Finset P)} (hu : u.map (·.1) = tr.map (·.1)) (hserves : Serves h ∅ u) :
    (k - h + 1) * (loads tr).length ≤ k * misses ∅ u + (k - 1) * (k - h + 1) :=
  competitive_from hh hhk hs tr.length (Nat.le_refl _) rfl (fresh_empty hs) hu hserves

end DemandPaging
