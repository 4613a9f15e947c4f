import Mathlib.Algebra.Order.Floor.Div
import Mathlib.Algebra.BigOperators.Group.Finset.Piecewise
import Mathlib.Algebra.GroupWithZero.Nat
import Mathlib.Algebra.Order.BigOperators.Group.Finset
import Mathlib.Data.Fintype.Basic
import Mathlib.Data.Finset.Lattice.Fold
import Mathlib.Data.List.FinRange
import Mathlib.Data.List.Sort
import Mathlib.Data.Prod.Lex
import Mathlib.Order.Lattice.Nat

/-!
# Round-robin, sequentially

Jobs of known sizes take turns in rounds, in increasing order, each turn a quantum of work or what is left of the job, until each has
had its share. A job gets at least one turn. A turn is a pair of a round, counted from 0, and a job.
-/

namespace Rounds

variable {n : Nat} (q : Nat) (b : Fin n → Nat)

/-- The turns of a job of size `b`. -/
def rounds (b : Nat) : Nat := max 1 (b ⌈/⌉ q)

/-- The turns of a round. -/
def round (r : Nat) : List (Nat × Fin n) :=
  ((List.finRange n).filter (fun i => r < rounds q (b i))).map (fun i => (r, i))

/-- The rounds before one. -/
def upTo (r : Nat) : List (Nat × Fin n) := (List.range r).flatMap (round q b)

/-- The turns before the place of job `i` in round `r`. -/
def before (r i : Nat) : List (Nat × Fin n) := upTo q b r ++ (round q b r).filter (fun t => (t.2 : Nat) < i)

/-- All turns. -/
def turns : List (Nat × Fin n) := upTo q b (Finset.univ.sup (fun i => rounds q (b i)))

/-- The work done in a turn. -/
def work (t : Nat × Fin n) : Nat := min q (b t.2 - t.1 * q)

/-- The jobs in the order in which they are worked on, with the work done. -/
def slices : List (Fin n × Nat) := (turns q b).map (fun t => (t.2, work q b t))

/-- The work done for a job. -/
def total (l : List (Fin n × Nat)) (i : Fin n) : Nat := ((l.filter (fun x => x.1 = i)).map (·.2)).sum

/-- The work done for job `j` when the turn of job `i` in a round comes. -/
def share (r : Nat) (i j : Fin n) : Nat := min ((if j < i then r + 1 else r) * q) (b j)

/-- The work done when a turn comes. -/
def startTime (t : Nat × Fin n) : Nat := ∑ j, share q b t.1 t.2 j

/-- The work done when a job is finished: its own, and what the other ones have had when its last turn comes. -/
def finishTime (i : Fin n) : Nat := b i + ∑ j ∈ Finset.univ.erase i, share q b (rounds q (b i) - 1) i j

/-- The place of a job in the order of finishing: the rounds that it needs come first, then its index. -/
def finishKey (i : Fin n) : Nat ×ₗ Fin n := toLex (rounds q (b i), i)

/-- The jobs in the order in which they finish. -/
def finishOrder : List (Fin n) := (List.finRange n).insertionSort (fun i j => finishKey q b i ≤ finishKey q b j)

/-- A job has been worked on and nothing of it is left. -/
def Finished (l : List (Fin n × Nat)) (i : Fin n) : Prop := (∃ x ∈ l, x.1 = i) ∧ total l i = b i

instance (l : List (Fin n × Nat)) (i : Fin n) : Decidable (Finished b l i) := inferInstanceAs (Decidable (_ ∧ _))

/-- The order of the turns. -/
def Earlier (t u : Nat × Fin n) : Prop := t.1 < u.1 ∨ t.1 = u.1 ∧ t.2 < u.2

variable {q b} {r : Nat} {t u x : Nat × Fin n} {i j : Fin n} {pre mid post : List (Nat × Fin n)}

/-! ## Which turns there are -/

theorem rounds_le_iff (hq : 1 ≤ q) {b : Nat} : rounds q b ≤ r ↔ 1 ≤ r ∧ b ≤ r * q := by
  rw [rounds, max_le_iff, ceilDiv_le_iff_le_mul hq, Nat.mul_comm]

theorem rounds_pos (q b : Nat) : 0 < rounds q b := le_max_left 1 _

theorem mem_round : t ∈ round q b r ↔ t.1 = r ∧ r < rounds q (b t.2) := by
  unfold round
  simp only [List.mem_map, List.mem_filter, List.mem_finRange, true_and, decide_eq_true_eq]
  constructor
  · rintro ⟨i, hi, rfl⟩
    exact ⟨rfl, hi⟩
  · rintro ⟨rfl, h⟩
    exact ⟨t.2, h, rfl⟩

theorem mem_upTo : t ∈ upTo q b r ↔ t.1 < r ∧ t.1 < rounds q (b t.2) := by
  unfold upTo
  simp only [List.mem_flatMap, List.mem_range, mem_round]
  constructor
  · rintro ⟨k, hk, rfl, h⟩
    exact ⟨hk, h⟩
  · rintro ⟨hr, h⟩
    exact ⟨t.1, hr, rfl, h⟩

theorem mem_before {c : Nat} :
    t ∈ before q b r c ↔ t.1 < rounds q (b t.2) ∧ (t.1 < r ∨ t.1 = r ∧ (t.2 : Nat) < c) := by
  unfold before
  simp only [List.mem_append, List.mem_filter, mem_upTo, mem_round, decide_eq_true_eq]
  constructor
  · rintro (⟨hr, h⟩ | ⟨⟨rfl, h⟩, hc⟩)
    · exact ⟨h, .inl hr⟩
    · exact ⟨h, .inr ⟨rfl, hc⟩⟩
  · rintro ⟨h, hr | ⟨rfl, hc⟩⟩
    · exact .inl ⟨hr, h⟩
    · exact .inr ⟨⟨rfl, h⟩, hc⟩

theorem mem_turns : t ∈ turns q b ↔ t.1 < rounds q (b t.2) := by
  unfold turns
  rw [mem_upTo, and_iff_right_iff_imp]
  intro h
  exact Nat.lt_of_lt_of_le h (Finset.le_sup (f := fun i => rounds q (b i)) (Finset.mem_univ t.2))

/-! ## The order of the turns -/

instance : Std.Irrefl (Earlier (n := n)) := ⟨fun t h => by rcases h with h | ⟨-, h⟩ <;> exact lt_irrefl _ h⟩

theorem earlier_iff {k : Nat} : Earlier (k, j) (r, i) ↔ k < r ∨ k = r ∧ (j : Nat) < i := Iff.rfl

theorem Earlier.asymm (h : Earlier t u) : ¬ Earlier u t := by
  unfold Earlier at *
  omega

instance : Std.Antisymm (Earlier (n := n)) := ⟨fun _ _ h h' => absurd h' h.asymm⟩

theorem pairwise_round (r : Nat) : (round q b r).Pairwise Earlier := by
  refine List.Pairwise.map _ (fun i j h => .inr ⟨rfl, h⟩) ?_
  exact (List.pairwise_lt_finRange n).filter _

theorem pairwise_upTo (r : Nat) : (upTo q b r).Pairwise Earlier := by
  refine List.pairwise_flatMap.mpr ⟨fun k _ => pairwise_round k, List.pairwise_lt_range.imp ?_⟩
  intro k l h t ht u hu
  rw [mem_round] at ht hu
  exact .inl (by omega)

theorem pairwise_before (r c : Nat) : (before q b r c).Pairwise Earlier := by
  refine List.pairwise_append.mpr ⟨pairwise_upTo r, (pairwise_round r).filter _, ?_⟩
  intro t ht u hu
  have hu' := (mem_round.mp (List.mem_of_mem_filter hu)).1
  exact .inl (hu' ▸ (mem_upTo.mp ht).1)

theorem pairwise_turns : (turns q b).Pairwise Earlier := pairwise_upTo _

/-- Turns in their order are known by their members. -/
theorem eq_of_mem_iff {l l' : List (Nat × Fin n)} (h : l.Pairwise Earlier) (h' : l'.Pairwise Earlier)
    (hmem : ∀ t, t ∈ l ↔ t ∈ l') : l = l' :=
  List.Pairwise.eq_of_mem_iff h h' hmem

/-! ## One turn after the other -/

theorem before_start : before q b 0 0 = [] := by
  refine List.eq_nil_iff_forall_not_mem.mpr (fun t ht => ?_)
  have := mem_before.mp ht
  omega

/-- The place after the last job of a round is the first place of the next round. -/
theorem before_last (r : Nat) : before q b r n = before q b (r + 1) 0 := by
  refine eq_of_mem_iff (pairwise_before r n) (pairwise_before (r + 1) 0) (fun t => ?_)
  have hn := t.2.isLt
  rw [mem_before, mem_before]
  omega

/-- A job that has had its rounds has no turn. -/
theorem before_skip (h : rounds q (b i) ≤ r) : before q b r (i + 1) = before q b r i := by
  refine eq_of_mem_iff (pairwise_before r _) (pairwise_before r _) (fun t => ?_)
  rw [mem_before, mem_before]
  by_cases hi : t.2 = i
  · rw [hi]
    omega
  · have hne : (t.2 : Nat) ≠ i := fun h => hi (Fin.ext h)
    omega

theorem before_turn (h : r < rounds q (b i)) : before q b r (i + 1) = before q b r i ++ [(r, i)] := by
  refine eq_of_mem_iff (pairwise_before r _) (List.pairwise_append.mpr ⟨pairwise_before r i, List.pairwise_singleton _ _, ?_⟩) ?_
  · intro t ht u hu
    rw [List.mem_singleton.mp hu]
    have := (mem_before.mp ht).2
    unfold Earlier
    exact this
  · intro t
    have hturn : t = (r, i) ↔ t.1 = r ∧ (t.2 : Nat) = i := by rw [Prod.ext_iff, Fin.ext_iff]
    rw [List.mem_append, List.mem_singleton, mem_before, mem_before, hturn]
    by_cases hi : t.2 = i
    · rw [hi]
      omega
    · have hne : (t.2 : Nat) ≠ i := fun h => hi (Fin.ext h)
      omega

/-- When every job has had its rounds, all turns are over. -/
theorem before_all (h : ∀ i, rounds q (b i) ≤ r) : before q b r 0 = turns q b := by
  refine eq_of_mem_iff (pairwise_before r 0) pairwise_turns (fun t => ?_)
  have ht := h t.2
  rw [mem_before, mem_turns]
  omega

/-- Turns up to one of them come first. -/
theorem prefix_turns (r c : Nat) : before q b r c <+: turns q b := by
  refine ⟨(turns q b).filter (fun t => t ∉ before q b r c), ?_⟩
  refine eq_of_mem_iff (List.pairwise_append.mpr ⟨pairwise_before r c, pairwise_turns.filter _, ?_⟩) pairwise_turns ?_
  · intro t ht u hu
    rw [List.mem_filter, mem_turns, decide_eq_true_eq, mem_before] at hu
    rw [mem_before] at ht
    unfold Earlier
    omega
  · intro t
    rw [List.mem_append, List.mem_filter, decide_eq_true_eq, mem_turns, mem_before]
    omega

/-! ## The work done -/

theorem sum_work (q m b : Nat) : ((List.range m).map (fun k => min q (b - k * q))).sum = min (m * q) b := by
  induction m with
  | zero => simp
  | succ m ih =>
    rw [List.range_succ, List.map_append, List.sum_append, ih, List.map_singleton, List.sum_singleton, Nat.succ_mul]
    omega

theorem total_map (l : List (Nat × Fin n)) (i : Fin n) :
    total (l.map (fun t => (t.2, work q b t))) i = ((l.filter (fun t => t.2 = i)).map (work q b)).sum := by
  rw [total, List.filter_map, List.map_map]
  rfl

/-- After `m` turns of a job. -/
theorem total_of_turns {m : Nat} (h : pre.filter (fun t => t.2 = i) = (List.range m).map (fun k => (k, i))) :
    total (pre.map (fun t => (t.2, work q b t))) i = min (m * q) (b i) := by
  rw [total_map, h, List.map_map, ← sum_work]
  rfl

theorem finished_iff (hq : 1 ≤ q) {m : Nat}
    (h : pre.filter (fun t => t.2 = i) = (List.range m).map (fun k => (k, i))) :
    Finished b (pre.map (fun t => (t.2, work q b t))) i ↔ rounds q (b i) ≤ m := by
  have hworked : (∃ x ∈ pre.map (fun t => (t.2, work q b t)), x.1 = i) ↔ 1 ≤ m := by
    have hlength : (pre.filter (fun t => t.2 = i)).length = m := by
      rw [h, List.length_map, List.length_range]
    rw [← hlength, Nat.succ_le_iff, List.length_pos_iff_exists_mem]
    simp
  rw [Finished, hworked, total_of_turns h, rounds_le_iff hq, min_eq_right_iff]

/-- The turns of one job. -/
theorem turns_of_job (i : Fin n) :
    (turns q b).filter (fun t => t.2 = i) = (List.range (rounds q (b i))).map (fun k => (k, i)) := by
  refine eq_of_mem_iff (pairwise_turns.filter _) (List.pairwise_lt_range.map _ (fun k l h => .inl h)) (fun t => ?_)
  rw [List.mem_filter, decide_eq_true_eq, mem_turns, List.mem_map]
  constructor
  · rintro ⟨h, rfl⟩
    exact ⟨t.1, List.mem_range.mpr h, rfl⟩
  · rintro ⟨k, hk, rfl⟩
    exact ⟨List.mem_range.mp hk, rfl⟩

/-- The slices of a job add up to its size. -/
theorem total_slices (hq : 1 ≤ q) (i : Fin n) : total (slices q b) i = b i := by
  rw [slices, total_of_turns (turns_of_job i), min_eq_right_iff]
  exact ((rounds_le_iff hq).mp (Nat.le_refl _)).2

/-! ## Between two turns of a job -/

/-- What comes before and after an element of a list of turns. -/
theorem mem_around (h : (pre ++ x :: post).Pairwise Earlier) :
    (t ∈ pre ↔ t ∈ pre ++ x :: post ∧ Earlier t x) ∧ (t ∈ post ↔ t ∈ pre ++ x :: post ∧ Earlier x t) := by
  obtain ⟨-, hpost, hcross⟩ := List.pairwise_append.mp h
  have hlater := (List.pairwise_cons.mp hpost).1
  have hearlier : ∀ u ∈ pre, Earlier u x := fun u hu => hcross u hu x List.mem_cons_self
  rw [List.mem_append, List.mem_cons]
  constructor
  · refine ⟨fun ht => ⟨.inl ht, hearlier t ht⟩, ?_⟩
    rintro ⟨ht | rfl | ht, hx⟩
    · exact ht
    · exact absurd hx (irrefl _)
    · exact absurd hx (hlater t ht).asymm
  · refine ⟨fun ht => ⟨.inr (.inr ht), hlater t ht⟩, ?_⟩
    rintro ⟨ht | rfl | ht, hx⟩
    · exact absurd hx (hearlier t ht).asymm
    · exact absurd hx (irrefl _)
    · exact ht

/-- The next turn of a job is in the next round. -/
theorem next_turn {r' : Nat} (h : turns q b = pre ++ (r, i) :: (mid ++ (r', i) :: post)) (hmid : ∀ t ∈ mid, t.2 ≠ i) :
    r' = r + 1 := by
  have hsorted : (pre ++ (r, i) :: (mid ++ (r', i) :: post)).Pairwise Earlier := h ▸ pairwise_turns
  have hrest := (List.pairwise_cons.mp (List.pairwise_append.mp hsorted).2.1).2
  have hlast : (r', i) ∈ mid ++ (r', i) :: post := List.mem_append_right mid List.mem_cons_self
  have hlater : Earlier (r, i) (r', i) := ((mem_around hsorted).2.mp hlast).2
  have hround : r' < rounds q (b i) := mem_turns.mp (h ▸ List.mem_append_right _ (.tail _ hlast))
  have hlt : r < r' := by
    rcases hlater with hlt | ⟨-, hlt⟩
    · exact hlt
    · exact absurd hlt (lt_irrefl i)
  have hnext : (r + 1, i) ∈ turns q b := mem_turns.mpr (Nat.lt_of_le_of_lt hlt hround)
  have hafter : (r + 1, i) ∈ mid ++ (r', i) :: post := (mem_around hsorted).2.mpr ⟨h ▸ hnext, .inl (Nat.lt_succ_self r)⟩
  rcases List.mem_append.mp hafter with hin | hin
  · exact absurd rfl (hmid _ hin)
  · rcases List.mem_cons.mp hin with heq | hin
    · exact (congrArg Prod.fst heq).symm
    · rcases ((mem_around hrest).2.mp hin).2 with hgt | ⟨-, hgt⟩
      · exact absurd hgt (Nat.not_lt.mpr hlt)
      · exact absurd hgt (lt_irrefl i)

/-- The turns of a job before the turn of another one. -/
theorem turns_before (h : turns q b = pre ++ (r, i) :: post) (hj : j ≠ i) :
    pre.filter (fun t => t.2 = j) = (List.range (min (rounds q (b j)) (if j < i then r + 1 else r))).map (fun k => (k, j)) := by
  have hsorted : (pre ++ (r, i) :: post).Pairwise Earlier := h ▸ pairwise_turns
  have hne : (j : Nat) ≠ i := fun h => hj (Fin.ext h)
  refine eq_of_mem_iff ((List.pairwise_append.mp hsorted).1.filter _) (List.pairwise_lt_range.map _ (fun k l h => .inl h)) ?_
  rintro ⟨l, j'⟩
  rw [List.mem_filter, decide_eq_true_eq, (mem_around hsorted).1, ← h, mem_turns, List.mem_map, earlier_iff]
  constructor
  · rintro ⟨⟨hround, hearlier⟩, hjob⟩
    obtain rfl : j' = j := hjob
    refine ⟨l, List.mem_range.mpr (lt_min hround ?_), rfl⟩
    split <;> omega
  · rintro ⟨k, hk, heq⟩
    obtain ⟨rfl, rfl⟩ := Prod.mk.inj heq
    obtain ⟨hround, hk⟩ := lt_min_iff.mp (List.mem_range.mp hk)
    refine ⟨⟨hround, ?_⟩, rfl⟩
    split at hk <;> omega

/-- The turn of another job between two turns of a job. -/
theorem turns_between (h : turns q b = pre ++ (r, i) :: (mid ++ (r + 1, i) :: post)) (hj : j ≠ i) {k : Nat}
    (hk : k = if j < i then r + 1 else r) :
    mid.filter (fun t => t.2 = j) = if k < rounds q (b j) then [(k, j)] else [] := by
  have hsorted : (pre ++ (r, i) :: (mid ++ (r + 1, i) :: post)).Pairwise Earlier := h ▸ pairwise_turns
  have hrest := (List.pairwise_cons.mp (List.pairwise_append.mp hsorted).2.1).2
  have hne : (j : Nat) ≠ i := fun h => hj (Fin.ext h)
  refine eq_of_mem_iff ((List.pairwise_append.mp hrest).1.filter _) (by split <;> simp) ?_
  rintro ⟨l, j'⟩
  rw [List.mem_filter, decide_eq_true_eq, (mem_around hrest).1, (mem_around hsorted).2, ← h, mem_turns, earlier_iff, earlier_iff]
  constructor
  · rintro ⟨⟨⟨hround, hlater⟩, hearlier⟩, hjob⟩
    obtain rfl : j' = j := hjob
    obtain rfl : l = k := by
      split at hk <;> omega
    rw [if_pos hround]
    exact List.mem_singleton_self _
  · intro ht
    by_cases hround : k < rounds q (b j)
    · rw [if_pos hround, List.mem_singleton] at ht
      obtain ⟨rfl, rfl⟩ := Prod.mk.inj ht
      refine ⟨⟨⟨hround, ?_⟩, ?_⟩, rfl⟩
      · split at hk <;> omega
      · split at hk <;> omega
    · rw [if_neg hround] at ht
      exact absurd ht List.not_mem_nil

/-- Between two turns of a job every other one has one turn, unless it is finished. -/
theorem slices_fair (hq : 1 ≤ q) {pre mid post : List (Fin n × Nat)} {w w' : Nat}
    (h : slices q b = pre ++ (i, w) :: (mid ++ (i, w') :: post)) (hmid : ∀ x ∈ mid, x.1 ≠ i) (hj : j ≠ i) :
    (mid.filter (fun x => x.1 = j)).length = if Finished b pre j then 0 else 1 := by
  obtain ⟨pre, rest, hturns, rfl, hfirst⟩ := List.map_eq_append_iff.mp h
  obtain ⟨⟨r, i'⟩, rest, rfl, hslice, hsecond⟩ := List.map_eq_cons_iff.mp hfirst
  obtain ⟨mid, rest, rfl, rfl, hthird⟩ := List.map_eq_append_iff.mp hsecond
  obtain ⟨⟨r', i''⟩, post, rfl, hslice', -⟩ := List.map_eq_cons_iff.mp hthird
  obtain rfl : i = i' := (congrArg Prod.fst hslice).symm
  obtain rfl : i = i'' := (congrArg Prod.fst hslice').symm
  obtain rfl := next_turn hturns (fun t ht => hmid _ (List.mem_map_of_mem ht))
  have hfinished := finished_iff (b := b) hq (turns_before hturns hj)
  rw [le_min_iff, and_iff_right (Nat.le_refl _)] at hfinished
  have hfilter : (mid.map (fun t => (t.2, work q b t))).filter (fun x => x.1 = j) =
      (mid.filter (fun t => t.2 = j)).map (fun t => (t.2, work q b t)) := List.filter_map
  rw [hfilter, List.length_map, turns_between hturns hj rfl]
  by_cases hover : Finished b (pre.map (fun t => (t.2, work q b t))) j
  · rw [if_pos hover, if_neg (Nat.not_lt.mpr (hfinished.mp hover))]
    rfl
  · rw [if_neg hover, if_pos (Nat.not_le.mp (fun hle => hover (hfinished.mpr hle)))]
    rfl

/-! ## When the jobs finish -/

/-- The turns of a job before one of its turns. -/
theorem turns_before_self (h : turns q b = pre ++ (r, i) :: post) :
    pre.filter (fun t => t.2 = i) = (List.range r).map (fun k => (k, i)) := by
  have hsorted : (pre ++ (r, i) :: post).Pairwise Earlier := h ▸ pairwise_turns
  have hround : r < rounds q (b i) := mem_turns.mp (h ▸ List.mem_append_right pre List.mem_cons_self)
  refine eq_of_mem_iff ((List.pairwise_append.mp hsorted).1.filter _) (List.pairwise_lt_range.map _ (fun k l h => .inl h)) ?_
  rintro ⟨l, j⟩
  rw [List.mem_filter, decide_eq_true_eq, (mem_around hsorted).1, ← h, mem_turns, List.mem_map, earlier_iff]
  constructor
  · rintro ⟨⟨-, hearlier⟩, hjob⟩
    obtain rfl : j = i := hjob
    exact ⟨l, List.mem_range.mpr (by omega), rfl⟩
  · rintro ⟨k, hk, heq⟩
    obtain ⟨rfl, rfl⟩ := Prod.mk.inj heq
    have hlt := List.mem_range.mp hk
    exact ⟨⟨Nat.lt_trans hlt hround, .inl hlt⟩, rfl⟩

/-- Work counted job by job. -/
theorem sum_work_eq_sum_total (l : List (Nat × Fin n)) :
    (l.map (work q b)).sum = ∑ j, total (l.map (fun t => (t.2, work q b t))) j := by
  simp only [total_map]
  induction l with
  | nil => simp
  | cons t l ih =>
    have hcons : ∀ j, (((t :: l).filter (fun t => t.2 = j)).map (work q b)).sum =
        (if t.2 = j then work q b t else 0) + ((l.filter (fun t => t.2 = j)).map (work q b)).sum := by
      intro j
      by_cases hj : t.2 = j <;> simp [hj]
    rw [List.map_cons, List.sum_cons, ih, Finset.sum_congr rfl (fun j _ => hcons j), Finset.sum_add_distrib,
      Finset.sum_ite_eq, if_pos (Finset.mem_univ _)]

/-- The work of all turns is that of all jobs. -/
theorem sum_work_turns (hq : 1 ≤ q) : ((turns q b).map (work q b)).sum = ∑ i, b i := by
  rw [sum_work_eq_sum_total]
  exact Finset.sum_congr rfl (fun i _ => total_slices hq i)

/-- When a turn comes, each job has had its share. -/
theorem sum_work_before (hq : 1 ≤ q) (h : turns q b = pre ++ (r, i) :: post) :
    (pre.map (work q b)).sum = startTime q b (r, i) := by
  rw [sum_work_eq_sum_total, startTime]
  refine Finset.sum_congr rfl (fun j _ => ?_)
  by_cases hj : j = i
  · subst hj
    rw [total_of_turns (turns_before_self h), share, if_neg (lt_irrefl j)]
  · have hall : b j ≤ rounds q (b j) * q := ((rounds_le_iff hq).mp (Nat.le_refl _)).2
    rw [total_of_turns (turns_before h hj), share]
    rcases Nat.le_total (rounds q (b j)) (if j < i then r + 1 else r) with hle | hle
    · rw [Nat.min_eq_left hle, Nat.min_eq_right hall, Nat.min_eq_right (hall.trans (Nat.mul_le_mul_right q hle))]
    · rw [Nat.min_eq_right hle]

/-- The last turn of a job finishes it. -/
theorem startTime_add_work (hq : 1 ≤ q) (i : Fin n) :
    startTime q b (rounds q (b i) - 1, i) + work q b (rounds q (b i) - 1, i) = finishTime q b i := by
  have hall : b i ≤ rounds q (b i) * q := ((rounds_le_iff hq).mp (Nat.le_refl _)).2
  have hpos := rounds_pos q (b i)
  have hself : share q b (rounds q (b i) - 1) i i + work q b (rounds q (b i) - 1, i) = b i := by
    rw [share, work, if_neg (lt_irrefl i)]
    have hsucc : rounds q (b i) * q = (rounds q (b i) - 1) * q + q := by
      rw [← Nat.succ_mul, Nat.succ_eq_add_one, Nat.sub_add_cancel hpos]
    dsimp only
    omega
  rw [startTime, finishTime, ← Finset.add_sum_erase _ _ (Finset.mem_univ i), Nat.add_right_comm]
  dsimp only
  rw [hself]

/-- A job is finished when the work of all jobs is done, at the latest. -/
theorem finishTime_le_sum (q : Nat) (b : Fin n → Nat) (i : Fin n) : finishTime q b i ≤ ∑ j, b j := by
  rw [finishTime, ← Finset.add_sum_erase _ _ (Finset.mem_univ i)]
  exact Nat.add_le_add_left (Finset.sum_le_sum (fun j _ => min_le_right _ _)) _

/-- A job waits for at most one quantum of each other one in each of its rounds. -/
theorem finishTime_le_wait (q : Nat) (b : Fin n → Nat) (i : Fin n) :
    finishTime q b i ≤ b i + (n - 1) * (rounds q (b i) * q) := by
  rw [finishTime]
  refine Nat.add_le_add_left ?_ _
  have hshare : ∀ j ∈ Finset.univ.erase i, share q b (rounds q (b i) - 1) i j ≤ rounds q (b i) * q := by
    intro j _
    refine (min_le_left _ _).trans (Nat.mul_le_mul_right q ?_)
    have hpos := rounds_pos q (b i)
    split <;> omega
  refine (Finset.sum_le_card_nsmul _ _ _ hshare).trans ?_
  rw [Finset.card_erase_of_mem (Finset.mem_univ i), Finset.card_univ, Fintype.card_fin, smul_eq_mul]

/-- The last turns come in the order of finishing. -/
theorem lastTurns_eq (q : Nat) (b : Fin n → Nat) :
    ((turns q b).filter (fun t => rounds q (b t.2) ≤ t.1 + 1)).map (·.2) = finishOrder q b := by
  have hlast : ∀ t ∈ (turns q b).filter (fun t => rounds q (b t.2) ≤ t.1 + 1), rounds q (b t.2) = t.1 + 1 := by
    intro t ht
    rw [List.mem_filter, decide_eq_true_eq, mem_turns] at ht
    omega
  have hsorted : (((turns q b).filter (fun t => rounds q (b t.2) ≤ t.1 + 1)).map (·.2)).Pairwise
      (fun i j => finishKey q b i < finishKey q b j) := by
    refine List.pairwise_map.mpr ((pairwise_turns.filter _).imp_of_mem ?_)
    intro t u ht hu h
    rw [finishKey, finishKey, Prod.Lex.toLex_lt_toLex, hlast t ht, hlast u hu]
    exact h.imp Nat.succ_lt_succ (And.imp_left (congrArg Nat.succ))
  have horder : (finishOrder q b).Pairwise (fun i j => finishKey q b i ≤ finishKey q b j) := List.pairwise_insertionSort _ _
  refine List.Perm.eq_of_pairwise ?_ (hsorted.imp le_of_lt) horder ?_
  · intro i j _ _ hij hji
    exact (Prod.mk.inj (toLex.injective (le_antisymm hij hji))).2
  · refine List.Perm.trans ?_ (List.perm_insertionSort _ _).symm
    refine (List.perm_ext_iff_of_nodup (hsorted.imp (fun h he => absurd (he ▸ h) (lt_irrefl _))) (List.nodup_finRange n)).mpr ?_
    intro i
    refine iff_of_true (List.mem_map.mpr ⟨(rounds q (b i) - 1, i), ?_, rfl⟩) (List.mem_finRange i)
    have hpos := rounds_pos q (b i)
    rw [List.mem_filter, mem_turns, decide_eq_true_eq]
    dsimp only
    omega

end Rounds
