import OsSecurity.Lib.DemandPaging

/-!
# What a replacement policy cannot do

A policy with room for `k` pages faults at each access to a page that it does not hold, and among `k + 1` pages there always is one. So
accesses can be chosen that it faults on one after the other. A schedule with room for `h ≤ k` pages that is made for these accesses
misses `k - h + 1` of each `k` of them: first come pages that nobody holds, and while it loads these it keeps, or gathers, those that the
policy will be asked for next.
-/

namespace DemandPaging

variable {P : Type*} [DecidableEq P]

/-! ## Accesses that all fault -/

/-- The policy faults at each of the accesses, from the pages `q` on. -/
def AllFault (policy : List P → P → List P) (q : List P) (ps : List P) : Prop :=
  ∀ e ∈ Runs.trace (access policy) q ps, e.2 = true

variable {policy : List P → P → List P} {q : List P} {p : P} {us vs ps : List P}

/-- No access is no hit. -/
theorem AllFault.nil : AllFault policy q [] := fun _ he => absurd he List.not_mem_nil

/-- An access to a page that is not held, and faults behind it. -/
theorem AllFault.cons (hp : p ∉ q) (h : AllFault policy (policy q p) ps) : AllFault policy q (p :: ps) := by
  intro e he
  rcases List.mem_cons.mp he with rfl | he
  · exact decide_eq_true hp
  · exact h e he

/-- Faults, and faults from where they led. -/
theorem AllFault.append (hus : AllFault policy q us) (hvs : AllFault policy (Runs.final (access policy) q us) vs) :
    AllFault policy q (us ++ vs) := by
  intro e he
  rw [Runs.trace_append] at he
  rcases List.mem_append.mp he with he | he
  · exact hus e he
  · exact hvs e he

/-- What faults is loaded. -/
theorem AllFault.loads_eq (h : AllFault policy q ps) : loads (Runs.trace (access policy) q ps) = ps := by
  rw [loads, List.filter_eq_self.mpr h, Runs.trace_map_fst]

/-- The policy holds at most `k` pages. -/
def Within (k : Nat) (policy : List P → P → List P) : Prop := ∀ q p, q.length ≤ k → (policy q p).length ≤ k

variable {k h : Nat} {A : Finset P}

/-- So it holds at most `k` pages after any accesses. -/
theorem Within.final (hpolicy : Within k policy) (hq : q.length ≤ k) (ps : List P) : (Runs.final (access policy) q ps).length ≤ k := by
  induction ps generalizing q with
  | nil => exact hq
  | cons p ps ih => exact ih (hpolicy q p hq)

/-- There are accesses to pages that are neither held nor among those in `U`, nor the same. -/
theorem exists_fresh (hpolicy : Within k policy) (hq : q.length ≤ k) {U : Finset P} {m : Nat} (hA : k + U.card + m ≤ A.card) :
    ∃ ps : List P, ps.length = m ∧ ps.Nodup ∧ (∀ p ∈ ps, p ∈ A ∧ p ∉ U) ∧ AllFault policy q ps := by
  induction m generalizing q U with
  | zero => exact ⟨[], rfl, List.nodup_nil, fun _ hp => absurd hp List.not_mem_nil, .nil⟩
  | succ m ih =>
    have hcard : (U ∪ q.toFinset).card < A.card := by
      have hunion := Finset.card_union_le U q.toFinset
      have hheld := List.toFinset_card_le q
      omega
    obtain ⟨p, hpA, hp⟩ := Finset.exists_mem_notMem_of_card_lt_card hcard
    rw [Finset.notMem_union, List.mem_toFinset] at hp
    obtain ⟨ps, hlength, hnodup, hps, hfault⟩ := ih (q := policy q p) (U := insert p U) (hpolicy q p hq) (by
      rw [Finset.card_insert_of_notMem hp.1]
      omega)
    refine ⟨p :: ps, by rw [List.length_cons, hlength], List.nodup_cons.mpr ⟨?_, hnodup⟩, ?_, hfault.cons hp.2⟩
    · exact fun hmem => (hps p hmem).2 (Finset.mem_insert_self p U)
    · intro x hx
      rcases List.mem_cons.mp hx with rfl | hx
      · exact ⟨hpA, hp.1⟩
      · exact ⟨(hps x hx).1, fun hU => (hps x hx).2 (Finset.mem_insert_of_mem hU)⟩

/-- Among more than `k` pages there always is one that is not held. -/
theorem exists_missing (hpolicy : Within k policy) (hq : q.length ≤ k) {S : Finset P} (hS : k < S.card) (m : Nat) :
    ∃ ps : List P, ps.length = m ∧ (∀ p ∈ ps, p ∈ S) ∧ AllFault policy q ps := by
  induction m generalizing q with
  | zero => exact ⟨[], rfl, fun _ hp => absurd hp List.not_mem_nil, .nil⟩
  | succ m ih =>
    have hcard : q.toFinset.card < S.card := Nat.lt_of_le_of_lt ((List.toFinset_card_le q).trans hq) hS
    obtain ⟨p, hpS, hp⟩ := Finset.exists_mem_notMem_of_card_lt_card hcard
    rw [List.mem_toFinset] at hp
    obtain ⟨ps, hlength, hps, hfault⟩ := ih (hpolicy q p hq)
    refine ⟨p :: ps, by rw [List.length_cons, hlength], ?_, hfault.cons hp⟩
    intro x hx
    rcases List.mem_cons.mp hx with rfl | hx
    · exact hpS
    · exact hps x hx

/-! ## A schedule that knows what comes -/

variable {C T : Finset P} {run rest : List (P × Finset P)}

omit [DecidableEq P] in
/-- What is held after two parts of a schedule. -/
theorem held_append (C : Finset P) (run rest : List (P × Finset P)) : held C (run ++ rest) = held (held C run) rest := by
  induction run generalizing C with
  | nil => rfl
  | cons e run ih => exact ih e.2

/-- A schedule goes on from what the one before it holds. -/
theorem Serves.concat (hrun : Serves h C run) (hrest : Serves h (held C run) rest) : Serves h C (run ++ rest) := by
  induction run generalizing C with
  | nil => exact hrest
  | cons e run ih =>
    obtain ⟨h1, h2, h3, hrun⟩ := hrun
    exact ⟨h1, h2, h3, ih hrun hrest⟩

/-- There are at most as many misses as accesses. -/
theorem misses_le_length (C : Finset P) (run : List (P × Finset P)) : misses C run ≤ run.length := by
  induction run generalizing C with
  | nil => exact Nat.le_refl 0
  | cons e run ih =>
    have hrest := ih e.2
    rw [misses, List.length_cons]
    split <;> omega

/-- The accesses, while of the pages held only those in `T` are kept. -/
def gather (T : Finset P) : Finset P → List P → List (P × Finset P)
  | _, [] => []
  | C, p :: ps => (p, insert p (C ∩ T)) :: gather T (insert p (C ∩ T)) ps

/-- The accesses are served in their order. -/
theorem gather_map_fst (T C : Finset P) (ps : List P) : (gather T C ps).map (·.1) = ps := by
  induction ps generalizing C with
  | nil => rfl
  | cons p ps ih => rw [gather, List.map_cons, ih]

/-- Of `T`, what was held and what is accessed is held in the end. -/
theorem held_gather_inter (T C : Finset P) (ps : List P) : held C (gather T C ps) ∩ T = (C ∪ ps.toFinset) ∩ T := by
  induction ps generalizing C with
  | nil => simp [gather, held]
  | cons p ps ih =>
    rw [gather, held, ih]
    ext x
    simp only [Finset.mem_inter, Finset.mem_union, Finset.mem_insert, List.toFinset_cons, List.mem_toFinset]
    tauto

/-- If the last access is to a page of `T`, nothing else is held in the end. -/
theorem held_gather_subset {z : P} (hz : z ∈ T) : held C (gather T C (us ++ [z])) ⊆ T := by
  induction us generalizing C with
  | nil => exact Finset.insert_subset hz Finset.inter_subset_right
  | cons p us ih => exact ih

/-- With the last access `z`, all of `T` has been gathered. -/
theorem held_gather_concat {z : P} (hz : z ∈ T) (hT : T ⊆ C ∪ (us ++ [z]).toFinset) : held C (gather T C (us ++ [z])) = T := by
  rw [← Finset.inter_eq_left.mpr (held_gather_subset hz), held_gather_inter, Finset.inter_eq_right.mpr hT]

/-- While `z` is still to come there is room for the page that is accessed. -/
theorem serves_gather {z : P} (hz : z ∈ T) (hT : T.card ≤ h) (hC : z ∉ C) (hus : z ∉ us) : Serves h C (gather T C (us ++ [z])) := by
  have hroom : ∀ {C : Finset P} (p : P), z ∉ C → (insert p (C ∩ T)).card ≤ h := by
    intro C p hC
    have hsub : C ∩ T ⊆ T.erase z := by
      intro x hx
      rw [Finset.mem_inter] at hx
      exact Finset.mem_erase.mpr ⟨fun hxz => hC (hxz ▸ hx.1), hx.2⟩
    calc (insert p (C ∩ T)).card ≤ (C ∩ T).card + 1 := Finset.card_insert_le _ _
      _ ≤ (T.erase z).card + 1 := Nat.succ_le_succ (Finset.card_le_card hsub)
      _ = T.card := Finset.card_erase_add_one hz
      _ ≤ h := hT
  have hloaded : ∀ {C : Finset P} (p : P), insert p (C ∩ T) ⊆ insert p C :=
    fun p => Finset.insert_subset_insert p Finset.inter_subset_left
  induction us generalizing C with
  | nil => exact ⟨hroom z hC, Finset.mem_insert_self _ _, hloaded z, trivial⟩
  | cons p us ih =>
    obtain ⟨hzp, hus⟩ := List.mem_cons.not.mp hus |> not_or.mp
    refine ⟨hroom p hC, Finset.mem_insert_self _ _, hloaded p, ih ?_ hus⟩
    rw [Finset.mem_insert, Finset.mem_inter, not_or]
    exact ⟨hzp, fun hx => hC hx.1⟩

/-- Accesses to what is held. -/
theorem serves_held (hT : T.card ≤ h) (hps : ∀ p ∈ ps, p ∈ T) :
    Serves h T (ps.map (fun p => (p, T))) ∧ misses T (ps.map (fun p => (p, T))) = 0 ∧ held T (ps.map (fun p => (p, T))) = T := by
  induction ps with
  | nil => exact ⟨trivial, rfl, rfl⟩
  | cons p ps ih =>
    obtain ⟨hserves, hmisses, hheld⟩ := ih (fun x hx => hps x (List.mem_cons_of_mem p hx))
    have hp := hps p List.mem_cons_self
    refine ⟨⟨hT, hp, Finset.subset_insert p T, hserves⟩, ?_, hheld⟩
    rw [List.map_cons, misses, if_pos hp, hmisses]

/-! ## Phases -/

/-- Accesses to pages of `A` that the policy faults on each time, served with room for `h` pages, all of which are in use at the end. -/
structure Hard (policy : List P → P → List P) (h : Nat) (A : Finset P) (q : List P) (C : Finset P) (run : List (P × Finset P)) :
    Prop where
  pages : ∀ p ∈ run.map (·.1), p ∈ A
  faults : AllFault policy q (run.map (·.1))
  serves : Serves h C run
  card_held : (held C run).card = h
  held_subset : held C run ⊆ A

/-- Such accesses follow one another. -/
theorem Hard.concat (hrun : Hard policy h A q C run)
    (hrest : Hard policy h A (Runs.final (access policy) q (run.map (·.1))) (held C run) rest) : Hard policy h A q C (run ++ rest) where
  pages := by
    intro p hp
    rw [List.map_append] at hp
    rcases List.mem_append.mp hp with hp | hp
    · exact hrun.pages p hp
    · exact hrest.pages p hp
  faults := by
    rw [List.map_append]
    exact hrun.faults.append hrest.faults
  serves := hrun.serves.concat hrest.serves
  card_held := by rw [held_append, hrest.card_held]
  held_subset := by
    rw [held_append]
    exact hrest.held_subset

omit [DecidableEq P] in
theorem exists_eq_concat {l : List P} (hl : 0 < l.length) : ∃ us z, l = us ++ [z] :=
  ⟨l.dropLast, l.getLast (List.ne_nil_of_length_pos hl), (List.dropLast_append_getLast _).symm⟩

omit [DecidableEq P] in
theorem notMem_of_nodup_concat {z : P} (hnodup : (us ++ [z]).Nodup) : z ∉ us :=
  fun hz => (List.nodup_append.mp hnodup).2.2 z hz z (List.mem_singleton_self z) rfl

section

variable (hpolicy : Within k policy) (hh : 1 ≤ h) (hhk : h ≤ k) (hA : 2 * k < A.card)

include hpolicy hh hhk hA

/-- To begin with, `h` pages are loaded. -/
theorem exists_hard_start : ∃ run, run.length = h ∧ Hard policy h A [] ∅ run := by
  obtain ⟨news, hlength, hnodup, hnews, hfault⟩ := exists_fresh (q := []) hpolicy (Nat.zero_le k) (U := ∅) (m := h) (A := A) (by
    rw [Finset.card_empty]
    omega)
  obtain ⟨us, z, rfl⟩ := exists_eq_concat (hlength.symm ▸ hh)
  have hz : z ∈ (us ++ [z]).toFinset := List.mem_toFinset.mpr (List.mem_append_right us List.mem_cons_self)
  have hcard : (us ++ [z]).toFinset.card = h := by rw [List.toFinset_card_of_nodup hnodup, hlength]
  have hheld : held ∅ (gather (us ++ [z]).toFinset ∅ (us ++ [z])) = (us ++ [z]).toFinset :=
    held_gather_concat hz Finset.subset_union_right
  refine ⟨gather (us ++ [z]).toFinset ∅ (us ++ [z]), ?_, ?_, ?_, ?_, ?_, ?_⟩
  · rw [← List.length_map (·.1), gather_map_fst, hlength]
  · rw [gather_map_fst]
    exact fun p hp => (hnews p hp).1
  · rwa [gather_map_fst]
  · exact serves_gather hz hcard.le (Finset.notMem_empty z) (notMem_of_nodup_concat hnodup)
  · rw [hheld, hcard]
  · rw [hheld]
    exact fun p hp => (hnews p (List.mem_toFinset.mp hp)).1

/-- A phase of `k` accesses: pages that nobody holds, then such as the schedule has gathered while it loaded these. -/
theorem exists_hard_phase (hq : q.length ≤ k) (hC : C.card = h) (hCA : C ⊆ A) :
    ∃ run, run.length = k ∧ misses C run ≤ k - h + 1 ∧ Hard policy h A q C run := by
  obtain ⟨news, hlength, hnodup, hnews, hfault⟩ := exists_fresh hpolicy hq (U := C) (m := k - h + 1) (A := A) (by omega)
  obtain ⟨us, z, rfl⟩ := exists_eq_concat (l := news) (by omega)
  have hz : z ∈ us ++ [z] := List.mem_append_right us List.mem_cons_self
  have hdisjoint : Disjoint C (us ++ [z]).toFinset :=
    Finset.disjoint_right.mpr fun p hp => (hnews p (List.mem_toFinset.mp hp)).2
  have hS : (C ∪ (us ++ [z]).toFinset).card = k + 1 := by
    rw [Finset.card_union_of_disjoint hdisjoint, List.toFinset_card_of_nodup hnodup, hC, hlength]
    omega
  have hSA : C ∪ (us ++ [z]).toFinset ⊆ A :=
    Finset.union_subset hCA fun p hp => (hnews p (List.mem_toFinset.mp hp)).1
  obtain ⟨ps, hpslength, hps, hpsfault⟩ :=
    exists_missing hpolicy (hpolicy.final hq (us ++ [z])) (S := C ∪ (us ++ [z]).toFinset) (by omega) (h - 1)
  -- the schedule has all of `ps` when the phase comes to it, and the last of the fresh pages
  have hneeded : insert z ps.toFinset ⊆ C ∪ (us ++ [z]).toFinset :=
    Finset.insert_subset (Finset.mem_union_right C (List.mem_toFinset.mpr hz)) fun p hp => hps p (List.mem_toFinset.mp hp)
  have hroom : (insert z ps.toFinset).card ≤ h := by
    have hinsert := Finset.card_insert_le z ps.toFinset
    have hdedup := List.toFinset_card_le ps
    omega
  obtain ⟨T, hneededT, hTS, hT⟩ := Finset.exists_subsuperset_card_eq hneeded hroom (by omega)
  have hzT : z ∈ T := hneededT (Finset.mem_insert_self z _)
  have hpsT : ∀ p ∈ ps, p ∈ T := fun p hp => hneededT (Finset.mem_insert_of_mem (List.mem_toFinset.mpr hp))
  obtain ⟨hserves, hmisses, hheld⟩ := serves_held hT.le hpsT
  have hgathered : held C (gather T C (us ++ [z])) = T := held_gather_concat hzT hTS
  have hpages : (gather T C (us ++ [z]) ++ ps.map (fun p => (p, T))).map (·.1) = us ++ [z] ++ ps := by
    rw [List.map_append, gather_map_fst, List.map_map]
    congr 1
    exact List.map_id ps
  have hheldT : held C (gather T C (us ++ [z]) ++ ps.map (fun p => (p, T))) = T := by rw [held_append, hgathered, hheld]
  refine ⟨gather T C (us ++ [z]) ++ ps.map (fun p => (p, T)), ?_, ?_, ?_, ?_, ?_, ?_, ?_⟩
  · rw [← List.length_map (·.1), hpages, List.length_append, hlength, hpslength]
    omega
  · have hgather := misses_le_length C (gather T C (us ++ [z]))
    rw [← List.length_map (·.1), gather_map_fst, hlength] at hgather
    rw [misses_append, hgathered, hmisses]
    exact hgather
  · rw [hpages]
    intro p hp
    rcases List.mem_append.mp hp with hp | hp
    · exact (hnews p hp).1
    · exact hSA (hps p hp)
  · rw [hpages]
    exact hfault.append hpsfault
  · refine (serves_gather hzT hT.le (hnews z hz).2 (notMem_of_nodup_concat hnodup)).concat ?_
    rw [hgathered]
    exact hserves
  · rw [hheldT, hT]
  · rw [hheldT]
    exact hTS.trans hSA

/-- There are `n` phases, each with `k` faults of the policy and at most `k - h + 1` misses of the schedule. -/
theorem exists_hard_phases (n : Nat) :
    ∃ run, run.length = h + n * k ∧ misses ∅ run ≤ h + n * (k - h + 1) ∧ Hard policy h A [] ∅ run := by
  induction n with
  | zero =>
    obtain ⟨run, hlength, hrun⟩ := exists_hard_start hpolicy hh hhk hA
    refine ⟨run, by omega, ?_, hrun⟩
    have hmisses := misses_le_length ∅ run
    omega
  | succ n ih =>
    obtain ⟨run, hlength, hmisses, hrun⟩ := ih
    obtain ⟨phase, hphase, hphasemisses, hhard⟩ :=
      exists_hard_phase hpolicy hh hhk hA (hpolicy.final (q := []) (Nat.zero_le k) (run.map (·.1))) hrun.card_held hrun.held_subset
    refine ⟨run ++ phase, ?_, ?_, hrun.concat hhard⟩
    · rw [List.length_append, hlength, hphase, Nat.succ_mul, Nat.add_assoc]
    · rw [misses_append, Nat.succ_mul]
      omega

end

end DemandPaging
