import OsSecurity.Lib.Interleaving
import Mathlib.Data.Fintype.Card

/-!
# Increments that are not atomic

Workers increment one counter, each `m` times. An increment is two steps: a worker loads the counter, and later stores what it loaded
and one. In any order of the steps the counter is at most the number of stores, and at least 2 when all workers are done with two
increments or more; both bounds are reached.
-/

namespace LostUpdates

open Interleaving

/-- A worker: the increments it has finished, and what it loaded for the next one. -/
structure Worker where
  finished : Nat
  temp : Option Nat
  deriving DecidableEq

/-- The counter, and what each worker knows of it. -/
structure State (T : Type*) where
  counter : Nat
  workers : T → Worker

variable {T : Type*}

/-- States are the same when the counter is and each worker is. -/
@[ext] theorem State.ext {s s' : State T} (hcounter : s.counter = s'.counter) (hworkers : ∀ t, s.workers t = s'.workers t) : s = s' := by
  cases s
  cases s'
  obtain rfl : _ = _ := hcounter
  rw [State.mk.injEq]
  exact ⟨rfl, funext hworkers⟩

/-- The state before the first step. -/
def State.init : State T := { counter := 0, workers := fun _ => { finished := 0, temp := none } }

/-- All workers are done. -/
def State.Ended (m : Nat) (s : State T) : Prop := ∀ t, s.workers t = { finished := m, temp := none }

variable [DecidableEq T]

/-- The worker `t` loads the counter. -/
def State.load (s : State T) (t : T) : State T :=
  { s with workers := Function.update s.workers t { s.workers t with temp := some s.counter } }

/-- It stores one more than `x`, and the increment is finished. -/
def State.store (s : State T) (t : T) (x : Nat) : State T :=
  { counter := x + 1, workers := Function.update s.workers t { finished := (s.workers t).finished + 1, temp := none } }

/-- A worker loads the counter for its next increment, or stores what it loaded and one. -/
def step (m : Nat) (s : State T) (t : T) : Option (State T) :=
  match (s.workers t).temp with
  | none => if (s.workers t).finished < m then some (s.load t) else none
  | some x => some (s.store t x)

variable {m : Nat} {s s' : State T} {t : T}

/-- What a step does. -/
theorem step_cases (h : step m s t = some s') :
    ((s.workers t).temp = none ∧ (s.workers t).finished < m ∧ s' = s.load t) ∨
      ∃ x, (s.workers t).temp = some x ∧ s' = s.store t x := by
  unfold step at h
  cases htemp : (s.workers t).temp with
  | none =>
    rw [htemp] at h
    by_cases hlt : (s.workers t).finished < m
    · simp only [if_pos hlt] at h
      exact .inl ⟨rfl, hlt, (Option.some.inj h).symm⟩
    · simp only [if_neg hlt] at h
      exact absurd h.symm (Option.some_ne_none _)
  | some x =>
    rw [htemp] at h
    exact .inr ⟨x, rfl, (Option.some.inj h).symm⟩

/-- A worker loads when it has loaded nothing and has increments left. -/
theorem step_load (htemp : (s.workers t).temp = none) (hlt : (s.workers t).finished < m) : step m s t = some (s.load t) := by
  simp only [step, htemp, if_pos hlt]

/-- A worker that has loaded stores. -/
theorem step_store {x : Nat} (htemp : (s.workers t).temp = some x) : step m s t = some (s.store t x) := by
  simp only [step, htemp]

/-- Where all workers are done, none has a step. -/
theorem step_of_ended (h : s.Ended m) (t : T) : step m s t = none := by
  unfold step
  rw [h t]
  exact if_neg (Nat.lt_irrefl m)

/-- Nothing is reached from there but the state itself. -/
theorem eq_of_ended (h : s.Ended m) (hs : Reachable (step m) s s') : s' = s := by
  refine hs.invariant (I := fun u => u = s) rfl ?_
  rintro u t u' rfl hstep
  rw [step_of_ended h t] at hstep
  nomatch hstep

@[simp] theorem load_counter (s : State T) (t : T) : (s.load t).counter = s.counter := rfl

@[simp] theorem store_counter (s : State T) (t : T) (x : Nat) : (s.store t x).counter = x + 1 := rfl

@[simp] theorem load_workers_self (s : State T) (t : T) : (s.load t).workers t = { s.workers t with temp := some s.counter } := by
  simp [State.load]

@[simp] theorem load_workers_ne (s : State T) {t u : T} (h : u ≠ t) : (s.load t).workers u = s.workers u := by
  simp [State.load, h]

@[simp] theorem store_workers_self (s : State T) (t : T) (x : Nat) :
    (s.store t x).workers t = { finished := (s.workers t).finished + 1, temp := none } := by
  simp [State.store]

@[simp] theorem store_workers_ne (s : State T) {t u : T} (x : Nat) (h : u ≠ t) : (s.store t x).workers u = s.workers u := by
  simp [State.store, h]

/-! ## The bounds -/

section

variable [Fintype T]

/-- The stores so far. -/
def State.stores (s : State T) : Nat := ∑ t, (s.workers t).finished

/-- A load is no store. -/
theorem stores_load (s : State T) (t : T) : (s.load t).stores = s.stores := by
  have h := sum_change Worker.finished t (fun u hu => load_workers_ne s hu)
  rw [load_workers_self] at h
  exact Nat.add_right_cancel h

/-- A store is one more. -/
theorem stores_store (s : State T) (t : T) (x : Nat) : (s.store t x).stores = s.stores + 1 := by
  have h := sum_change Worker.finished t (fun u hu => store_workers_ne s x hu)
  rw [store_workers_self] at h
  unfold State.stores
  dsimp only at h
  omega

/-- No value is above the number of stores. -/
structure AtMost (s : State T) : Prop where
  counter : s.counter ≤ s.stores
  temp : ∀ t x, (s.workers t).temp = some x → x ≤ s.stores

/-- A load takes a value that the counter had, and a store is one more of them. -/
theorem AtMost.step (h : AtMost s) (hs : step m s t = some s') : AtMost s' := by
  rcases step_cases hs with ⟨-, -, rfl⟩ | ⟨x, htemp, rfl⟩
  · refine ⟨by rw [stores_load]; exact h.counter, ?_⟩
    intro u y hu
    rw [stores_load]
    by_cases hut : u = t
    · subst hut
      rw [load_workers_self] at hu
      obtain rfl := Option.some.inj hu
      exact h.counter
    · rw [load_workers_ne s hut] at hu
      exact h.temp u y hu
  · refine ⟨by rw [stores_store]; exact Nat.succ_le_succ (h.temp t x htemp), ?_⟩
    intro u y hu
    rw [stores_store]
    by_cases hut : u = t
    · subst hut
      rw [store_workers_self] at hu
      exact absurd hu.symm (Option.some_ne_none y)
    · rw [store_workers_ne s x hut] at hu
      exact Nat.le_succ_of_le (h.temp u y hu)

end

/-- A value that was stored is not zero, nor is one that a worker loaded after a store of its own; and the counter is at least 2 unless
some worker has stored at most once. -/
structure AtLeast (s : State T) : Prop where
  counter : ∀ t, 0 < (s.workers t).finished → 0 < s.counter
  temp : ∀ t x, (s.workers t).temp = some x → 0 < (s.workers t).finished → 0 < x
  two : 2 ≤ s.counter ∨ ∃ t, (s.workers t).finished < 2

/-- What a worker loads behind a store is not zero. -/
theorem atLeast_load (h : AtLeast s) (t : T) : AtLeast (s.load t) := by
  have hfinished : ∀ u, ((s.load t).workers u).finished = (s.workers u).finished := by
    intro u
    by_cases hut : u = t
    · subst hut
      rw [load_workers_self]
    · rw [load_workers_ne s hut]
  refine ⟨fun u hu => h.counter u (hfinished u ▸ hu), ?_, ?_⟩
  · intro u y hy hu
    rw [hfinished] at hu
    by_cases hut : u = t
    · subst hut
      rw [load_workers_self] at hy
      obtain rfl := Option.some.inj hy
      exact h.counter u hu
    · rw [load_workers_ne s hut] at hy
      exact h.temp u y hy hu
  · exact h.two.imp_right (fun ⟨u, hu⟩ => ⟨u, (hfinished u).symm ▸ hu⟩)

/-- What a worker stores is at least 2, or its first store. -/
theorem atLeast_store (h : AtLeast s) {t : T} {x : Nat} (htemp : (s.workers t).temp = some x) : AtLeast (s.store t x) := by
  refine ⟨fun _ _ => Nat.succ_pos x, ?_, ?_⟩
  · intro u y hy hu
    by_cases hut : u = t
    · subst hut
      rw [store_workers_self] at hy
      exact absurd hy.symm (Option.some_ne_none y)
    · rw [store_workers_ne s x hut] at hy hu
      exact h.temp u y hy hu
  · -- what is stored is above a value loaded behind the worker's first store, or the store is its first
    by_cases hfirst : (s.workers t).finished = 0
    · right
      refine ⟨t, ?_⟩
      rw [store_workers_self, hfirst]
      decide
    · left
      exact Nat.succ_le_succ (h.temp t x htemp (Nat.pos_of_ne_zero hfirst))

/-- So each step keeps the lower bound. -/
theorem AtLeast.step (h : AtLeast s) (hs : step m s t = some s') : AtLeast s' := by
  rcases step_cases hs with ⟨-, -, rfl⟩ | ⟨x, htemp, rfl⟩
  · exact atLeast_load h t
  · exact atLeast_store h htemp

/-- When all workers are done, with two increments at least, the counter is between 2 and the number of increments. -/
theorem counter_bounds [Fintype T] [Nonempty T] (hm : 2 ≤ m) (hs : Reachable (step m) State.init s) (hend : s.Ended m) :
    2 ≤ s.counter ∧ s.counter ≤ Fintype.card T * m := by
  have hmost : AtMost s := by
    refine hs.invariant ⟨Nat.zero_le _, ?_⟩ (fun _ _ _ h hstep => h.step hstep)
    intro t x hx
    exact absurd hx.symm (Option.some_ne_none x)
  have hleast : AtLeast s := by
    refine hs.invariant ⟨?_, ?_, ?_⟩ (fun _ _ _ h hstep => h.step hstep)
    · exact fun t ht => absurd ht (Nat.lt_irrefl 0)
    · exact fun t x hx _ => absurd hx.symm (Option.some_ne_none x)
    · exact .inr ⟨Classical.arbitrary T, Nat.zero_lt_two⟩
  have hstores : s.stores = Fintype.card T * m := by
    unfold State.stores
    rw [Finset.sum_congr rfl (fun t _ => congrArg Worker.finished (hend t)), Finset.sum_const, Finset.card_univ]
    rfl
  refine ⟨?_, hstores ▸ hmost.counter⟩
  rcases hleast.two with htwo | ⟨t, ht⟩
  · exact htwo
  · rw [hend t] at ht
    exact absurd hm (Nat.not_le.mpr ht)

/-! ## Orders of the steps that reach the bounds -/

/-- The state after `k` increments by a worker alone. -/
def State.advance (s : State T) (t : T) (k : Nat) : State T :=
  { counter := s.counter + k
    workers := Function.update s.workers t { finished := (s.workers t).finished + k, temp := none } }

@[simp] theorem advance_counter (s : State T) (t : T) (k : Nat) : (s.advance t k).counter = s.counter + k := rfl

@[simp] theorem advance_workers_self (s : State T) (t : T) (k : Nat) :
    (s.advance t k).workers t = { finished := (s.workers t).finished + k, temp := none } := by
  simp [State.advance]

@[simp] theorem advance_workers_ne (s : State T) {t u : T} (k : Nat) (h : u ≠ t) : (s.advance t k).workers u = s.workers u := by
  simp [State.advance, h]

/-- A load as a run. -/
theorem reachable_load (htemp : (s.workers t).temp = none) (hlt : (s.workers t).finished < m) : Reachable (step m) s (s.load t) :=
  .of_step (step_load htemp hlt)

/-- A store as a run. -/
theorem reachable_store {x : Nat} (htemp : (s.workers t).temp = some x) : Reachable (step m) s (s.store t x) :=
  .of_step (step_store htemp)

/-- A worker that is let run alone loses nothing. -/
theorem reachable_advance (htemp : (s.workers t).temp = none) {k : Nat} (hk : (s.workers t).finished + k ≤ m) :
    Reachable (step m) s (s.advance t k) := by
  induction k with
  | zero =>
    have hsame : s.advance t 0 = s := by
      ext u
      · rfl
      · by_cases hut : u = t
        · subst hut
          rw [advance_workers_self, Nat.add_zero, ← htemp]
        · rw [advance_workers_ne s 0 hut]
    rw [hsame]
    exact .refl s
  | succ k ih =>
    have hbefore := ih (Nat.le_of_succ_le hk)
    have hload : Reachable (step m) (s.advance t k) ((s.advance t k).load t) :=
      reachable_load (by rw [advance_workers_self]) (by rw [advance_workers_self]; exact hk)
    have hstore : Reachable (step m) ((s.advance t k).load t) (((s.advance t k).load t).store t (s.counter + k)) :=
      reachable_store (by rw [load_workers_self, advance_counter])
    have hsame : ((s.advance t k).load t).store t (s.counter + k) = s.advance t (k + 1) := by
      ext u
      · rfl
      · by_cases hut : u = t
        · subst hut
          rw [store_workers_self, load_workers_self, advance_workers_self, advance_workers_self]
          rfl
        · rw [store_workers_ne _ _ hut, load_workers_ne _ hut, advance_workers_ne s k hut, advance_workers_ne s (k + 1) hut]
    exact hsame ▸ (hbefore.trans hload).trans hstore

/-- Workers that run one after the other lose nothing. -/
theorem reachable_all {ts : List T} (hnodup : ts.Nodup) (hts : ∀ t ∈ ts, s.workers t = { finished := 0, temp := none }) :
    ∃ s', Reachable (step m) s s' ∧ s'.counter = s.counter + ts.length * m ∧
      (∀ t ∈ ts, s'.workers t = { finished := m, temp := none }) ∧ ∀ t, t ∉ ts → s'.workers t = s.workers t := by
  induction ts generalizing s with
  | nil => exact ⟨s, .refl s, by simp, by simp, fun _ _ => rfl⟩
  | cons t ts ih =>
    obtain ⟨ht, hnodup'⟩ := List.nodup_cons.mp hnodup
    have hfirst := hts t List.mem_cons_self
    have hblock : Reachable (step m) s (s.advance t m) := reachable_advance (by rw [hfirst]) (by rw [hfirst, Nat.zero_add])
    have hothers : ∀ u ∈ ts, (s.advance t m).workers u = { finished := 0, temp := none } := by
      intro u hu
      have hut : u ≠ t := by
        rintro rfl
        exact ht hu
      rw [advance_workers_ne s m hut, hts u (List.mem_cons_of_mem t hu)]
    obtain ⟨s', hs', hcounter, hdone, hsame⟩ := ih hnodup' hothers
    refine ⟨s', hblock.trans hs', ?_, ?_, ?_⟩
    · rw [hcounter, advance_counter, List.length_cons, Nat.succ_mul]
      omega
    · intro u hu
      rcases List.mem_cons.mp hu with rfl | hu
      · rw [hsame u ht, advance_workers_self, hfirst, Nat.zero_add]
      · exact hdone u hu
    · intro u hu
      rw [List.mem_cons, not_or] at hu
      rw [hsame u hu.2, advance_workers_ne s m hu.1]

/-- No increment is lost in some order of the steps. -/
theorem exists_all [Fintype T] :
    ∃ s : State T, Reachable (step m) State.init s ∧ s.Ended m ∧ s.counter = Fintype.card T * m := by
  obtain ⟨s, hs, hcounter, hdone, -⟩ := reachable_all (m := m) (s := State.init) (Finset.nodup_toList (Finset.univ : Finset T))
    (fun _ _ => rfl)
  refine ⟨s, hs, fun t => hdone t (by simp), ?_⟩
  rw [hcounter, Finset.length_toList, Finset.card_univ]
  exact Nat.zero_add _

/-- All increments but two are lost in some order of the steps, when there are two workers: `a` loads zero; the others run, `b` all but
its last increment; `a` stores 1, which `b` loads; `a` runs on, and `b` stores. -/
theorem exists_two [Fintype T] {a b : T} (hab : a ≠ b) (hm : 1 ≤ m) :
    ∃ s : State T, Reachable (step m) State.init s ∧ s.Ended m ∧ s.counter = 2 := by
  obtain ⟨k, rfl⟩ : ∃ k, m = k + 1 := Nat.exists_eq_add_of_le' hm
  have hba := hab.symm
  -- the workers but `a` and `b`
  have hothers : ∀ t ∈ (Finset.univ.erase b |>.erase a).toList, t ≠ a ∧ t ≠ b := by
    intro t ht
    simpa using ht
  have hload : Reachable (step (k + 1)) (State.init : State T) (State.init.load a) := reachable_load rfl (Nat.succ_pos k)
  obtain ⟨s, hs, -, hdone, hsame⟩ := reachable_all (m := k + 1) (s := (State.init : State T).load a)
    (Finset.nodup_toList (Finset.univ.erase b |>.erase a)) (fun t ht => load_workers_ne _ (hothers t ht).1)
  have ha : s.workers a = { finished := 0, temp := some 0 } := (hsame a (by simp)).trans (load_workers_self _ a)
  have hb : s.workers b = { finished := 0, temp := none } := (hsame b (by simp)).trans (load_workers_ne _ hba)
  have h₁ : Reachable (step (k + 1)) s (s.advance b k) :=
    reachable_advance (by rw [hb]) (by rw [hb, Nat.zero_add]; exact Nat.le_succ k)
  have h₂ : Reachable (step (k + 1)) (s.advance b k) ((s.advance b k).store a 0) :=
    reachable_store (by rw [advance_workers_ne s k hab, ha])
  generalize hs₂ : (s.advance b k).store a 0 = s₂ at h₂
  have ha₂ : s₂.workers a = { finished := 1, temp := none } := by simp [← hs₂, ha, hab]
  have hb₂ : s₂.workers b = { finished := k, temp := none } := by simp [← hs₂, hb, hba]
  have h₃ : Reachable (step (k + 1)) s₂ (s₂.load b) := reachable_load (by rw [hb₂]) (by rw [hb₂]; exact Nat.lt_succ_self k)
  have h₄ : Reachable (step (k + 1)) (s₂.load b) ((s₂.load b).advance a k) :=
    reachable_advance (by rw [load_workers_ne s₂ hab, ha₂]) (by rw [load_workers_ne s₂ hab, ha₂, Nat.add_comm])
  have h₅ : Reachable (step (k + 1)) ((s₂.load b).advance a k) (((s₂.load b).advance a k).store b 1) :=
    reachable_store (by rw [advance_workers_ne _ k hba, load_workers_self, ← hs₂, store_counter])
  refine ⟨_, ((((hload.trans hs).trans (h₁.trans h₂)).trans h₃).trans h₄).trans h₅, ?_, rfl⟩
  intro t
  by_cases hta : t = a
  · subst hta
    rw [store_workers_ne _ 1 hab, advance_workers_self, load_workers_ne s₂ hab, ha₂, Nat.add_comm]
  · by_cases htb : t = b
    · subst htb
      rw [store_workers_self, advance_workers_ne _ k hba, load_workers_self, hb₂]
    · rw [store_workers_ne _ 1 htb, advance_workers_ne _ k hta, load_workers_ne s₂ htb, ← hs₂, store_workers_ne _ 0 hta,
        advance_workers_ne s k htb, hdone t (by simp [hta, htb])]

end LostUpdates
