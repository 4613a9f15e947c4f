import Mathlib.Data.Finmap

/-!
# Slot tables

A table of slots, each free or holding a key with a value, in no order: the store of a program that reuses freed slots. A table
represents a finite map when its keys are distinct and its pairs are those of the map. The rules below say how the map changes
when one slot does; a program that finds its slots by scanning proves its scan and cites them.

`BoundedMap` is what such a table is for: a finite map of bounded size, with the answers of its operations.
-/

namespace SlotTable

variable {K V : Type*}

/-- The keys the slots hold, in slot order. -/
def keys (t : List (Option (K × V))) : List K := t.filterMap (·.map Prod.fst)

@[simp] theorem keys_nil : keys ([] : List (Option (K × V))) = [] := rfl
@[simp] theorem keys_cons_none (t : List (Option (K × V))) : keys (none :: t) = keys t := rfl
@[simp] theorem keys_cons_some (kv : K × V) (t : List (Option (K × V))) : keys (some kv :: t) = kv.1 :: keys t := rfl

@[simp] theorem keys_append (t u : List (Option (K × V))) : keys (t ++ u) = keys t ++ keys u := List.filterMap_append

theorem mem_keys {t : List (Option (K × V))} {k : K} : k ∈ keys t ↔ ∃ v, some (k, v) ∈ t := by
  simp only [keys, List.mem_filterMap, Option.map_eq_some_iff, Prod.exists, exists_and_right, exists_eq_right]
  constructor
  · rintro ⟨a, ha, v, rfl⟩
    exact ⟨v, ha⟩
  · rintro ⟨v, hv⟩
    exact ⟨_, hv, v, rfl⟩

/-- A table has fewer keys than slots exactly when a slot is free. -/
theorem keys_length_lt_iff (t : List (Option (K × V))) : (keys t).length < t.length ↔ none ∈ t := by
  have hle : ∀ u : List (Option (K × V)), (keys u).length ≤ u.length := fun u => List.length_filterMap_le _ _
  induction t with
  | nil => simp
  | cons x t ih =>
    cases x with
    | none => simp [Nat.lt_succ_of_le (hle t)]
    | some kv => simp [ih]

variable [DecidableEq K]

/-- A table represents a finite map. -/
structure Represents (t : List (Option (K × V))) (m : Finmap (fun _ : K => V)) : Prop where
  nodup : (keys t).Nodup
  mem_iff : ∀ k v, some (k, v) ∈ t ↔ m.lookup k = some v

namespace Represents

variable {t a b : List (Option (K × V))} {m : Finmap (fun _ : K => V)} {k : K} {v w : V}

/-- A table of free slots represents the empty map. -/
theorem empty (n : Nat) : Represents (List.replicate n (none : Option (K × V))) ∅ := by
  refine ⟨?_, fun k v => ?_⟩
  · rw [keys, List.filterMap_replicate_of_none rfl]
    exact List.nodup_nil
  · rw [Finmap.lookup_empty, List.mem_replicate]
    simp

theorem mem_keys_iff (h : Represents t m) : k ∈ keys t ↔ k ∈ m := by
  rw [mem_keys, Finmap.mem_iff]
  exact exists_congr (h.mem_iff k)

/-- The key of a slot is in the map. -/
theorem mem_of_slot (h : Represents (a ++ some (k, v) :: b) m) : k ∈ m := by
  rw [← h.mem_keys_iff, keys_append, keys_cons_some]
  exact List.mem_append_right _ List.mem_cons_self

/-- The map has as many keys as the table. -/
theorem card_keys (h : Represents t m) : m.keys.card = (keys t).length := by
  have hk : m.keys = (keys t).toFinset := by
    ext k
    rw [Finmap.mem_keys, List.mem_toFinset, h.mem_keys_iff]
  rw [hk, List.toFinset_card_of_nodup h.nodup]

/-- The map has room in the table exactly when a slot is free. -/
theorem card_lt_iff (h : Represents t m) : m.keys.card < t.length ↔ none ∈ t := by
  rw [h.card_keys, keys_length_lt_iff]

/-- Two slots do not hold the same key. -/
theorem notMem_rest (h : Represents (a ++ some (k, v) :: b) m) : k ∉ keys a ∧ k ∉ keys b := by
  have hn := h.nodup
  rw [keys_append, keys_cons_some, List.nodup_append] at hn
  exact ⟨fun hk => hn.2.2 k hk k List.mem_cons_self rfl, (List.nodup_cons.mp hn.2.1).1⟩

/-- The slots that hold one key are one slot. -/
theorem unique (h : Represents t m) {i j : Nat} (hi : t[i]? = some (some (k, v))) (hj : t[j]? = some (some (k, w))) : i = j := by
  have hcut : t = t.take i ++ some (k, v) :: t.drop (i + 1) := by
    obtain ⟨hlt, he⟩ := List.getElem?_eq_some_iff.mp hi
    rw [← he, ← List.drop_eq_getElem_cons hlt, List.take_append_drop]
  rw [hcut] at h
  obtain ⟨hbefore, hbehind⟩ := h.notMem_rest
  rcases Nat.lt_trichotomy j i with hlt | heq | hgt
  · refine absurd (mem_keys.mpr ⟨w, ?_⟩) hbefore
    exact List.mem_of_getElem? ((List.getElem?_take_of_lt hlt).trans hj)
  · exact heq.symm
  · refine absurd (mem_keys.mpr ⟨w, ?_⟩) hbehind
    refine List.mem_of_getElem? (i := j - (i + 1)) ?_
    rw [List.getElem?_drop, show i + 1 + (j - (i + 1)) = j from by omega]
    exact hj

/-- One slot changes, from free or the key `k` to free or the key `k`, where no other slot holds `k`; the map changes alike. -/
theorem change {x y : Option (K × V)} {m' : Finmap (fun _ : K => V)} (h : Represents (a ++ x :: b) m)
    (hk : k ∉ keys a ∧ k ∉ keys b) (hx : ∀ kv, x = some kv → kv.1 = k) (hy : ∀ kv, y = some kv → kv.1 = k)
    (hself : m'.lookup k = y.map Prod.snd) (hother : ∀ k', k' ≠ k → m'.lookup k' = m.lookup k') :
    Represents (a ++ y :: b) m' := by
  have hrest : (keys a ++ keys b).Nodup := by
    refine h.nodup.sublist ?_
    rw [keys_append]
    refine List.Sublist.append_left ?_ _
    cases x with
    | none => exact List.Sublist.refl _
    | some kv => exact List.sublist_cons_self _ _
  constructor
  · rw [keys_append]
    cases y with
    | none => exact hrest
    | some kv =>
      rw [keys_cons_some, hy kv rfl]
      refine List.perm_middle.nodup_iff.mpr (List.nodup_cons.mpr ⟨?_, hrest⟩)
      rw [List.mem_append, not_or]
      exact hk
  · intro k' v'
    have hold := h.mem_iff k' v'
    rw [List.mem_append, List.mem_cons] at hold ⊢
    by_cases hk' : k' = k
    · subst hk'
      have ha : some (k', v') ∉ a := fun hm => hk.1 (mem_keys.mpr ⟨v', hm⟩)
      have hb : some (k', v') ∉ b := fun hm => hk.2 (mem_keys.mpr ⟨v', hm⟩)
      rw [hself]
      cases y with
      | none => simp [ha, hb]
      | some kv =>
        obtain ⟨k₀, v₀⟩ := kv
        have hk₀ : k₀ = k' := hy _ rfl
        simp [ha, hb, hk₀, eq_comm]
    · have hnx : some (k', v') ≠ x := fun e => hk' (hx _ e.symm)
      have hny : some (k', v') ≠ y := fun e => hk' (hy _ e.symm)
      rw [hother k' hk', ← hold]
      simp [hnx, hny]

/-- Writing a value into the slot of its key. -/
theorem replace (h : Represents (a ++ some (k, v) :: b) m) (w : V) : Represents (a ++ some (k, w) :: b) (m.insert k w) :=
  h.change h.notMem_rest (fun _ e => by cases e; rfl) (fun _ e => by cases e; rfl) (Finmap.lookup_insert m)
    (fun _ hne => Finmap.lookup_insert_of_ne m hne)

/-- Filling a free slot with a new key. -/
theorem fill (h : Represents (a ++ none :: b) m) (hk : k ∉ m) (v : V) :
    Represents (a ++ some (k, v) :: b) (m.insert k v) := by
  have hkeys : k ∉ keys a ∧ k ∉ keys b := by
    rwa [← h.mem_keys_iff, keys_append, keys_cons_none, List.mem_append, not_or] at hk
  exact h.change hkeys (fun _ e => by nomatch e) (fun _ e => by cases e; rfl) (Finmap.lookup_insert m)
    (fun _ hne => Finmap.lookup_insert_of_ne m hne)

/-- Freeing the slot of a key. -/
theorem clear (h : Represents (a ++ some (k, v) :: b) m) : Represents (a ++ none :: b) (m.erase k) :=
  h.change h.notMem_rest (fun _ e => by cases e; rfl) (fun _ e => by nomatch e) (Finmap.lookup_erase k m)
    (fun _ hne => Finmap.lookup_erase_ne hne)

end Represents

end SlotTable

namespace BoundedMap

variable {K V : Type*} [DecidableEq K]

/-- The operations of a bounded map. -/
inductive Op (K V : Type*) where
  | put (key : K) (value : V)
  | get (key : K)
  | del (key : K)
  deriving DecidableEq

/-- What an operation answers: whether the pair was put, the value if the key is held, whether the key was held. -/
inductive Answer (V : Type*) where
  | put (ok : Bool)
  | get (value : Option V)
  | del (held : Bool)
  deriving DecidableEq

/-- An operation on a map that holds at most `capacity` keys. -/
def step (capacity : Nat) (m : Finmap (fun _ : K => V)) : Op K V → Finmap (fun _ : K => V) × Answer V
  | .put k v => if k ∈ m ∨ m.keys.card < capacity then (m.insert k v, .put true) else (m, .put false)
  | .get k => (m, .get (m.lookup k))
  | .del k => (m.erase k, .del (decide (k ∈ m)))

/-- The key an operation changes. -/
def Op.writes : Op K V → Option K
  | .put k _ => some k
  | .get _ => none
  | .del k => some k

/-- A key that is not held is not there to erase. -/
theorem erase_of_notMem {m : Finmap (fun _ : K => V)} {k : K} (hk : k ∉ m) : m.erase k = m := by
  refine Finmap.ext_lookup (fun k' => ?_)
  by_cases h : k' = k
  · subst h
    rw [Finmap.lookup_erase, Finmap.lookup_eq_none.mpr hk]
  · exact Finmap.lookup_erase_ne h

/-- An operation leaves the values of the other keys alone. -/
theorem lookup_step_ne (capacity : Nat) (m : Finmap (fun _ : K => V)) (op : Op K V) {k : K} (hk : op.writes ≠ some k) :
    (step capacity m op).1.lookup k = m.lookup k := by
  cases op with
  | put k' v =>
    have hne : k ≠ k' := fun h => hk (congrArg some h.symm)
    rw [step]
    split
    · exact Finmap.lookup_insert_of_ne m hne
    · rfl
  | get k' => rfl
  | del k' => exact Finmap.lookup_erase_ne (fun h => hk (congrArg some h.symm))

/-- What an operation leaves was there before, but for the pair it puts. -/
theorem lookup_of_lookup_step (capacity : Nat) (m : Finmap (fun _ : K => V)) (op : Op K V) {k : K} {v : V}
    (h : (step capacity m op).1.lookup k = some v) : m.lookup k = some v ∨ op = .put k v := by
  cases op with
  | put k' v' =>
    rw [step] at h
    split at h
    · by_cases hk : k = k'
      · subst hk
        rw [Finmap.lookup_insert, Option.some.injEq] at h
        exact .inr (by rw [h])
      · exact .inl ((Finmap.lookup_insert_of_ne m hk).symm.trans h)
    · exact .inl h
  | get k' => exact .inl h
  | del k' =>
    by_cases hk : k = k'
    · subst hk
      rw [step, Finmap.lookup_erase] at h
      nomatch h
    · exact .inl ((Finmap.lookup_erase_ne hk).symm.trans h)

end BoundedMap
