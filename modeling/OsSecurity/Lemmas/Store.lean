import OsSecurity.Server.Store
import OsSecurity.Lib.Cut

/-!
# Helpers about the store

The scans of the store's operations, and what each operation does to the table of slots (`Store.slots`). A key longer than its
field would be cut, so the refinement of the operations is stated for keys and values that fit.
-/

namespace OsSecurity.Server

open CLib SlotTable

/-- What a slot holds. -/
def StoreEntry.slot (e : StoreEntry) : Option (CString × CString) := if e.used then some (e.key.str, e.value.str) else none

/-- The store as a table of slots. -/
def Store.slots (s : Store) : List (Option (CString × CString)) := s.entries.map StoreEntry.slot

/-- The store has a place for a key: a slot that holds it, or a free one. -/
def Store.HasRoom (s : Store) (key : CString) : Prop := ∃ e ∈ s.entries, e.holds key = true ∨ e.used = false

/-- The keys and values of a call fit their fields. -/
def Fits : StoreCall → Prop
  | .put key value => key.length < maxKey ∧ value.length < maxValue
  | .get key => key.length < maxKey
  | .del key => key.length < maxKey

namespace StoreAux

/-- There are as many slots as entries. -/
theorem slots_length (s : Store) : s.slots.length = maxStore := by
  rw [Store.slots, List.length_map, s.size]

/-! ## Slots and scans -/

/-- A used entry is a slot with its key and its value. -/
theorem slot_of_used {e : StoreEntry} (h : e.used = true) : e.slot = some (e.key.str, e.value.str) := if_pos h

theorem slot_of_not_used {e : StoreEntry} (h : e.used = false) : e.slot = none := by
  rw [StoreEntry.slot, h]
  rfl

/-- A slot holds a key when it is used and its key field holds that string. -/
theorem holds_iff (e : StoreEntry) (key : CString) : e.holds key = true ↔ e.used = true ∧ e.key.str = key := by
  rw [StoreEntry.holds, Bool.and_eq_true, beq_iff_eq, strcmp_eq_zero_iff, cstr_bytes, CString.ext_iff]
  rfl

/-- No slot holds a key exactly when it is not among the keys of the table. -/
theorem notMem_keys_iff (es : List StoreEntry) (key : CString) :
    key ∉ keys (es.map StoreEntry.slot) ↔ ∀ e ∈ es, ¬ e.holds key = true := by
  rw [mem_keys]
  constructor
  · intro h e he hh
    obtain ⟨hu, hk⟩ := (holds_iff e key).mp hh
    refine h ⟨e.value.str, List.mem_map.mpr ⟨e, he, ?_⟩⟩
    rw [slot_of_used hu, hk]
  · rintro h ⟨v, hv⟩
    obtain ⟨e, he, hs⟩ := List.mem_map.mp hv
    cases hu : e.used with
    | false => rw [slot_of_not_used hu] at hs; nomatch hs
    | true =>
      rw [slot_of_used hu, Option.some.injEq, Prod.mk.injEq] at hs
      exact h e he ((holds_iff e key).mpr ⟨hu, hs.1⟩)

/-- The loop of `store_put` finds the first slot of the key; if there is none, the first free slot. -/
theorem scanPut_eq (key : CString) (i : Nat) (freeSlot : Option Nat) (es : List StoreEntry) :
    scanPut key i freeSlot es =
      match es.findIdx? (·.holds key) with
      | some j => .found (i + j)
      | none => .notFound (freeSlot.or ((es.findIdx? (!·.used)).map (i + ·))) := by
  induction es generalizing i freeSlot with
  | nil => simp [scanPut]
  | cons e es ih =>
    rw [scanPut, List.findIdx?_cons]
    cases hh : e.holds key with
    | true => simp
    | false =>
      simp only [Bool.false_eq_true, if_false, ih]
      cases hf : es.findIdx? (·.holds key) with
      | some j =>
        simp only [Option.map_some]
        rw [show i + 1 + j = i + (j + 1) from by omega]
      | none =>
        simp only [Option.map_none, List.findIdx?_cons]
        have hadd : (fun j => i + 1 + j) = (fun j => i + (j + 1)) := by
          funext j
          omega
        cases hu : e.used with
        | true => simp [hadd, Function.comp_def]
        | false => cases freeSlot <;> simp

/-- The slots after an assignment to one. -/
theorem slots_modify {s : Store} {a b : List StoreEntry} {e : StoreEntry} (hs : s.entries = a ++ e :: b)
    (f : StoreEntry → StoreEntry) :
    (s.modify a.length f).slots = a.map StoreEntry.slot ++ (f e).slot :: b.map StoreEntry.slot := by
  have he : (s.modify a.length f).entries = a ++ f e :: b := by
    rw [← Cut.modify_append, ← hs]
    rfl
  rw [Store.slots, he, List.map_append, List.map_cons]

/-- The slots around an entry. -/
theorem slots_eq {s : Store} {a b : List StoreEntry} {e : StoreEntry} (hs : s.entries = a ++ e :: b) :
    s.slots = a.map StoreEntry.slot ++ e.slot :: b.map StoreEntry.slot := by
  rw [Store.slots, hs, List.map_append, List.map_cons]

/-- A value that fits is stored whole. -/
theorem setValue_str (e : StoreEntry) {value : CString} (h : value.length < maxValue) : (e.setValue value).value.str = value := by
  have hcut : (e.setValue value).value.str = value.take (maxValue - 1) := CharArray.strncpy_set_str e.value value
  rw [hcut, CString.take_of_length_le (Nat.le_sub_one_of_lt h)]

/-- A key that fits is stored whole. -/
theorem setKey_str (e : StoreEntry) {key : CString} (h : key.length < maxKey) : (e.setKey key).key.str = key := by
  have hcut : (e.setKey key).key.str = key.take (maxKey - 1) := CharArray.strncpy_set_str e.key key
  rw [hcut, CString.take_of_length_le (Nat.le_sub_one_of_lt h)]

/-! ## The operations refine those of a bounded map -/

variable {s : Store} {m : Finmap (fun _ : CString => CString)}

/-- A key is not in the map when no slot holds it. -/
theorem notMem_iff (h : Represents s.slots m) (key : CString) : key ∉ m ↔ ∀ e ∈ s.entries, ¬ e.holds key = true := by
  rw [← h.mem_keys_iff, Store.slots, notMem_keys_iff]

/-- A key that the loop does not find is not in the map. -/
theorem notMem_of_findIdx? (h : Represents s.slots m) {key : CString} (hf : s.entries.findIdx? (·.holds key) = none) :
    key ∉ m := by
  refine (notMem_iff h key).mpr ?_
  intro e he
  rw [List.findIdx?_eq_none_iff.mp hf e he]
  exact Bool.false_ne_true

/-- There is room for the keys of the map, and for another one while it has fewer than `MAX_STORE`. -/
theorem hasRoom_iff (h : Represents s.slots m) (key : CString) : s.HasRoom key ↔ key ∈ m ∨ m.keys.card < maxStore := by
  have hheld : (∃ e ∈ s.entries, e.holds key = true) ↔ key ∈ m := by
    rw [← not_iff_not, notMem_iff h]
    simp
  have hfree : (∃ e ∈ s.entries, e.used = false) ↔ m.keys.card < maxStore := by
    rw [← slots_length s, h.card_lt_iff, Store.slots, List.mem_map]
    refine exists_congr (fun e => and_congr_right (fun _ => ?_))
    cases hu : e.used with
    | true => simp [slot_of_used hu]
    | false => simp [slot_of_not_used hu]
  rw [← hheld, ← hfree]
  constructor
  · rintro ⟨e, he, hh | hu⟩
    · exact .inl ⟨e, he, hh⟩
    · exact .inr ⟨e, he, hu⟩
  · rintro (⟨e, he, hh⟩ | ⟨e, he, hu⟩)
    · exact ⟨e, he, .inl hh⟩
    · exact ⟨e, he, .inr hu⟩

/-- `store_put` is the insertion of the bounded map: it replaces, takes the first free slot, or returns 0. -/
theorem storePut_refines (h : Represents s.slots m) {key value : CString} (hk : key.length < maxKey)
    (hv : value.length < maxValue) :
    Represents (storePut s key value).1.slots (BoundedMap.step maxStore m (.put key value)).1 ∧
      BoundedMap.Answer.put (storePut s key value).2 = (BoundedMap.step maxStore m (.put key value)).2 := by
  rw [storePut, scanPut_eq, BoundedMap.step]
  cases hf : s.entries.findIdx? (·.holds key) with
  | some j =>
    obtain ⟨a, e, b, hs, rfl, hh, -⟩ := Cut.exists_of_findIdx? hf
    obtain ⟨hu, rfl⟩ := (holds_iff e key).mp hh
    rw [slots_eq hs, slot_of_used hu] at h
    rw [if_pos (.inl h.mem_of_slot)]
    refine ⟨?_, rfl⟩
    simp only [Nat.zero_add]
    rw [slots_modify hs, slot_of_used (e := e.setValue value) hu, setValue_str e hv]
    exact h.replace value
  | none =>
    have hnot : key ∉ m := notMem_of_findIdx? h hf
    have hroom : m.keys.card < maxStore ↔ none ∈ s.slots := by
      rw [← slots_length s]
      exact h.card_lt_iff
    simp only [Option.none_or, Nat.zero_add, Option.map_id']
    cases hfree : s.entries.findIdx? (!·.used) with
    | none =>
      have hfull : ¬ (key ∈ m ∨ m.keys.card < maxStore) := by
        rw [hroom, Store.slots, List.mem_map]
        rintro (hin | ⟨e, he, hslot⟩)
        · exact hnot hin
        · have hu : e.used = true := by simpa using List.findIdx?_eq_none_iff.mp hfree e he
          exact Option.some_ne_none _ ((slot_of_used hu).symm.trans hslot)
      rw [if_neg hfull]
      exact ⟨h, rfl⟩
    | some j =>
      obtain ⟨a, e, b, hs, rfl, hu, -⟩ := Cut.exists_of_findIdx? hfree
      have hu : e.used = false := by simpa using hu
      rw [slots_eq hs, slot_of_not_used hu] at h
      have hin : key ∈ m ∨ m.keys.card < maxStore := by
        refine .inr (hroom.mpr ?_)
        rw [slots_eq hs, slot_of_not_used hu]
        exact List.mem_append_right _ List.mem_cons_self
      rw [if_pos hin]
      refine ⟨?_, rfl⟩
      have hslot : ({ (e.setKey key).setValue value with used := true } : StoreEntry).slot = some (key, value) := by
        rw [slot_of_used rfl]
        exact congrArg some (Prod.ext (setKey_str e hk) (setValue_str _ hv))
      simp only
      rw [slots_modify hs, hslot]
      exact h.fill hnot value

/-- `store_get` is the lookup. -/
theorem storeGet_refines (h : Represents s.slots m) (key : CString) : storeGet s key = m.lookup key := by
  rw [storeGet]
  cases hf : s.entries.find? (·.holds key) with
  | some e =>
    obtain ⟨hu, rfl⟩ := (holds_iff e key).mp (List.find?_some (p := fun x : StoreEntry => x.holds key) hf)
    have hmem : some (e.key.str, e.value.str) ∈ s.slots :=
      List.mem_map.mpr ⟨e, List.mem_of_find?_eq_some hf, slot_of_used hu⟩
    exact ((h.mem_iff _ _).mp hmem).symm
  | none =>
    have hnot : key ∉ m := (notMem_iff h key).mpr (List.find?_eq_none.mp hf)
    exact (Finmap.lookup_eq_none.mpr hnot).symm

/-- `store_del` is the erasure, and tells whether there was something to erase. -/
theorem storeDel_refines (h : Represents s.slots m) (key : CString) :
    Represents (storeDel s key).1.slots (m.erase key) ∧ (storeDel s key).2 = decide (key ∈ m) := by
  rw [storeDel]
  cases hf : s.entries.findIdx? (·.holds key) with
  | some j =>
    obtain ⟨a, e, b, hs, rfl, hh, -⟩ := Cut.exists_of_findIdx? hf
    obtain ⟨hu, rfl⟩ := (holds_iff e key).mp hh
    rw [slots_eq hs, slot_of_used hu] at h
    refine ⟨?_, (decide_eq_true h.mem_of_slot).symm⟩
    simp only
    rw [slots_modify hs, slot_of_not_used rfl]
    exact h.clear
  | none =>
    have hnot : key ∉ m := notMem_of_findIdx? h hf
    refine ⟨?_, (decide_eq_false hnot).symm⟩
    have herase : m.erase key = m := Finmap.ext_lookup (fun k => by
      by_cases hk : k = key
      · subst hk
        rw [Finmap.lookup_erase, Finmap.lookup_eq_none.mpr hnot]
      · rw [Finmap.lookup_erase_ne hk])
    rw [herase]
    exact h

/-- A call on the store does what the operation does on the map, and returns what it answers. -/
theorem call_refines (h : Represents s.slots m) {c : StoreCall} (hc : Fits c) :
    Represents (s.call c).1.slots (BoundedMap.step maxStore m c).1 ∧ (s.call c).2 = (BoundedMap.step maxStore m c).2 := by
  cases c with
  | put key value => exact storePut_refines h hc.1 hc.2
  | get key => exact ⟨h, congrArg BoundedMap.Answer.get (storeGet_refines h key)⟩
  | del key =>
    obtain ⟨h', hret⟩ := storeDel_refines h key
    exact ⟨h', congrArg BoundedMap.Answer.del hret⟩

/-- The store before its first call is the empty map. -/
theorem represents_empty : Represents Store.empty.slots ∅ := by
  have hs : Store.empty.slots = List.replicate maxStore none := by
    rw [Store.slots, Store.empty, List.map_replicate, slot_of_not_used rfl]
  rw [hs]
  exact Represents.empty maxStore

end StoreAux

end OsSecurity.Server
