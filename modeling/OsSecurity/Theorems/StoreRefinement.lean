import OsSecurity.Lemmas.Store
import OsSecurity.Lib.Runs

/-!
# The store refines a bounded map

Under any interleaving of the clients' calls, each of them one step, the store answers as a finite map of capacity 128 does, and
no two used slots hold the same key.
-/

namespace OsSecurity.Server

open CLib SlotTable

/-- A call by a client, on the store. -/
def storeStep (s : Store) (c : Nat × StoreCall) : Store × StoreResult := s.call c.2

/-- The same call on a finite map of capacity 128. -/
def mapStep (m : Finmap (fun _ : CString => CString)) (c : Nat × StoreCall) :
    Finmap (fun _ : CString => CString) × StoreResult := BoundedMap.step maxStore m c.2

namespace RefinementAux

/-- Runs of the same calls from a store and from the map it represents: the answers are the same, and the store after the run
represents the map after it. -/
theorem run_refines {s : Store} {m : Finmap (fun _ : CString => CString)} (h : Represents s.slots m)
    (calls : List (Nat × StoreCall)) (hcalls : ∀ c ∈ calls, Fits c.2) :
    Represents (Runs.final storeStep s calls).slots (Runs.final mapStep m calls) ∧
      (Runs.trace storeStep s calls).map (·.2) = (Runs.trace mapStep m calls).map (·.2) := by
  have hstep : ∀ (s : Store) (m : Finmap (fun _ : CString => CString)) (c : Nat × StoreCall), Fits c.2 → Represents s.slots m →
      Represents (storeStep s c).1.slots (mapStep m c).1 ∧ (storeStep s c).2 = (mapStep m c).2 :=
    fun _ _ _ hc hs => StoreAux.call_refines hs hc
  obtain ⟨hlast, htrace⟩ := Runs.simulation id id hstep h hcalls
  rw [List.map_id] at hlast htrace
  refine ⟨hlast, ?_⟩
  rw [← htrace, List.map_map]
  rfl

/-- In a table with distinct keys, two used slots that hold the same key are the same slot. -/
theorem slot_unique {s : Store} {m : Finmap (fun _ : CString => CString)} (h : Represents s.slots m) {i j : Nat}
    {e e' : StoreEntry} (hi : s.entries[i]? = some e) (hj : s.entries[j]? = some e') (hu : e.used = true)
    (hu' : e'.used = true) (hkey : strcmp e.key.bytes e'.key.bytes = 0) : i = j := by
  have hstr : e.key.str = e'.key.str := CString.ext ((strcmp_eq_zero_iff _ _).mp hkey)
  have hi' : s.slots[i]? = some (some (e.key.str, e.value.str)) := by
    rw [Store.slots, List.getElem?_map, hi, Option.map_some, StoreAux.slot_of_used hu]
  have hj' : s.slots[j]? = some (some (e.key.str, e'.value.str)) := by
    rw [Store.slots, List.getElem?_map, hj, Option.map_some, StoreAux.slot_of_used hu', hstr]
  exact h.unique hi' hj'

end RefinementAux

/-- From the empty store, every sequence of calls by any number of clients, with keys of at most 63 bytes and values of at most
399 bytes, is answered as by a finite map of capacity 128; and no two used slots of the store it leads to hold the same key. -/
theorem store_refines_map (calls : List (Nat × StoreCall)) (hcalls : ∀ c ∈ calls, Fits c.2) :
    (Runs.trace storeStep Store.empty calls).map (·.2) = (Runs.trace mapStep ∅ calls).map (·.2) ∧
      ∀ (i j : Nat) (e e' : StoreEntry), (Runs.final storeStep Store.empty calls).entries[i]? = some e →
        (Runs.final storeStep Store.empty calls).entries[j]? = some e' → e.used = true → e'.used = true →
          strcmp e.key.bytes e'.key.bytes = 0 → i = j := by
  obtain ⟨hrep, hans⟩ := RefinementAux.run_refines StoreAux.represents_empty calls hcalls
  refine ⟨hans, ?_⟩
  intro i j e e' hi hj hu hu' hkey
  exact RefinementAux.slot_unique hrep hi hj hu hu' hkey

/-- Two clients put, get and delete one key. -/
theorem store_refines_map_session :
    let calls : List (Nat × StoreCall) := [(0, .put (cstring "k") (cstring "v")), (1, .get (cstring "k")),
      (1, .del (cstring "k")), (0, .get (cstring "k"))]
    (Runs.trace storeStep Store.empty calls).map (·.2) = (Runs.trace mapStep ∅ calls).map (·.2) := by
  refine (store_refines_map _ ?_).1
  intro c hc
  simp only [List.mem_cons, List.not_mem_nil, or_false] at hc
  rcases hc with rfl | rfl | rfl | rfl
  · exact ⟨by decide, by decide⟩
  · exact (by decide : (cstring "k").length < maxKey)
  · exact (by decide : (cstring "k").length < maxKey)
  · exact (by decide : (cstring "k").length < maxKey)

end OsSecurity.Server
