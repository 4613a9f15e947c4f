import OsSecurity.Lemmas.ListBuffer

/-!
# The buffer of `store_list`

`buf_size - offset` is computed in `size_t`: it is right as long as `offset` is in the buffer, and what `snprintf` returns is tested
before it is added to `offset`. The buffer ends up with the text of all keys, cut to it.
-/

namespace OsSecurity.Server

open CLib ListBufferAux

/-- For every store and every buffer of at least one byte: at the start of each iteration of the loop of `store_list` the offset is in
the buffer, so `buf_size - offset` does not wrap, and the memory behind the buffer is as it was; so it is when the function returns.
When a slot is used, the string in the buffer is the text of the keys of the used slots in slot order, each with a blank behind it, cut
to `buf_size - 1` bytes; and if that text is shorter than the buffer, the number of used slots is returned. -/
theorem store_list_exact (s : Store) (mem : List UInt8) (bufSize : UInt64) (hsize : 1 ≤ bufSize) (hmem : bufSize.toNat ≤ mem.length) :
    (∀ v ∈ storeListHeads s mem bufSize,
        v.offset < bufSize ∧ v.offset.toNat + (bufSize - v.offset).toNat = bufSize.toNat ∧
          v.mem.length = mem.length ∧ v.mem.drop bufSize.toNat = mem.drop bufSize.toNat) ∧
      (storeListMem s mem bufSize).mem.length = mem.length ∧
      (storeListMem s mem bufSize).mem.drop bufSize.toNat = mem.drop bufSize.toNat ∧
      ((∃ e ∈ s.entries, e.used = true) →
        cstr (storeListMem s mem bufSize).mem = (listText (storedKeys s.entries)).take (bufSize.toNat - 1)) ∧
      ((listText (storedKeys s.entries)).length < bufSize.toNat →
        (storeListMem s mem bufSize).count = (s.entries.filter (·.used)).length) := by
  have hpos : 0 < bufSize.toNat := UInt64.le_iff_toNat_le.mp hsize
  have hsize' : 0 < bufSize := UInt64.lt_iff_toNat_lt.mpr hpos
  have hend := storeListMem_end s mem hsize'
  refine ⟨?_, ?_, ?_, ?_, ?_⟩
  · intro v hv
    obtain ⟨passed, hinv⟩ := storeListHeads_inv s mem hsize' v hv
    have hfits := UInt64.lt_iff_toNat_lt.mp hinv.fits
    refine ⟨hinv.fits, ?_, ?_, ?_⟩
    · rw [room_eq hinv.fits]
      exact Nat.add_sub_cancel' (Nat.le_of_lt hfits)
    · rw [hinv.mem, length_listed hpos hmem]
    · rw [hinv.mem, drop_listed hpos]
  · rw [hend.mem, length_listed hpos hmem]
  · rw [hend.mem, drop_listed hpos]
  · rintro ⟨e, he, hused⟩
    have hkey : e.key.str ∈ storedKeys s.entries := List.mem_map_of_mem (List.mem_filter.mpr ⟨he, hused⟩)
    rw [hend.mem, cstr_listed (List.ne_nil_of_mem hkey)]
  · intro hfit
    rw [hend.count hfit, storedKeys, List.length_map]

/-- A store with two keys. -/
def twoKeys : Store := (storePut (storePut Store.empty (cstring "ab") (cstring "1")).1 (cstring "cd") (cstring "2")).1

/-- Five bytes of six are too few for them, seven are enough. -/
theorem store_list_exact_twoKeys :
    cstr (storeListMem twoKeys (bytes "......") 5).mem = bytes "ab c" ∧
      (storeListMem twoKeys (bytes "......") 5).mem.drop 5 = bytes "." ∧
      cstr (storeListMem twoKeys (bytes ".......") 7).mem = bytes "ab cd " ∧
      (storeListMem twoKeys (bytes ".......") 7).count = 2 := by
  have hused : ∃ e ∈ twoKeys.entries, e.used = true := by decide +kernel
  have hcut := (store_list_exact twoKeys (bytes "......") 5 (by decide) (by decide)).2.2
  have hwhole := (store_list_exact twoKeys (bytes ".......") 7 (by decide) (by decide)).2.2.2
  exact ⟨(hcut.2.1 hused).trans (by decide +kernel), hcut.1, (hwhole.1 hused).trans (by decide +kernel),
    (hwhole.2 (by decide +kernel)).trans (by decide +kernel)⟩

end OsSecurity.Server
