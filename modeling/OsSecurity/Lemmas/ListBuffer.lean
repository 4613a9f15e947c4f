import OsSecurity.Server.Store

/-!
# Helpers about the buffer of `store_list`

What the loop has written is the text of the keys so far, cut to the buffer: as long as it fits, `offset` is its length, and the
`snprintf` that cuts it is the last one.
-/

namespace OsSecurity.Server

open CLib Loops

/-- The keys of the used slots, in slot order. -/
def storedKeys (es : List StoreEntry) : List CString := (es.filter (·.used)).map (·.key.str)

/-- Keys as `LIST` shows them: each with a blank behind it. -/
def listText (ks : List CString) : List UInt8 := ks.flatMap (fun k => k.bytes ++ bytes " ")

/-- A memory area behind a `store_list` of the given keys into its first `n` bytes. -/
def listed (mem : List UInt8) (n : Nat) (ks : List CString) : List UInt8 :=
  if ks = [] then mem else overwrite mem 0 ((listText ks).take (n - 1) ++ [0])

namespace ListBufferAux

variable {mem : List UInt8} {bufSize : UInt64} {v : ListVars} {e : StoreEntry} {es : List StoreEntry} {ks : List CString} {k : CString}
  {n : Nat}

theorem storedKeys_cons_used (h : e.used = true) (es : List StoreEntry) : storedKeys (e :: es) = e.key.str :: storedKeys es := by
  rw [storedKeys, List.filter_cons_of_pos h, List.map_cons]
  rfl

theorem storedKeys_cons_free (h : ¬ e.used = true) (es : List StoreEntry) : storedKeys (e :: es) = storedKeys es := by
  rw [storedKeys, List.filter_cons_of_neg h]
  rfl

theorem storedKeys_append (es es' : List StoreEntry) : storedKeys (es ++ es') = storedKeys es ++ storedKeys es' := by
  rw [storedKeys, List.filter_append, List.map_append]
  rfl

theorem listText_cons (k : CString) (ks : List CString) : listText (k :: ks) = k.bytes ++ bytes " " ++ listText ks := rfl

theorem listText_append (ks ks' : List CString) : listText (ks ++ ks') = listText ks ++ listText ks' := List.flatMap_append

theorem listText_singleton (k : CString) : listText [k] = k.bytes ++ bytes " " := by
  rw [listText_cons]
  exact List.append_nil _

theorem zero_notMem_listText (ks : List CString) : 0 ∉ listText ks := by
  rw [listText, List.mem_flatMap]
  rintro ⟨k, -, hmem⟩
  rcases List.mem_append.mp hmem with hmem | hmem
  · exact k.noNul hmem
  · exact absurd hmem (by decide)

/-! ## What is written -/

/-- The keys behind one that was cut change nothing. -/
theorem listed_cut (hcut : n ≤ (listText ks).length + 1) (hne : ks ≠ []) (ks' : List CString) :
    listed mem n (ks ++ ks') = listed mem n ks := by
  have hne' : ks ++ ks' ≠ [] := List.append_ne_nil_of_left_ne_nil hne ks'
  have htake : (listText (ks ++ ks')).take (n - 1) = (listText ks).take (n - 1) := by
    rw [listText_append, List.take_append_of_le_length (Nat.sub_le_iff_le_add.mpr hcut)]
  rw [listed, listed, if_neg hne, if_neg hne', htake]

/-- A key that is written behind the text of others, while that fits. -/
theorem overwrite_listed (hfit : (listText ks).length < n) :
    overwrite (listed mem n ks) (listText ks).length ((listText [k]).take (n - (listText ks).length - 1) ++ [0]) =
      listed mem n (ks ++ [k]) := by
  have hne : ks ++ [k] ≠ [] := List.append_ne_nil_of_right_ne_nil ks (List.cons_ne_nil k [])
  have hwhole : (listText ks).take (n - 1) = listText ks := List.take_of_length_le (Nat.le_sub_one_of_lt hfit)
  have hroom : n - 1 - (listText ks).length = n - (listText ks).length - 1 := Nat.sub_right_comm n 1 _
  have htake : (listText (ks ++ [k])).take (n - 1) = listText ks ++ (listText [k]).take (n - (listText ks).length - 1) := by
    rw [listText_append, List.take_append, hwhole, hroom]
  rw [listed, listed, if_neg hne, htake]
  by_cases hks : ks = []
  · subst hks
    rw [if_pos rfl]
    rfl
  · rw [if_neg hks, hwhole, overwrite_append _ _ (List.append_ne_nil_of_right_ne_nil _ (List.cons_ne_nil 0 [])), List.append_assoc]

/-- The string in the buffer. -/
theorem cstr_listed (hne : ks ≠ []) : cstr (listed mem n ks) = (listText ks).take (n - 1) := by
  rw [listed, if_neg hne]
  exact cstr_overwrite (Nat.zero_le _) (fun h => zero_notMem_listText ks (List.mem_of_mem_take h))

theorem length_written (hn : 0 < n) (ks : List CString) : ((listText ks).take (n - 1) ++ [0]).length ≤ n := by
  rw [List.length_append, List.length_take, List.length_singleton]
  omega

/-- Behind the buffer nothing is written. -/
theorem length_listed (hn : 0 < n) (hmem : n ≤ mem.length) (ks : List CString) : (listed mem n ks).length = mem.length := by
  unfold listed
  by_cases hks : ks = []
  · rw [if_pos hks]
  · rw [if_neg hks]
    refine length_overwrite ?_
    have hwritten := length_written hn ks
    omega

theorem drop_listed (hn : 0 < n) (ks : List CString) : (listed mem n ks).drop n = mem.drop n := by
  unfold listed
  by_cases hks : ks = []
  · rw [if_pos hks]
  · rw [if_neg hks]
    refine drop_overwrite (Nat.zero_le _) ?_
    have hwritten := length_written hn ks
    omega

/-! ## The loop -/

/-- The variables of `store_list` where the texts of the slots passed fit the buffer. -/
structure ListInv (mem : List UInt8) (bufSize : UInt64) (passed : List StoreEntry) (v : ListVars) : Prop where
  mem : v.mem = listed mem bufSize.toNat (storedKeys passed)
  count : v.count = (storedKeys passed).length
  offset : v.offset.toNat = (listText (storedKeys passed)).length
  fits : v.offset < bufSize

/-- Its variables behind the loop. -/
structure ListEnd (mem : List UInt8) (bufSize : UInt64) (es : List StoreEntry) (v : ListVars) : Prop where
  mem : v.mem = listed mem bufSize.toNat (storedKeys es)
  count : (listText (storedKeys es)).length < bufSize.toNat → v.count = (storedKeys es).length

/-- The room behind the offset does not wrap. -/
theorem room_eq {bufSize offset : UInt64} (h : offset < bufSize) : (bufSize - offset).toNat = bufSize.toNat - offset.toNat :=
  UInt64.toNat_sub_of_le _ _ (UInt64.le_of_lt h)

theorem ofInt_natCast (n : Nat) : UInt64.ofInt n = UInt64.ofNat n := by
  have hint : ((n : Int) % 2 ^ 64).toNat = n % 2 ^ 64 := by omega
  rw [UInt64.ofInt, hint]
  exact UInt64.ofNat_mod_size

/-- The value that `snprintf` returns for a key, as a `size_t`. -/
theorem toNat_length (k : CharArray maxKey) : (UInt64.ofNat (listText [k.str]).length).toNat = (listText [k.str]).length := by
  have hkey : k.str.bytes.length ≤ maxKey := (cstr_length_le k.bytes).trans (Nat.le_of_eq k.size)
  have hblank : (bytes " ").length = 1 := rfl
  have hlen : (listText [k.str]).length ≤ maxKey + 1 := by
    rw [listText_singleton, List.length_append, hblank]
    exact Nat.succ_le_succ hkey
  exact UInt64.toNat_ofNat_of_lt' (Nat.lt_of_le_of_lt hlen (by decide))

/-- The test behind `snprintf`, in numbers. -/
theorem cut_iff {bufSize offset : UInt64} (h : offset < bufSize) (k : CharArray maxKey) :
    bufSize - offset ≤ UInt64.ofNat (listText [k.str]).length ↔ bufSize.toNat - offset.toNat ≤ (listText [k.str]).length := by
  rw [UInt64.le_iff_toNat_le, room_eq h, toNat_length]

theorem listBody_free (h : ¬ e.used = true) : listBody bufSize v e = .yield v := if_neg h

/-- What the body does with a used slot, while the offset is in the buffer. -/
theorem listBody_used (hused : e.used = true) (hoffset : v.offset < bufSize) :
    listBody bufSize v e =
      let text := listText [e.key.str]
      let room := bufSize.toNat - v.offset.toNat
      let mem := overwrite v.mem v.offset.toNat (text.take (room - 1) ++ [0])
      if room ≤ text.length then .done { v with mem := mem, count := v.count + 1 }
      else .yield { mem := mem, count := v.count + 1, offset := v.offset + UInt64.ofNat text.length } := by
  have hroom := room_eq hoffset
  have hpos : ¬ bufSize.toNat - v.offset.toNat = 0 := Nat.sub_ne_zero_of_lt (UInt64.lt_iff_toNat_lt.mp hoffset)
  have hneg : ¬ ((listText [e.key.str]).length : Int) < 0 := Int.not_lt.mpr (Int.natCast_nonneg _)
  rw [listBody, if_pos hused, ← listText_singleton]
  simp only [snprintf, hroom, if_neg hpos, or_iff_right hneg, ofInt_natCast, cut_iff hoffset e.key]

/-- The next offset does not wrap where the text fits. -/
theorem toNat_offset (hcut : ¬ bufSize.toNat - v.offset.toNat ≤ (listText [e.key.str]).length) :
    (v.offset + UInt64.ofNat (listText [e.key.str]).length).toNat = v.offset.toNat + (listText [e.key.str]).length := by
  have hmax := bufSize.toNat_lt
  rw [UInt64.toNat_add, toNat_length, Nat.mod_eq_of_lt (by omega)]

/-- The body keeps the invariant, or ends the loop with the keys cut. -/
theorem listBody_keeps {passed rest : List StoreEntry} (h : ListInv mem bufSize passed v) :
    Keeps (ListInv mem bufSize (passed ++ [e])) (ListEnd mem bufSize (passed ++ e :: rest)) (listBody bufSize v e) := by
  by_cases hused : e.used = true
  · have hpassed : storedKeys (passed ++ [e]) = storedKeys passed ++ [e.key.str] := by
      rw [storedKeys_append, storedKeys_cons_used hused]
      rfl
    have hlength : (listText (storedKeys passed ++ [e.key.str])).length = v.offset.toNat + (listText [e.key.str]).length := by
      rw [listText_append, List.length_append, h.offset]
    have hfits := UInt64.lt_iff_toNat_lt.mp h.fits
    -- the text so far, cut to the buffer
    have hmem : overwrite v.mem v.offset.toNat ((listText [e.key.str]).take (bufSize.toNat - v.offset.toNat - 1) ++ [0]) =
        listed mem bufSize.toNat (storedKeys passed ++ [e.key.str]) := by
      rw [h.mem, h.offset]
      exact overwrite_listed (h.offset ▸ hfits)
    rw [listBody_used hused h.fits]
    simp only [hmem]
    by_cases hcut : bufSize.toNat - v.offset.toNat ≤ (listText [e.key.str]).length
    · rw [if_pos hcut]
      have hall : storedKeys (passed ++ e :: rest) = storedKeys passed ++ [e.key.str] ++ storedKeys rest := by
        rw [List.append_cons, storedKeys_append, hpassed]
      constructor
      · rw [hall]
        refine (listed_cut ?_ (List.append_ne_nil_of_right_ne_nil _ (List.cons_ne_nil _ [])) _).symm
        omega
      · intro hlt
        rw [hall, listText_append, List.length_append] at hlt
        omega
    · rw [if_neg hcut]
      have hnext := toNat_offset (e := e) hcut
      refine ⟨by rw [hpassed], ?_, ?_, ?_⟩
      · rw [hpassed, List.length_append, h.count]
        rfl
      · rw [hpassed, hlength]
        exact hnext
      · rw [UInt64.lt_iff_toNat_lt]
        dsimp only
        rw [hnext]
        omega
  · have hpassed : storedKeys (passed ++ [e]) = storedKeys passed := by
      rw [storedKeys_append, storedKeys_cons_free hused]
      exact List.append_nil _
    rw [listBody_free hused]
    exact ⟨hpassed ▸ h.mem, hpassed ▸ h.count, hpassed ▸ h.offset, h.fits⟩

theorem listInv_start (hsize : 0 < bufSize) (mem : List UInt8) :
    ListInv mem bufSize [] { mem := mem, count := 0, offset := 0 } := ⟨rfl, rfl, rfl, hsize⟩

/-- Behind the loop the buffer holds the text of all keys, cut to it. -/
theorem storeListMem_end (s : Store) (mem : List UInt8) (hsize : 0 < bufSize) :
    ListEnd mem bufSize s.entries (storeListMem s mem bufSize) :=
  final_rule (fun _ _ _ _ has h => has ▸ listBody_keeps h) (fun _ h => ⟨h.mem, fun _ => h.count⟩) (listInv_start hsize mem)

/-- The offset is in the buffer at the start of each iteration. -/
theorem storeListHeads_inv (s : Store) (mem : List UInt8) (hsize : 0 < bufSize) :
    ∀ v ∈ storeListHeads s mem bufSize, ∃ passed, ListInv mem bufSize passed v :=
  heads_rule (Q := ListEnd mem bufSize s.entries) (fun _ _ _ _ has h => has ▸ listBody_keeps h) (listInv_start hsize mem)

/-! ## The string in the buffer -/

/-- The loop on the string that the buffer holds goes as the one on the memory. -/
theorem listLoop_eq (hoffset : v.offset < bufSize) (hle : v.offset.toNat ≤ (cstr v.mem).length) :
    listLoop bufSize (cstr v.mem) v.offset v.count es =
      (cstr (final (listBody bufSize) v es).mem, (final (listBody bufSize) v es).count) := by
  induction es generalizing v with
  | nil => rfl
  | cons e es ih =>
    by_cases hused : e.used = true
    · have hroom := room_eq hoffset
      have hfits := UInt64.lt_iff_toNat_lt.mp hoffset
      have hzero : ¬ bufSize - v.offset = 0 := by
        intro h
        rw [h, UInt64.toNat_zero] at hroom
        omega
      have hstr := cstr_overwrite (s := (listText [e.key.str]).take (bufSize.toNat - v.offset.toNat - 1)) hle
        (fun h => zero_notMem_listText _ (List.mem_of_mem_take h))
      rw [listLoop, if_pos hused, ← listText_singleton, final, listBody_used hused hoffset]
      simp only [if_neg hzero, hroom, ← hstr, cut_iff hoffset e.key]
      generalize overwrite v.mem _ _ = mem at hstr ⊢
      by_cases hlong : bufSize.toNat - v.offset.toNat ≤ (listText [e.key.str]).length
      · rw [if_pos hlong, if_pos hlong]
      · rw [if_neg hlong, if_neg hlong]
        have hnext := toNat_offset (e := e) hlong
        refine ih (v := { mem := mem, count := _, offset := _ }) ?_ ?_
        · rw [UInt64.lt_iff_toNat_lt]
          dsimp only
          rw [hnext]
          omega
        · dsimp only
          rw [hstr, hnext, List.length_append, List.length_take, List.length_take]
          omega
    · rw [listLoop, if_neg hused, final, listBody_free hused]
      exact ih hoffset hle

/-- So `store_list` on the string in the buffer is `store_list` on the memory. -/
theorem storeList_eq (s : Store) (mem : List UInt8) (hsize : 0 < bufSize) :
    storeList s (cstr mem) bufSize = (cstr (storeListMem s mem bufSize).mem, (storeListMem s mem bufSize).count) :=
  listLoop_eq (v := { mem := mem, count := 0, offset := 0 }) hsize (Nat.zero_le _)

end ListBufferAux

end OsSecurity.Server
