import OsSecurity.Lemmas.ListBuffer
import OsSecurity.Lemmas.Requests
import Mathlib.Algebra.GroupWithZero.Nat

/-!
# Helpers about `LIST`

`store_list` writes the keys behind each other into a buffer that it does not clear. While they fit, the buffer holds them all;
what it held before shows only when there is no key to write. The line made of the keys comes apart again, because no key has
white space.
-/

namespace OsSecurity.Server

open CLib SlotTable

/-- The whole answer to `LIST` for the given keys. -/
def listLine (ks : List CString) : List UInt8 := bytes "OK LIST " ++ bytes (toString ks.length) ++ bytes " " ++ listText ks

/-- The length of the answer to `LIST` for the given keys, without the newline. -/
def listLength (ks : List CString) : Nat := 9 + (toString ks.length).length + (ks.map (fun k => k.length + 1)).sum

namespace ListAux

open HandlerAux ListBufferAux

variable {es : List StoreEntry} {out out' : List UInt8} {count : Nat}

/-! ## The loop of `store_list` -/

/-- Without a key the buffer stays as it was. -/
theorem listLoop_nil (bufSize offset : UInt64) (h : storedKeys es = []) : listLoop bufSize out offset count es = (out, count) := by
  induction es with
  | nil => rfl
  | cons e es ih =>
    by_cases hused : e.used = true
    · rw [storedKeys_cons_used hused] at h
      nomatch h
    · rw [storedKeys_cons_free hused] at h
      rw [listLoop, if_neg hused, ih h]

/-- The first key overwrites the buffer from its start. -/
theorem listLoop_congr (h : storedKeys es ≠ []) :
    listLoop (UInt64.ofNat maxLine) out 0 count es = listLoop (UInt64.ofNat maxLine) out' 0 count es := by
  induction es with
  | nil => exact absurd rfl h
  | cons e es ih =>
    by_cases hused : e.used = true
    · rw [listLoop, listLoop, if_pos hused, if_pos hused]
      rfl
    · rw [storedKeys_cons_free hused] at h
      rw [listLoop, listLoop, if_neg hused, if_neg hused, ih h]

/-- What `store_list` leaves in the buffer when the keys fit. -/
theorem storeList_fits {store : Store} (keys : CharArray maxLine) (hne : storedKeys store.entries ≠ [])
    (hfit : (listText (storedKeys store.entries)).length < maxLine) :
    storeList store keys.str.bytes (UInt64.ofNat maxLine) =
      (listText (storedKeys store.entries), (storedKeys store.entries).length) := by
  have hsize : (UInt64.ofNat maxLine).toNat = maxLine := rfl
  have hend : ListEnd keys.bytes (UInt64.ofNat maxLine) store.entries (storeListMem store keys.bytes (UInt64.ofNat maxLine)) :=
    storeListMem_end store keys.bytes (by decide)
  have hwhole : (listText (storedKeys store.entries)).take (maxLine - 1) = listText (storedKeys store.entries) :=
    List.take_of_length_le (Nat.le_sub_one_of_lt hfit)
  calc storeList store keys.str.bytes (UInt64.ofNat maxLine)
      = (cstr (storeListMem store keys.bytes (UInt64.ofNat maxLine)).mem,
          (storeListMem store keys.bytes (UInt64.ofNat maxLine)).count) := storeList_eq store keys.bytes (by decide)
    _ = (listText (storedKeys store.entries), (storedKeys store.entries).length) := by
      rw [hend.mem, cstr_listed hne, hend.count hfit, hsize, hwhole]

/-! ## The line -/

variable {ks : List CString}

/-- Each key takes its length and a blank. -/
theorem length_listText (ks : List CString) : (listText ks).length = (ks.map (fun k => k.length + 1)).sum := by
  induction ks with
  | nil => rfl
  | cons k ks ih =>
    have hblank : (bytes " ").length = 1 := rfl
    rw [listText_cons, List.length_append, List.length_append, hblank, ih, List.map_cons, List.sum_cons]
    rfl

/-- A text of the source has one byte for each character. -/
theorem length_bytes (s : String) : (bytes s).length = s.length := by
  rw [bytes, List.length_map, String.length_toList]

/-- The length of the whole line. -/
theorem length_listLine (ks : List CString) : (listLine ks).length = listLength ks := by
  rw [listLine, List.length_append, List.length_append, List.length_append, length_bytes, length_bytes, length_bytes, length_listText,
    listLength]
  have h : "OK LIST ".length = 8 := rfl
  have h' : " ".length = 1 := rfl
  omega

/-- A decimal has no white space. -/
theorem noSpace_toString (n : Nat) : ∀ c ∈ bytes (toString n), isSpace c = false := by
  intro c hc
  rw [bytes, List.mem_map] at hc
  obtain ⟨d, hd, rfl⟩ := hc
  have hdigit : d ∈ Nat.toDigits 10 n := by
    rwa [show toString n = String.ofList (Nat.toDigits 10 n) from rfl, String.toList_ofList] at hd
  have h := Nat.isDigit_of_mem_toDigits (by decide) (by decide) hdigit
  refine isSpace_of_lt ?_
  rw [Char.isDigit, Bool.and_eq_true, decide_eq_true_eq, decide_eq_true_eq] at h
  obtain ⟨hlow, hhigh⟩ := h
  have h1 : 48 ≤ d.toNat := UInt32.le_iff_toNat_le.mp hlow
  have h2 : d.toNat ≤ 57 := UInt32.le_iff_toNat_le.mp hhigh
  rw [UInt8.lt_iff_toNat_lt, UInt8.toNat_ofNat_of_lt' (Nat.lt_of_le_of_lt h2 (by decide))]
  exact Nat.lt_of_lt_of_le (by decide) h1

/-- A line of keys has no white space but blanks. -/
theorem notMem_listLine (hks : ∀ k ∈ ks, ∀ b ∈ k.bytes, isSpace b = false) {c : UInt8} (hc : isSpace c = true)
    (hok : c ∉ bytes "OK LIST ") (hblank : c ∉ bytes " ") : c ∉ listLine ks := by
  have htext : c ∉ listText ks := by
    rw [listText, List.mem_flatMap]
    rintro ⟨k, hk, hmem⟩
    rcases List.mem_append.mp hmem with hmem | hmem
    · exact notMem_of_forall (hks k hk) hc hmem
    · exact hblank hmem
  rw [listLine, List.mem_append, List.mem_append, List.mem_append, not_or, not_or, not_or]
  exact ⟨⟨⟨hok, notMem_of_forall (noSpace_toString _) hc⟩, hblank⟩, htext⟩

/-- Keys without blanks are told apart again. -/
theorem splitOn_listText (hks : ∀ k ∈ ks, ∀ b ∈ k.bytes, isSpace b = false) :
    (listText ks).splitOn 32 = ks.map (·.bytes) ++ [[]] := by
  induction ks with
  | nil => rfl
  | cons k ks ih =>
    have hcut : listText (k :: ks) = k.bytes ++ 32 :: listText ks := by
      rw [listText_cons, List.append_assoc]
      rfl
    rw [hcut, List.splitOn_append_cons_self_of_not_mem (notMem_of_forall (hks k List.mem_cons_self) rfl),
      ih (fun k' hk' => hks k' (List.mem_cons_of_mem k hk'))]
    rfl

/-- Split at the blanks, the line is the two words of the answer, the number and the keys. -/
theorem splitOn_listLine (hks : ∀ k ∈ ks, ∀ b ∈ k.bytes, isSpace b = false) :
    (listLine ks).splitOn 32 = bytes "OK" :: bytes "LIST" :: bytes (toString ks.length) :: (ks.map (·.bytes) ++ [[]]) := by
  have hcut : listLine ks = bytes "OK" ++ 32 :: (bytes "LIST" ++ 32 :: (bytes (toString ks.length) ++ 32 :: listText ks)) := by
    rw [listLine, List.append_assoc, List.append_assoc]
    rfl
  rw [hcut, List.splitOn_append_cons_self_of_not_mem (by decide), List.splitOn_append_cons_self_of_not_mem (by decide),
    List.splitOn_append_cons_self_of_not_mem (notMem_of_forall (noSpace_toString _) rfl), splitOn_listText hks]

/-! ## The turn of a `LIST` -/

/-- The stored keys are those of the slots. -/
theorem storedKeys_eq (s : Store) : storedKeys s.entries = keys s.slots := by
  rw [Store.slots]
  generalize s.entries = es
  induction es with
  | nil => rfl
  | cons e es ih =>
    by_cases hused : e.used = true
    · rw [storedKeys_cons_used hused, List.map_cons, StoreAux.slot_of_used hused, keys_cons_some, ih]
    · rw [storedKeys_cons_free hused, List.map_cons, StoreAux.slot_of_not_used (Bool.eq_false_iff.mpr hused), keys_cons_none, ih]

/-- The keys of a store that the server reaches are distinct and have no white space. -/
theorem storedKeys_reachable {s : State} (hs : Reachable s) :
    (storedKeys s.store.entries).Nodup ∧ ∀ k ∈ storedKeys s.store.entries, ∀ b ∈ k.bytes, isSpace b = false := by
  obtain ⟨inputs, before, rfl⟩ := hs
  obtain ⟨m, hm, hpairs⟩ := exists_represents_put handleClient_put ⟨∅, init_represents inputs, fun k v hv => by simp at hv⟩ before
  rw [storedKeys_eq]
  refine ⟨hm.nodup, fun k hk => ?_⟩
  obtain ⟨v, hv⟩ := Finmap.mem_iff.mp (hm.mem_keys_iff.mp hk)
  exact (hpairs k v hv).1

/-- The reply with what `store_list` wrote into the buffer. -/
theorem handleList_reply {store : Store} {keys : CharArray maxLine} {text : List UInt8} {count : Nat} (c : Conn)
    (hlist : storeList store keys.str.bytes (UInt64.ofNat maxLine) = (text, count)) :
    (handleList store c keys).reply = sendLine ((bytes "OK LIST " ++ bytes (toString count) ++ bytes " " ++ text).take (maxLine + 31)) := by
  rw [handleList, hlist]

/-- When the keys fit, the whole line is sent as long as it fits the buffer of `send_line`. -/
theorem handleList_fits {store : Store} (c : Conn) (keys : CharArray maxLine) (hne : storedKeys store.entries ≠ [])
    (hfit : listLength (storedKeys store.entries) ≤ maxLine) :
    (handleList store c keys).reply = listLine (storedKeys store.entries) ++ [10] := by
  have hline := length_listLine (storedKeys store.entries)
  have htext : (listText (storedKeys store.entries)).length < maxLine := by
    rw [length_listText]
    rw [listLength] at hfit
    omega
  have hlist := storeList_fits keys hne htext
  have hcut : (listLine (storedKeys store.entries)).take (maxLine + 31) = listLine (storedKeys store.entries) := by
    refine List.take_of_length_le ?_
    omega
  rw [handleList_reply c hlist, ← listLine, hcut, sendLine, List.take_of_length_le]
  rw [List.length_append, List.length_singleton]
  omega

/-- The turn of a `LIST`. -/
theorem step_list {s : State} {t : Turn} {r : Request} (hp : (s.conn t.client).pending = some r) (hcmd : r.cmd = cstring "LIST")
    (hauth : (s.conn t.client).authenticated = true) : ∃ c, (step s t).2.reply = (handleList s.store c t.keys).reply := by
  rcases handleClient_cases (s.conn t.client) with ⟨line, input, hline, h⟩ | ⟨hnone, -⟩
  · obtain rfl := Option.some.inj (hp.symm.trans hline)
    have h := h s.store t.keys
    rw [handleRequest_of_list (c := { s.conn t.client with input := input }) hauth hcmd] at h
    exact ⟨{ s.conn t.client with input := input }, by rw [step, h]⟩
  · exact absurd (hnone.symm.trans hp) (Option.some_ne_none r).symm

/-! ## What the buffer for the keys held -/

/-- With a key in the store the old content of the buffer does not matter to `LIST`. -/
theorem handleList_congr {store : Store} (h : storedKeys store.entries ≠ []) (c : Conn) (keys keys' : CharArray maxLine) :
    handleList store c keys = handleList store c keys' := by
  have hlist : storeList store keys.str.bytes (UInt64.ofNat maxLine) = storeList store keys'.str.bytes (UInt64.ofNat maxLine) :=
    listLoop_congr h
  rw [handleList, handleList, hlist]

/-- Only a `LIST` of an empty store looks at the buffer. -/
theorem handleRequest_congr {store : Store} {c : Conn} {keys : CharArray maxLine} {r : Request}
    (h : (handleRequest store c keys r).access = some .list → storedKeys store.entries ≠ []) (keys' : CharArray maxLine) :
    handleRequest store c keys r = handleRequest store c keys' r := by
  unfold handleRequest at h ⊢
  split_ifs at h ⊢
  · rfl
  · rfl
  · rfl
  · rfl
  · rfl
  · exact handleList_congr (h rfl) c keys keys'
  · rfl
  · rfl

/-- With a key in the store the old content of the buffer does not matter to a turn. -/
theorem step_congr {s : State} {t t' : Turn} (hclient : t.client = t'.client)
    (h : (step s t).2.access = some .list → storedKeys s.store.entries ≠ []) : step s t = step s t' := by
  have hserved : handleClient s.store (s.conn t.client) t.keys = handleClient s.store (s.conn t.client) t'.keys := by
    rcases handleClient_cases (s.conn t.client) with ⟨line, input, -, hreq⟩ | ⟨-, c', reply, -, -, hreq⟩
    · rw [step] at h
      simp only [hreq] at h ⊢
      exact handleRequest_congr h t'.keys
    · rw [hreq, hreq]
  rw [step, step, ← hclient, hserved]

end ListAux

end OsSecurity.Server
