import OsSecurity.Lemmas.Requests

/-!
# Requests with over-long fields

`sscanf` cuts the key and the value to the widths of its conversions before their lengths are checked, so the checks see fields that
fit. What is cut off the key becomes the front of the value.
-/

namespace OsSecurity.Server

open CLib

/-- A request with a key and, for a `PUT`, a value. -/
inductive KeyRequest where
  | put (k v : CString)
  | get (k : CString)
  | del (k : CString)

/-- Its line. -/
def KeyRequest.line : KeyRequest → List UInt8
  | .put k v => bytes "PUT " ++ (k.bytes ++ 32 :: v.bytes)
  | .get k => bytes "GET " ++ k.bytes
  | .del k => bytes "DEL " ++ k.bytes

/-- A run of printable characters that are no blanks. -/
def IsRun (k : CString) : Prop := 0 < k.length ∧ k.bytes.all isGraph = true

/-- The key is a run of characters, the value a printable text that begins with no blank; one of them is too long for its field. -/
def KeyRequest.OverLong : KeyRequest → Prop
  | .put k v => IsRun k ∧ v.bytes.all isPrint = true ∧ (∃ c, v.bytes.head? = some c ∧ isGraph c = true) ∧
      (maxKey - 1 < k.length ∨ maxValue - 1 < v.length)
  | .get k => IsRun k ∧ maxKey - 1 < k.length
  | .del k => IsRun k ∧ maxKey - 1 < k.length

/-- The turn rejects the request, or at least touches no other key: a `PUT` is answered as invalid and changes nothing, a `GET` is not
answered with the value of any key, a `DEL` changes nothing. -/
def KeyRequest.Rejected (s : State) (t : Turn) : KeyRequest → Prop
  | .put _ _ => (step s t).2.reply = bytes "ERR PUT invalid_input\n" ∧ (step s t).1.store = s.store
  | .get _ => ∀ k' v', storeGet s.store k' = some v' →
      (step s t).2.reply ≠ sendLine ((bytes "OK GET " ++ v'.bytes).take (maxLine - 1))
  | .del _ => (step s t).1.store = s.store

/-- No key of the store is the front of the request's key. -/
def KeyRequest.Unmatched (s : State) : KeyRequest → Prop
  | .put _ _ => False
  | .get k => storeGet s.store (k.take (maxKey - 1)) = none
  | .del k => storeGet s.store (k.take (maxKey - 1)) = none

namespace LongFieldsAux

open HandlerAux RequestAux

/-! ## Lines of printable characters -/

theorem isPrint_of_isGraph {c : UInt8} (h : isGraph c = true) : isPrint c = true := by
  rw [isGraph, Bool.and_eq_true, decide_eq_true_eq, decide_eq_true_eq] at h
  rw [isPrint, Bool.and_eq_true, decide_eq_true_eq, decide_eq_true_eq]
  exact ⟨UInt8.le_trans (by decide) h.1, h.2⟩

theorem graph_ne {c d : UInt8} (h : isGraph c = true) (hd : isGraph d = false) : c ≠ d := by
  rintro rfl
  rw [h] at hd
  nomatch hd

theorem isLine_of_printable {line : List UInt8} (hpos : 0 < line.length) (hlen : line.length ≤ 510)
    (h : line.all isPrint = true) : IsLine line where
  pos := hpos
  fits := Nat.lt_succ_of_le hlen
  noNewline := notMem_of_forall (List.all_eq_true.mp h) rfl
  noNul := notMem_of_forall (List.all_eq_true.mp h) rfl
  last hlast := notMem_of_forall (List.all_eq_true.mp h) rfl (List.mem_of_getLast? hlast)

theorem all_isPrint {k : CString} (h : k.bytes.all isGraph = true) : k.bytes.all isPrint = true := by
  rw [List.all_eq_true] at h ⊢
  exact fun c hc => isPrint_of_isGraph (h c hc)

theorem isLine_line {r : KeyRequest} (h : r.OverLong) (hlen : r.line.length ≤ 510) : IsLine r.line := by
  cases r with
  | put k v =>
    obtain ⟨hk, hv, -, -⟩ := h
    refine isLine_of_printable (Nat.succ_pos _) hlen ?_
    rw [KeyRequest.line, List.all_append, List.all_append, List.all_cons, all_isPrint hk.2, hv]
    rfl
  | get k =>
    refine isLine_of_printable (Nat.succ_pos _) hlen ?_
    rw [KeyRequest.line, List.all_append, all_isPrint h.1.2]
    rfl
  | del k =>
    refine isLine_of_printable (Nat.succ_pos _) hlen ?_
    rw [KeyRequest.line, List.all_append, all_isPrint h.1.2]
    rfl

/-! ## What `sscanf` makes of them -/

/-- A run of characters is cut to the width of its conversion, and what is cut off stays in front of the rest. -/
theorem scanWord_run {k : CString} (hk : IsRun k) {s : List UInt8} (hs : ∀ c, s.head? = some c → isSpace c = true) :
    scanWord (maxKey - 1) (k.bytes ++ s) = some (k.take (maxKey - 1), k.bytes.drop (maxKey - 1) ++ s) := by
  have hne : k.bytes ≠ [] := List.length_pos_iff.mp hk.1
  have hword : ∀ c ∈ k.bytes, isSpace c = false := fun c hc => isSpace_of_isGraph (List.all_eq_true.mp hk.2 c hc)
  rw [scanWord, skipSpace_append hne hword]
  refine scanWhile_take hne (by decide) ?_ ?_
  · intro c hc
    rw [hword c hc]
    rfl
  · intro c hc
    rw [hs c hc]
    rfl

/-- A request is the command, the front of the key, and a value as soon as a character stands behind that front. -/
theorem scanRequest_run {line cmd k : CString} {s : List UInt8} (hcmd : IsWord cmd) (hk : IsRun k)
    (hs : ∀ c, s.head? = some c → isSpace c = true) (hline : line.bytes = cmd.bytes ++ 32 :: (k.bytes ++ s)) :
    (scanRequest line).cmd = cmd ∧ (scanRequest line).arg1 = k.take (maxKey - 1) ∧
      ((∃ c rest, skipSpace (k.bytes.drop (maxKey - 1) ++ s) = c :: rest ∧ isGraph c = true) →
        0 < (scanRequest line).arg2.length) := by
  have hword : ∀ c ∈ k.bytes, isSpace c = false := fun c hc => isSpace_of_isGraph (List.all_eq_true.mp hk.2 c hc)
  have hskip : skipSpace (32 :: (k.bytes ++ s)) = k.bytes ++ s := by
    rw [skipSpace_space, skipSpace_append (List.length_pos_iff.mp hk.1) hword]
  unfold scanRequest
  rw [hline, scanWord_word hcmd head?_space]
  dsimp only
  rw [hskip, scanWord_run hk hs]
  dsimp only
  cases hrest : scanLine (maxValue - 1) (skipSpace (k.bytes.drop (maxKey - 1) ++ s)) with
  | some x =>
    refine ⟨rfl, rfl, ?_⟩
    rintro ⟨c, rest, hc, hgraph⟩
    obtain ⟨w, r, hw, hpos⟩ := scanWhile_cons (p := fun c => c ≠ 10) (n := maxValue - 1) (s := rest) (by decide)
      (decide_eq_true (graph_ne hgraph rfl)) (graph_ne hgraph rfl)
    rw [hc, scanLine, hw] at hrest
    obtain rfl := Option.some.inj hrest
    exact hpos
  | none =>
    refine ⟨rfl, rfl, ?_⟩
    rintro ⟨c, rest, hc, hgraph⟩
    obtain ⟨w, r, hw, -⟩ := scanWhile_cons (p := fun c => c ≠ 10) (n := maxValue - 1) (s := rest) (by decide)
      (decide_eq_true (graph_ne hgraph rfl)) (graph_ne hgraph rfl)
    rw [hc, scanLine, hw] at hrest
    nomatch hrest

/-- The front of an over-long key is a key. -/
theorem isKey_take {k : CString} (hk : IsRun k) : IsKey (k.take (maxKey - 1)) := by
  have hlen : (k.take (maxKey - 1)).length = min 63 k.length := List.length_take
  refine ⟨?_, ?_, ?_⟩
  · rw [hlen]
    exact Nat.lt_min.mpr ⟨by decide, hk.1⟩
  · rw [hlen]
    exact Nat.lt_succ_of_le (Nat.min_le_left 63 k.length)
  · rw [List.all_eq_true]
    exact fun c hc => List.all_eq_true.mp hk.2 c (List.mem_of_mem_take hc)

theorem scanRequest_put {k v : CString} (hk : IsRun k) (hv : ∃ c, v.bytes.head? = some c ∧ isGraph c = true)
    (hline : 0 ∉ (KeyRequest.put k v).line) :
    let r := scanRequest (CString.ofMem (KeyRequest.put k v).line)
    r.cmd = cstring "PUT" ∧ r.arg1 = k.take (maxKey - 1) ∧ 0 < r.arg2.length := by
  have hbytes : (CString.ofMem (KeyRequest.put k v).line).bytes = (cstring "PUT").bytes ++ 32 :: (k.bytes ++ 32 :: v.bytes) :=
    ofMem_bytes hline
  obtain ⟨hcmd, harg1, harg2⟩ := scanRequest_run isWord_put hk head?_space hbytes
  refine ⟨hcmd, harg1, harg2 ?_⟩
  cases hcut : k.bytes.drop (maxKey - 1) with
  | nil =>
    -- the key fits, and the value begins with a character
    obtain ⟨c, hhead, hgraph⟩ := hv
    obtain ⟨rest, hrest⟩ := List.head?_eq_some_iff.mp hhead
    refine ⟨c, rest, ?_, hgraph⟩
    rw [List.nil_append, skipSpace_space, hrest, skipSpace_cons_of_not (isSpace_of_isGraph hgraph)]
  | cons c rest =>
    -- what is cut off the key comes first
    have hgraph : isGraph c = true :=
      List.all_eq_true.mp hk.2 c (List.mem_of_mem_drop (by rw [hcut]; exact List.mem_cons_self))
    exact ⟨c, rest ++ 32 :: v.bytes, skipSpace_cons_of_not (isSpace_of_isGraph hgraph) _, hgraph⟩

/-- A command with one key. -/
theorem scanRequest_key {cmd k : CString} (hcmd : IsWord cmd) (hk : IsRun k) {line : List UInt8} (hline : 0 ∉ line)
    (heq : line = cmd.bytes ++ 32 :: k.bytes) :
    (scanRequest (CString.ofMem line)).cmd = cmd ∧ (scanRequest (CString.ofMem line)).arg1 = k.take (maxKey - 1) := by
  have hbytes : (CString.ofMem line).bytes = cmd.bytes ++ 32 :: (k.bytes ++ []) := by
    rw [ofMem_bytes hline, heq, List.append_nil]
  obtain ⟨h, harg1, -⟩ := scanRequest_run (s := []) hcmd hk (fun c hc => nomatch hc) hbytes
  exact ⟨h, harg1⟩

/-! ## The turns -/

variable {s : State} {t : Turn} {k v : CString}

/-- A `PUT` is carried out, whatever the lengths of the key and of the value. -/
theorem step_put_reply (hauth : (s.conn t.client).authenticated = true)
    (hsend : (s.conn t.client).Sends (KeyRequest.put k v).line) (hover : (KeyRequest.put k v).OverLong)
    (hlen : (KeyRequest.put k v).line.length ≤ 510) : (step s t).2.reply = bytes "OK PUT\n" := by
  have hline := isLine_line hover hlen
  obtain ⟨hk, -, hv, -⟩ := hover
  obtain ⟨hcmd, harg1, harg2⟩ := scanRequest_put hk hv hline.noNul
  obtain ⟨input, h⟩ := handleClient_sends hsend hline s.store t.keys
  have hfits := (scanRequest_fits (CString.ofMem (KeyRequest.put k v).line)).2.2
  generalize scanRequest (CString.ofMem (KeyRequest.put k v).line) = r at h hcmd harg1 harg2 hfits
  have hvalid : (!isValidToken r.arg1 (maxKey - 1) || r.arg2.length == 0 || decide (maxValue - 1 < r.arg2.length)) = false := by
    rw [harg1, isValidToken_of_isKey (isKey_take hk), Bool.not_true, Bool.false_or, Bool.or_eq_false_iff]
    exact ⟨beq_false_of_ne (Nat.ne_of_gt harg2), decide_eq_false (Nat.not_lt.mpr (Nat.le_sub_one_of_lt hfits))⟩
  rw [handleRequest_of_put (c := { s.conn t.client with input := input }) hauth hcmd, handlePut,
    if_neg (by rw [hvalid]; exact Bool.false_ne_true)] at h
  rw [step, h]
  rfl

/-- A `GET` is answered for the front of its key. -/
theorem step_get_reply (hauth : (s.conn t.client).authenticated = true)
    (hsend : (s.conn t.client).Sends (KeyRequest.get k).line) (hover : (KeyRequest.get k).OverLong)
    (hlen : (KeyRequest.get k).line.length ≤ 510) :
    (step s t).2.reply = match storeGet s.store (k.take (maxKey - 1)) with
      | some value => sendLine ((bytes "OK GET " ++ value.bytes).take (maxLine - 1))
      | none => bytes "ERR GET not_found\n" := by
  have hline := isLine_line hover hlen
  obtain ⟨hcmd, harg1⟩ := scanRequest_key isWord_get hover.1 hline.noNul rfl
  obtain ⟨input, h⟩ := handleClient_sends hsend hline s.store t.keys
  rw [handleRequest_of_get (c := { s.conn t.client with input := input }) hauth hcmd, handleGet, harg1,
    if_neg (by rw [isValidToken_of_isKey (isKey_take hover.1)]; exact Bool.false_ne_true)] at h
  rw [step, h]
  cases storeGet s.store (k.take (maxKey - 1)) with
  | some value => rfl
  | none => rfl

/-- A `DEL` deletes the front of its key. -/
theorem step_del_store (hauth : (s.conn t.client).authenticated = true)
    (hsend : (s.conn t.client).Sends (KeyRequest.del k).line) (hover : (KeyRequest.del k).OverLong)
    (hlen : (KeyRequest.del k).line.length ≤ 510) :
    (step s t).1.store = (storeDel s.store (k.take (maxKey - 1))).1 := by
  have hline := isLine_line hover hlen
  obtain ⟨hcmd, harg1⟩ := scanRequest_key isWord_del hover.1 hline.noNul rfl
  obtain ⟨input, h⟩ := handleClient_sends hsend hline s.store t.keys
  rw [handleRequest_of_del (c := { s.conn t.client with input := input }) hauth hcmd, handleDel, harg1,
    if_neg (by rw [isValidToken_of_isKey (isKey_take hover.1)]; exact Bool.false_ne_true)] at h
  rw [step, h]
  rfl

/-- Deleting a key changes the store exactly where it holds the key. -/
theorem storeDel_eq_self_iff (store : Store) (key : CString) : (storeDel store key).1 = store ↔ storeGet store key = none := by
  rw [storeGet, Option.map_eq_none_iff, List.find?_eq_none, storeDel]
  cases hf : store.entries.findIdx? (·.holds key) with
  | none =>
    refine iff_of_true rfl (fun e he => ?_)
    rw [List.findIdx?_eq_none_iff.mp hf e he]
    exact Bool.false_ne_true
  | some j =>
    obtain ⟨a, e, b, hs, rfl, hh, -⟩ := Cut.exists_of_findIdx? hf
    refine iff_of_false (fun heq => ?_) (fun h => h e (by rw [hs]; exact List.mem_append_right _ List.mem_cons_self) hh)
    have hentries : a ++ { e with used := false } :: b = a ++ e :: b := by
      rw [← Cut.modify_append (f := fun e : StoreEntry => { e with used := false }), ← hs]
      exact congrArg Store.entries heq
    have hfree := congrArg StoreEntry.used (List.cons.inj (List.append_cancel_left hentries)).1
    have hused := ((StoreAux.holds_iff e key).mp hh).1
    exact absurd (hfree.trans hused) Bool.false_ne_true

/-- How an answer with a value begins. -/
theorem head?_sendLine (value : List UInt8) :
    (sendLine ((bytes "OK GET " ++ value).take (maxLine - 1))).head? = some 79 := by
  rfl

end LongFieldsAux

/-- For every authenticated connection, every store and every request line of at most 510 bytes with an over-long key or value: the
turn rejects the request if and only if it is no `PUT` and the store holds no key equal to the first 63 characters of its key. -/
theorem rejected_iff_unmatched {s : State} {t : Turn} {r : KeyRequest} (hauth : (s.conn t.client).authenticated = true)
    (hsend : (s.conn t.client).Sends r.line) (hover : r.OverLong) (hlen : r.line.length ≤ 510) :
    r.Rejected s t ↔ r.Unmatched s := by
  cases r with
  | put k v =>
    have hreply := LongFieldsAux.step_put_reply hauth hsend hover hlen
    refine iff_of_false ?_ not_false
    rintro ⟨hrejected, -⟩
    exact absurd (hreply.symm.trans hrejected) (by decide)
  | get k =>
    have hreply := LongFieldsAux.step_get_reply hauth hsend hover hlen
    show _ ↔ storeGet s.store (k.take (maxKey - 1)) = none
    cases hget : storeGet s.store (k.take (maxKey - 1)) with
    | some value =>
      rw [hget] at hreply
      exact iff_of_false (fun h => h _ _ hget hreply) (Option.some_ne_none value)
    | none =>
      rw [hget] at hreply
      refine iff_of_true ?_ rfl
      intro k' v' _ heq
      rw [hreply] at heq
      -- an answer with a value begins with another letter
      exact absurd (congrArg List.head? heq) (by rw [LongFieldsAux.head?_sendLine]; decide)
  | del k =>
    show (step s t).1.store = s.store ↔ storeGet s.store (k.take (maxKey - 1)) = none
    rw [LongFieldsAux.step_del_store hauth hsend hover hlen]
    exact LongFieldsAux.storeDel_eq_self_iff s.store (k.take (maxKey - 1))

/-- A key of 64 characters, its front, and the requests that put it and get it. -/
def spilled : CString := CString.ofMem (List.replicate 63 97 ++ [98])

def front : CString := CString.ofMem (List.replicate 63 97)

def spilling (r : KeyRequest) : State :=
  Runs.final step (State.init (fun _ => ⟨bytes "AUTH alice alicepass\n" ++ (r.line ++ [10]), .waiting⟩)) [turn 0]

/-- The key of 64 characters is put under its front, with its last character as the beginning of the value. -/
theorem spilled_put :
    let r := KeyRequest.put spilled (cstring "secret")
    let s := spilling r
    (s.conn 0).authenticated = true ∧ (s.conn 0).Sends r.line ∧ r.OverLong ∧ r.line.length ≤ 510 ∧
      (step s (turn 0)).2.reply = bytes "OK PUT\n" ∧ storeGet s.store front = none ∧
      storeGet (step s (turn 0)).1.store front = some (cstring "b secret") ∧ ¬ r.Rejected s (turn 0) := by
  have hrun : ((spilling (.put spilled (cstring "secret"))).conn 0).authenticated = true ∧
      ((spilling (.put spilled (cstring "secret"))).conn 0).Sends (KeyRequest.put spilled (cstring "secret")).line ∧
      (KeyRequest.put spilled (cstring "secret")).line.length ≤ 510 ∧
      (step (spilling (.put spilled (cstring "secret"))) (turn 0)).2.reply = bytes "OK PUT\n" ∧
      storeGet (spilling (.put spilled (cstring "secret"))).store front = none ∧
      storeGet (step (spilling (.put spilled (cstring "secret"))) (turn 0)).1.store front = some (cstring "b secret") := by
    decide +kernel
  obtain ⟨hauth, hsend, hlen, hreply, hbefore, hafter⟩ := hrun
  refine ⟨hauth, hsend, ?_, hlen, hreply, hbefore, hafter, ?_⟩
  · exact ⟨⟨by decide +kernel, by decide +kernel⟩, by decide +kernel, ⟨115, by decide +kernel, by decide +kernel⟩,
      .inl (by decide +kernel)⟩
  · rintro ⟨hrejected, -⟩
    exact absurd (hreply.symm.trans hrejected) (by decide)

theorem rejected_iff_unmatched_get : (KeyRequest.get spilled).Rejected (spilling (.get spilled)) (turn 0) :=
  (rejected_iff_unmatched (s := spilling (.get spilled)) (t := turn 0) (r := .get spilled) (by decide +kernel)
    (by decide +kernel) ⟨⟨by decide +kernel, by decide +kernel⟩, by decide +kernel⟩ (by decide +kernel)).mpr
    (show storeGet (spilling (.get spilled)).store (spilled.take (maxKey - 1)) = none by decide +kernel)

end OsSecurity.Server
