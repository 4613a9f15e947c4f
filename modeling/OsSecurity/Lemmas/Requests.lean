import OsSecurity.Lemmas.Handler
import OsSecurity.Server.Client

/-!
# Helpers about requests: the turn of a `PUT` and of a `GET`

A line that a client sends whole reaches the handler as it stands, and comes apart into the command, the key and the value.
-/

namespace OsSecurity.Server

open CLib SlotTable

/-- A key of 1 to 63 printable characters, none a blank. -/
structure IsKey (k : CString) : Prop where
  pos : 0 < k.length
  fits : k.length < maxKey
  printable : k.bytes.all isGraph = true

/-- A value of 1 to 399 bytes that a line can carry: no newline, no white space in front and no carriage return behind. -/
structure IsLineValue (v : CString) : Prop where
  pos : 0 < v.length
  fits : v.length < maxValue
  noNewline : 10 ∉ v.bytes
  first : ∀ c, v.bytes.head? = some c → isSpace c = false
  last : v.bytes.getLast? ≠ some 13

/-- The line of a `PUT`, as a client types it. -/
def putLine (k v : CString) : List UInt8 := bytes "PUT " ++ (k.bytes ++ bytes " " ++ v.bytes)

/-- The line of a `GET`, as a client types it. -/
def getLine (k : CString) : List UInt8 := bytes "GET " ++ k.bytes

/-- The next line on an open connection. -/
def Conn.Sends (c : Conn) (line : List UInt8) : Prop := c.isOpen = true ∧ line ++ [10] <+: c.input.bytes

instance (c : Conn) (line : List UInt8) : Decidable (c.Sends line) := inferInstanceAs (Decidable (_ ∧ _))

/-- The states the server reaches, whatever its clients send. -/
def Reachable (s : State) : Prop := ∃ inputs before, s = Runs.final step (State.init inputs) before

/-- A turn of a connection, with zeros on the stack. -/
def turn (i : Nat) : Turn := ⟨i, CharArray.zero maxLine⟩

namespace RequestAux

open HandlerAux

/-! ## Lines -/

/-- A line that `recv_line` gives as it stands. -/
structure IsLine (line : List UInt8) : Prop where
  pos : 0 < line.length
  fits : line.length < maxLine - 1
  noNewline : 10 ∉ line
  noNul : 0 ∉ line
  last : line.getLast? ≠ some 13

/-- A line that the peer has sent is handled as a request. -/
theorem handleClient_sends {c : Conn} {line : List UInt8} (h : c.Sends line) (hline : IsLine line) (store : Store)
    (keys : CharArray maxLine) :
    ∃ input, handleClient store c keys =
      handleRequest store { c with input := input } keys (scanRequest (CString.ofMem line)) := by
  obtain ⟨hopen, rest, hin⟩ := h
  have hin' : c.input.bytes = line ++ 10 :: rest := by
    rw [← hin, List.append_assoc]
    rfl
  obtain ⟨-, hturn⟩ := handleClient_frame hopen hin' (List.length_pos_iff.mp hline.pos) hline.noNewline hline.fits
  rw [FramingAux.lineText_of_ne hline.last] at hturn
  exact ⟨_, hturn store keys⟩

/-- A `PUT` of a key and a value that fit is a line that fits. -/
theorem isLine_putLine {k v : CString} (hk : IsKey k) (hv : IsLineValue v) : IsLine (putLine k v) := by
  have hlen : (putLine k v).length = 5 + k.length + v.length := by
    have hput : (bytes "PUT ").length = 4 := rfl
    have hblank : (bytes " ").length = 1 := rfl
    simp only [putLine, List.length_append, hput, hblank, CString.length]
    omega
  have hkfits : k.length < 64 := hk.fits
  have hvfits : v.length < 400 := hv.fits
  have hmem : ∀ {c}, c ∉ bytes "PUT " → isGraph c = false → c ∉ bytes " " → c ∉ v.bytes → c ∉ putLine k v := by
    intro c hput hgraph hblank hvalue
    rw [putLine, List.mem_append, List.mem_append, List.mem_append, not_or, not_or, not_or]
    exact ⟨hput, ⟨notMem_of_forall (List.all_eq_true.mp hk.printable) hgraph, hblank⟩, hvalue⟩
  refine ⟨by omega, ?_, hmem (by decide) rfl (by decide) hv.noNewline, hmem (by decide) rfl (by decide) v.noNul, ?_⟩
  · rw [hlen, show maxLine - 1 = 511 from rfl]
    omega
  · have hne : v.bytes ≠ [] := List.length_pos_iff.mp hv.pos
    rw [putLine, ← List.append_assoc, List.getLast?_append_of_ne_nil _ hne]
    exact hv.last

/-- A `GET` of a key that fits is a line that fits. -/
theorem isLine_getLine {k : CString} (hk : IsKey k) : IsLine (getLine k) := by
  have hlen : (getLine k).length = 4 + k.length := by
    have hget : (bytes "GET ").length = 4 := rfl
    simp only [getLine, List.length_append, hget, CString.length]
  have hkfits : k.length < 64 := hk.fits
  have hmem : ∀ {c}, c ∉ bytes "GET " → isGraph c = false → c ∉ getLine k := by
    intro c hget hgraph
    rw [getLine, List.mem_append, not_or]
    exact ⟨hget, notMem_of_forall (List.all_eq_true.mp hk.printable) hgraph⟩
  refine ⟨by omega, ?_, hmem (by decide) rfl, hmem (by decide) rfl, ?_⟩
  · rw [hlen, show maxLine - 1 = 511 from rfl]
    omega
  · exact fun h => hmem (c := 13) (by decide) rfl (List.mem_of_getLast? h)

theorem ofMem_bytes {line : List UInt8} (h : 0 ∉ line) : (CString.ofMem line).bytes = line := cstr_of_noNul h

/-! ## Words -/

/-- A key is one word for `sscanf`. -/
theorem isWord_of_isKey {k : CString} (hk : IsKey k) : IsWord k where
  pos := hk.pos
  fits := hk.fits
  noSpace c hc := isSpace_of_isGraph (List.all_eq_true.mp hk.printable c hc)

/-- A key is a token for the handler. -/
theorem isValidToken_of_isKey {k : CString} (hk : IsKey k) : isValidToken k (maxKey - 1) = true := by
  have hlen : (k.length == 0 || decide (maxKey - 1 < k.length)) = false := by
    have hpos := hk.pos
    have hfits := hk.fits
    simp only [maxKey] at hfits ⊢
    simp
    omega
  rw [isValidToken, hlen, Bool.not_false, Bool.true_and, List.all_eq_true]
  intro c hc
  have hgraph := List.all_eq_true.mp hk.printable c hc
  rw [isGraph, Bool.and_eq_true, decide_eq_true_eq, decide_eq_true_eq] at hgraph
  obtain ⟨hlow, hhigh⟩ := hgraph
  have h32 : ¬ c < 32 := UInt8.not_lt.mpr (UInt8.le_trans (by decide) hlow)
  have h127 : ¬ c = 127 := UInt8.ne_of_lt (UInt8.lt_of_le_of_lt hhigh (by decide))
  simp [h32, h127]

/-- A value that begins with no blank is scanned from its first byte. -/
theorem skipSpace_value {v : CString} (hv : IsLineValue v) : skipSpace v.bytes = v.bytes := by
  cases hb : v.bytes with
  | nil => rfl
  | cons c w => exact skipSpace_cons_of_not (hv.first c (by rw [hb]; rfl)) w

/-- The commands are words too. -/
theorem isWord_put : IsWord (cstring "PUT") := isWord_of_isKey ⟨by decide, by decide, by decide⟩

theorem isWord_get : IsWord (cstring "GET") := isWord_of_isKey ⟨by decide, by decide, by decide⟩

theorem isWord_del : IsWord (cstring "DEL") := isWord_of_isKey ⟨by decide, by decide, by decide⟩

/-- What `sscanf` makes of a `PUT`. -/
theorem scanRequest_putLine {k v : CString} (hk : IsKey k) (hv : IsLineValue v) :
    scanRequest (CString.ofMem (putLine k v)) = ⟨cstring "PUT", k, v⟩ := by
  refine scanRequest_three isWord_put (isWord_of_isKey hk) hv.pos hv.fits hv.noNewline (skipSpace_value hv) ?_
  rw [ofMem_bytes (isLine_putLine hk hv).noNul]
  simp [putLine, show bytes "PUT " = (cstring "PUT").bytes ++ [32] from rfl, show bytes " " = [32] from rfl]

/-- What `sscanf` makes of a `GET`. -/
theorem scanRequest_getLine {k : CString} (hk : IsKey k) :
    scanRequest (CString.ofMem (getLine k)) = ⟨cstring "GET", k, cstring ""⟩ := by
  refine scanRequest_two isWord_get (isWord_of_isKey hk) ?_
  rw [ofMem_bytes (isLine_getLine hk).noNul]
  simp [getLine, show bytes "GET " = (cstring "GET").bytes ++ [32] from rfl]

/-! ## What a client receives -/

/-- A line sent to the client is received as it stands, whatever comes behind it. -/
theorem client_recvLine {line : List UInt8} (hlen : line.length < Client.maxLine - 1) (h10 : 10 ∉ line)
    (h13 : line.getLast? ≠ some 13) (rest : List UInt8) (ending : Ending) :
    Client.recvLine Client.maxLine ⟨line ++ [10] ++ rest, ending⟩ = some ⟨line.length, line, ⟨rest, ending⟩⟩ := by
  rw [List.append_assoc]
  exact recvLine_plain ending rest h10 hlen h13

/-- A line that is received is shorter than its buffer. -/
theorem recvLoop_ret {maxLen : Nat} {ending : Ending} {outLine rest : List UInt8} {n : Received}
    (h : recvLoop maxLen ending outLine rest = some n) : n.ret < (maxLen - 1 : Nat) ∨ n.ret ≤ 0 := by
  induction rest generalizing outLine with
  | nil =>
    unfold recvLoop at h
    split at h
    · cases ending <;> cases h <;> simp
    · cases h
      simp
  | cons c rest ih =>
    rw [recvLoop] at h
    split at h
    · rename_i hlt
      split at h
      · cases h
        exact .inl (Int.ofNat_lt.mpr hlt)
      · exact ih h
    · cases h
      simp

/-! ## Turns -/

/-- The turn of a `PUT`: the store is called, and `OK PUT` is answered whatever it returns. -/
theorem step_put {s : State} {t : Turn} {k v : CString} (hk : IsKey k) (hv : IsLineValue v)
    (hauth : (s.conn t.client).authenticated = true) (hsend : (s.conn t.client).Sends (putLine k v)) :
    (step s t).2 = ⟨bytes "OK PUT\n", some (.call (.put k v))⟩ := by
  obtain ⟨input, h⟩ := handleClient_sends hsend (isLine_putLine hk hv) s.store t.keys
  have hvalid : (!isValidToken k (maxKey - 1) || v.length == 0 || decide (maxValue - 1 < v.length)) = false := by
    rw [isValidToken_of_isKey hk, Bool.not_true, Bool.false_or, Bool.or_eq_false_iff]
    exact ⟨beq_false_of_ne (Nat.ne_of_gt hv.pos), decide_eq_false (Nat.not_lt.mpr (Nat.le_sub_one_of_lt hv.fits))⟩
  rw [scanRequest_putLine hk hv, handleRequest_of_put (c := { s.conn t.client with input := input }) hauth rfl,
    handlePut, if_neg (by rw [hvalid]; exact Bool.false_ne_true)] at h
  rw [step, h]
  rfl

/-- The turn of a `GET`. -/
theorem step_get {s : State} {t : Turn} {k : CString} (hk : IsKey k) (hsend : (s.conn t.client).Sends (getLine k)) :
    (step s t).2.reply =
      if (s.conn t.client).authenticated then
        match storeGet s.store k with
        | some value => sendLine ((bytes "OK GET " ++ value.bytes).take (maxLine - 1))
        | none => bytes "ERR GET not_found\n"
      else bytes "ERR not_authenticated\n" := by
  obtain ⟨input, h⟩ := handleClient_sends hsend (isLine_getLine hk) s.store t.keys
  rw [scanRequest_getLine hk] at h
  cases hauth : (s.conn t.client).authenticated with
  | false =>
    have hnotauth : ¬ strcmp (cstring "GET").bytes (bytes "AUTH") = 0 := by decide
    rw [handleRequest_of_unauthenticated (c := { s.conn t.client with input := input }) hauth hnotauth] at h
    rw [step, h]
    rfl
  | true =>
    rw [handleRequest_of_get (c := { s.conn t.client with input := input }) hauth rfl, handleGet,
      if_neg (by rw [isValidToken_of_isKey hk]; exact Bool.false_ne_true)] at h
    rw [step, h, if_pos rfl]
    cases storeGet s.store k with
    | some value => rfl
    | none => rfl

/-- A value that fits is sent whole. -/
theorem sendLine_value {v : CString} (hv : v.length < maxValue) :
    sendLine ((bytes "OK GET " ++ v.bytes).take (maxLine - 1)) = bytes "OK GET " ++ v.bytes ++ [10] := by
  have hlen : (bytes "OK GET " ++ v.bytes).length = 7 + v.length := by
    have hok : (bytes "OK GET ").length = 7 := rfl
    rw [List.length_append, hok]
    rfl
  have hvfits : v.length < 400 := hv
  rw [List.take_of_length_le (by rw [hlen, show maxLine - 1 = 511 from rfl]; omega), sendLine,
    List.take_of_length_le (by rw [List.length_append, hlen, show maxLine + 1 = 513 from rfl, List.length_singleton]; omega)]

/-- What a `GET` finds after a `PUT` and any turns that do not write the key: the value, if the store had room for it. -/
theorem storeGet_after_put {s : State} (hs : Reachable s) {k v : CString} (hk : IsKey k) (hv : IsLineValue v) (p : Turn)
    (hauth : (s.conn p.client).authenticated = true) (hput : (s.conn p.client).Sends (putLine k v)) {between : List Turn}
    (hother : ∀ e ∈ Runs.trace step (step s p).1 between, ∀ call : StoreCall, e.2.access = some (.call call) →
      call.writes ≠ some k) :
    s.store.HasRoom k ∧ storeGet (Runs.final step (step s p).1 between).store k = some v ∨
      ¬ s.store.HasRoom k ∧ storeGet (Runs.final step (step s p).1 between).store k = none := by
  obtain ⟨inputs, before, rfl⟩ := hs
  obtain ⟨m, hm⟩ := exists_represents ⟨∅, init_represents inputs⟩ before
  have hanswer := step_put hk hv hauth hput
  have hmap : mapAfter m (step (Runs.final step (State.init inputs) before) p).2 =
      (BoundedMap.step maxStore m (.put k v)).1 := by
    rw [hanswer]
    rfl
  rw [StoreAux.hasRoom_iff hm, lookup_final (step_represents hm p) hother, hmap, BoundedMap.step]
  by_cases hroom : k ∈ m ∨ m.keys.card < maxStore
  · rw [if_pos hroom]
    exact .inl ⟨hroom, Finmap.lookup_insert m⟩
  · rw [if_neg hroom]
    rw [not_or] at hroom
    exact .inr ⟨not_or.mpr hroom, Finmap.lookup_eq_none.mpr hroom.1⟩

end RequestAux

end OsSecurity.Server
