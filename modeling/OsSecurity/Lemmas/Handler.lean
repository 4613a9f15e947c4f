import OsSecurity.Server.Handler
import OsSecurity.Lemmas.Framing
import OsSecurity.Lemmas.Store
import OsSecurity.Lib.Runs

/-!
# Helpers about the connections

What the handler does to the store is a call of it with words that fit, or nothing; what it does to a connection that is not
authenticated does not depend on the store. The rest is about the lines a request is made of.
-/

namespace OsSecurity.Server

open CLib SlotTable

/-- The request that the next turn of a connection processes, if it processes one. -/
def Conn.pending (c : Conn) : Option Request :=
  if c.isOpen then
    match recvLine maxLine c.input with
    | some n => if 0 < n.ret then some (scanRequest (CString.ofMem n.outLine)) else none
    | none => none
  else none

namespace HandlerAux

/-! ## The cases of a turn -/

/-- A turn processes a request, or it gets none; then it answers by itself, and leaves the login as it is. -/
theorem handleClient_cases (c : Conn) :
    (∃ line input, c.pending = some (scanRequest line) ∧ ∀ store keys,
      handleClient store c keys = handleRequest store { c with input := input } keys (scanRequest line)) ∨
    (c.pending = none ∧ ∃ c' reply, c'.authenticated = c.authenticated ∧ c'.authAttempts = c.authAttempts ∧
      ∀ store keys, handleClient store c keys = { store := store, conn := c', reply := reply, access := none }) := by
  unfold Conn.pending handleClient
  cases hopen : c.isOpen with
  | false => exact .inr ⟨rfl, c, [], rfl, rfl, fun _ _ => rfl⟩
  | true =>
    cases hn : recvLine maxLine c.input with
    | none => exact .inr ⟨rfl, c, [], rfl, rfl, fun _ _ => rfl⟩
    | some n =>
      simp only [if_true, handleReceived]
      rcases Int.lt_trichotomy n.ret 0 with hneg | hzero | hpos
      · rw [if_neg (Int.not_lt.mpr (Int.le_of_lt hneg))]
        refine .inr ⟨rfl, { c with input := n.rest, isOpen := false }, sendLine (bytes "ERR protocol_violation"), rfl, rfl,
          ?_⟩
        intro store keys
        rw [if_neg (Int.ne_of_lt hneg), if_pos hneg]
        rfl
      · rw [if_neg (by rw [hzero]; exact Int.lt_irrefl 0)]
        refine .inr ⟨rfl, { c with input := n.rest, isOpen := false }, [], rfl, rfl, ?_⟩
        intro store keys
        rw [if_pos hzero]
      · rw [if_pos hpos]
        refine .inl ⟨_, n.rest, rfl, ?_⟩
        intro store keys
        rw [if_neg (Int.ne_of_gt hpos), if_neg (Int.not_lt.mpr (Int.le_of_lt hpos)), ← hopen]

/-! ## The branch a request takes -/

section

variable {store : Store} {c : Conn} {keys : CharArray maxLine} {r : Request}

/-- What an authenticated `PUT` is handed to. -/
theorem handleRequest_of_put (hauth : c.authenticated = true) (hcmd : r.cmd = cstring "PUT") :
    handleRequest store c keys r = handlePut store c r := by
  have hnotauth : ¬ strcmp (cstring "PUT").bytes (bytes "AUTH") = 0 := by decide
  have hput : strcmp (cstring "PUT").bytes (bytes "PUT") = 0 := by decide
  rw [handleRequest, hcmd, if_neg hnotauth, if_neg (by simp [hauth]), if_pos hput]

theorem handleRequest_of_get (hauth : c.authenticated = true) (hcmd : r.cmd = cstring "GET") :
    handleRequest store c keys r = handleGet store c r := by
  have hnotauth : ¬ strcmp (cstring "GET").bytes (bytes "AUTH") = 0 := by decide
  have hnotput : ¬ strcmp (cstring "GET").bytes (bytes "PUT") = 0 := by decide
  have hget : strcmp (cstring "GET").bytes (bytes "GET") = 0 := by decide
  rw [handleRequest, hcmd, if_neg hnotauth, if_neg (by simp [hauth]), if_neg hnotput, if_pos hget]

theorem handleRequest_of_del (hauth : c.authenticated = true) (hcmd : r.cmd = cstring "DEL") :
    handleRequest store c keys r = handleDel store c r := by
  have hnotauth : ¬ strcmp (cstring "DEL").bytes (bytes "AUTH") = 0 := by decide
  have hnotput : ¬ strcmp (cstring "DEL").bytes (bytes "PUT") = 0 := by decide
  have hnotget : ¬ strcmp (cstring "DEL").bytes (bytes "GET") = 0 := by decide
  have hdel : strcmp (cstring "DEL").bytes (bytes "DEL") = 0 := by decide
  rw [handleRequest, hcmd, if_neg hnotauth, if_neg (by simp [hauth]), if_neg hnotput, if_neg hnotget, if_pos hdel]

theorem handleRequest_of_list (hauth : c.authenticated = true) (hcmd : r.cmd = cstring "LIST") :
    handleRequest store c keys r = handleList store c keys := by
  have hnotauth : ¬ strcmp (cstring "LIST").bytes (bytes "AUTH") = 0 := by decide
  have hnotput : ¬ strcmp (cstring "LIST").bytes (bytes "PUT") = 0 := by decide
  have hnotget : ¬ strcmp (cstring "LIST").bytes (bytes "GET") = 0 := by decide
  have hnotdel : ¬ strcmp (cstring "LIST").bytes (bytes "DEL") = 0 := by decide
  have hlist : strcmp (cstring "LIST").bytes (bytes "LIST") = 0 := by decide
  rw [handleRequest, hcmd, if_neg hnotauth, if_neg (by simp [hauth]), if_neg hnotput, if_neg hnotget, if_neg hnotdel,
    if_pos hlist]

/-- Before the login every request but `AUTH` gets the same answer. -/
theorem handleRequest_of_unauthenticated (hauth : c.authenticated = false) (hcmd : ¬ strcmp r.cmd.bytes (bytes "AUTH") = 0) :
    handleRequest store c keys r = answer store c "ERR not_authenticated" := by
  rw [handleRequest, if_neg hcmd, if_pos (by simp [hauth])]

end

/-- The branch of `handle_client` that serves a request, with what was checked on the way to it. -/
inductive Branch (store : Store) (c : Conn) (keys : CharArray maxLine) (r : Request) : Served → Prop
  | auth (hcmd : strcmp r.cmd.bytes (bytes "AUTH") = 0) : Branch store c keys r (handleAuth store c r)
  | refused (hcmd : ¬ strcmp r.cmd.bytes (bytes "AUTH") = 0) (hauth : c.authenticated = false) :
      Branch store c keys r (answer store c "ERR not_authenticated")
  | put (hcmd : ¬ strcmp r.cmd.bytes (bytes "AUTH") = 0) (hauth : c.authenticated = true) :
      Branch store c keys r (handlePut store c r)
  | get (hcmd : ¬ strcmp r.cmd.bytes (bytes "AUTH") = 0) (hauth : c.authenticated = true) :
      Branch store c keys r (handleGet store c r)
  | del (hcmd : ¬ strcmp r.cmd.bytes (bytes "AUTH") = 0) (hauth : c.authenticated = true) :
      Branch store c keys r (handleDel store c r)
  | list (hcmd : ¬ strcmp r.cmd.bytes (bytes "AUTH") = 0) (hauth : c.authenticated = true) :
      Branch store c keys r (handleList store c keys)
  | quit (hcmd : ¬ strcmp r.cmd.bytes (bytes "AUTH") = 0) (hauth : c.authenticated = true)
      (hquit : strcmp r.cmd.bytes (bytes "QUIT") = 0) : Branch store c keys r (answer store { c with isOpen := false } "OK BYE")
  | unknown (hcmd : ¬ strcmp r.cmd.bytes (bytes "AUTH") = 0) (hauth : c.authenticated = true) :
      Branch store c keys r (answer store c "ERR unknown_command")

/-- A request takes one of these branches. -/
theorem handleRequest_branch (store : Store) (c : Conn) (keys : CharArray maxLine) (r : Request) :
    Branch store c keys r (handleRequest store c keys r) := by
  rw [handleRequest]
  by_cases hcmd : strcmp r.cmd.bytes (bytes "AUTH") = 0
  · rw [if_pos hcmd]
    exact .auth hcmd
  rw [if_neg hcmd]
  by_cases hauth : c.authenticated = true
  · rw [if_neg (by simp [hauth])]
    split
    · exact .put hcmd hauth
    split
    · exact .get hcmd hauth
    split
    · exact .del hcmd hauth
    split
    · exact .list hcmd hauth
    split
    · rename_i hquit
      exact .quit hcmd hauth hquit
    · exact .unknown hcmd hauth
  · rw [Bool.not_eq_true] at hauth
    rw [if_pos (by simp [hauth])]
    exact .refused hcmd hauth

/-! ## The store accesses of a turn -/

/-- No token is longer than its buffer. -/
theorem scanRequest_fits (line : CString) :
    (scanRequest line).cmd.length < maxKey ∧ (scanRequest line).arg1.length < maxKey ∧
      (scanRequest line).arg2.length < maxValue := by
  have hempty : ∀ n, (cstring "").length < n + 1 := fun n => Nat.succ_pos n
  rw [scanRequest]
  cases hcmd : scanWord (maxKey - 1) line.bytes with
  | none => exact ⟨hempty _, hempty _, hempty _⟩
  | some x =>
    have h1 : x.1.length < maxKey := Nat.lt_succ_of_le (scanWhile_length hcmd)
    dsimp only
    cases harg1 : scanWord (maxKey - 1) (skipSpace x.2) with
    | none => exact ⟨h1, hempty _, hempty _⟩
    | some y =>
      have h2 : y.1.length < maxKey := Nat.lt_succ_of_le (scanWhile_length harg1)
      dsimp only
      cases harg2 : scanLine (maxValue - 1) (skipSpace y.2) with
      | none => exact ⟨h1, h2, hempty _⟩
      | some z => exact ⟨h1, h2, Nat.lt_succ_of_le (scanWhile_length harg2)⟩

/-- The first argument of a request has no white space. -/
theorem scanRequest_arg1 (line : CString) : ∀ c ∈ (scanRequest line).arg1.bytes, isSpace c = false := by
  have hempty : ∀ c ∈ (cstring "").bytes, isSpace c = false := fun c hc => nomatch hc
  rw [scanRequest]
  cases hcmd : scanWord (maxKey - 1) line.bytes with
  | none => exact hempty
  | some x =>
    dsimp only
    cases harg1 : scanWord (maxKey - 1) (skipSpace x.2) with
    | none => exact hempty
    | some y =>
      have hword : ∀ c ∈ y.1.bytes, isSpace c = false := by
        intro c hc
        simpa using scanWhile_all harg1 c hc
      dsimp only
      split <;> exact hword

/-- The second argument of a request has no newline. -/
theorem scanRequest_arg2 (line : CString) : 10 ∉ (scanRequest line).arg2.bytes := by
  have hempty : 10 ∉ (cstring "").bytes := List.not_mem_nil
  rw [scanRequest]
  cases hcmd : scanWord (maxKey - 1) line.bytes with
  | none => exact hempty
  | some x =>
    dsimp only
    cases harg1 : scanWord (maxKey - 1) (skipSpace x.2) with
    | none => exact hempty
    | some y =>
      dsimp only
      cases harg2 : scanLine (maxValue - 1) (skipSpace y.2) with
      | none => exact hempty
      | some z =>
        intro hmem
        have hne := scanWhile_all harg2 10 hmem
        exact absurd hne (by decide)

/-- What a turn did to the store: the call it made, with words that fit, or nothing. -/
def Sound (store : Store) (v : Served) : Prop :=
  match v.access with
  | some (.call call) => Fits call ∧ v.store = (store.call call).1
  | _ => v.store = store

/-- An `AUTH` makes no access to the store. -/
theorem handleAuth_quiet (store : Store) (c : Conn) (r : Request) :
    (handleAuth store c r).access = none ∧ (handleAuth store c r).store = store := by
  rw [handleAuth]
  split
  · exact ⟨rfl, rfl⟩
  · split
    · exact ⟨rfl, rfl⟩
    · dsimp only
      split <;> exact ⟨rfl, rfl⟩

/-- A request accesses the store by one call of it, or not at all. -/
theorem handleRequest_sound (store : Store) (c : Conn) (keys : CharArray maxLine) (line : CString) :
    Sound store (handleRequest store c keys (scanRequest line)) := by
  obtain ⟨-, h1, h2⟩ := scanRequest_fits line
  generalize scanRequest line = r at h1 h2
  have h := handleRequest_branch store c keys r
  generalize handleRequest store c keys r = v at h
  cases h with
  | auth =>
    obtain ⟨haccess, hstore⟩ := handleAuth_quiet store c r
    rw [Sound, haccess]
    exact hstore
  | put =>
    rw [handlePut]
    split
    · rfl
    · exact ⟨⟨h1, h2⟩, rfl⟩
  | get =>
    rw [handleGet]
    split
    · rfl
    · split <;> exact ⟨h1, rfl⟩
  | del =>
    rw [handleDel]
    split
    · rfl
    · exact ⟨h1, rfl⟩
  | refused | list | quit | unknown => rfl

/-- A turn accesses the store by one call of it, or not at all. -/
theorem handleClient_sound (store : Store) (c : Conn) (keys : CharArray maxLine) : Sound store (handleClient store c keys) := by
  rcases handleClient_cases c with ⟨line, input, -, h⟩ | ⟨-, c', reply, -, -, h⟩
  · rw [h]
    exact handleRequest_sound store _ keys line
  · rw [h]
    rfl

/-- What a request puts: its second argument under its first. -/
theorem handleRequest_put {store : Store} {c : Conn} {keys : CharArray maxLine} {r : Request} {k v : CString}
    (h : (handleRequest store c keys r).access = some (.call (.put k v))) : k = r.arg1 ∧ v = r.arg2 := by
  have hbranch := handleRequest_branch store c keys r
  generalize handleRequest store c keys r = served at h hbranch
  cases hbranch with
  | auth =>
    rw [(handleAuth_quiet store c r).1] at h
    nomatch h
  | put =>
    rw [handlePut] at h
    split at h
    · nomatch h
    · cases h
      exact ⟨rfl, rfl⟩
  | get =>
    rw [handleGet] at h
    split at h
    · nomatch h
    · split at h <;> nomatch h
  | del =>
    rw [handleDel] at h
    split at h <;> nomatch h
  | refused | list | quit | unknown => nomatch h

/-- What a turn puts: a key without white space, and a value that fits and has no newline. -/
theorem handleClient_put (store : Store) (c : Conn) (keys : CharArray maxLine) (k v : CString)
    (h : (handleClient store c keys).access = some (.call (.put k v))) :
    (∀ b ∈ k.bytes, isSpace b = false) ∧ v.length < maxValue ∧ 10 ∉ v.bytes := by
  rcases handleClient_cases c with ⟨line, input, -, hserved⟩ | ⟨-, c', reply, -, -, hserved⟩
  · rw [hserved] at h
    obtain ⟨rfl, rfl⟩ := handleRequest_put h
    exact ⟨scanRequest_arg1 line, (scanRequest_fits line).2.2, scanRequest_arg2 line⟩
  · rw [hserved] at h
    nomatch h

/-! ## The store along a run -/

/-- What a turn does to the map that the store represents. -/
def mapAfter (m : Finmap (fun _ : CString => CString)) (seen : Seen) : Finmap (fun _ : CString => CString) :=
  match seen.access with
  | some (.call call) => (BoundedMap.step maxStore m call).1
  | _ => m

/-- After a turn the store represents the map after it. -/
theorem step_represents {s : State} {m : Finmap (fun _ : CString => CString)} (h : Represents s.store.slots m) (t : Turn) :
    Represents (step s t).1.store.slots (mapAfter m (step s t).2) := by
  have hs := handleClient_sound s.store (s.conn t.client) t.keys
  rw [Sound] at hs
  simp only [step, mapAfter]
  generalize handleClient s.store (s.conn t.client) t.keys = v at hs ⊢
  split at hs
  · rw [hs.2]
    exact (StoreAux.call_refines h hs.1).1
  · rw [hs]
    exact h

/-- Every store the server reaches represents a map. -/
theorem exists_represents {s : State} (h : ∃ m, Represents s.store.slots m) (ts : List Turn) :
    ∃ m, Represents (Runs.final step s ts).store.slots m :=
  Runs.final_invariant (I := fun s : State => ∃ m, Represents s.store.slots m) (P := fun _ => True)
    (fun _ t _ ⟨_, hm⟩ => ⟨_, step_represents hm t⟩) h (fun _ _ => trivial)

/-- What holds of every pair that a turn puts holds of every pair of a map that a run leads to. -/
theorem exists_represents_put {P : CString → CString → Prop}
    (hput : ∀ store c keys k v, (handleClient store c keys).access = some (.call (.put k v)) → P k v) {s : State}
    (h : ∃ m, Represents s.store.slots m ∧ ∀ k v, m.lookup k = some v → P k v) (ts : List Turn) :
    ∃ m, Represents (Runs.final step s ts).store.slots m ∧ ∀ k v, m.lookup k = some v → P k v := by
  refine Runs.final_invariant (I := fun s : State => ∃ m, Represents s.store.slots m ∧ ∀ k v, m.lookup k = some v → P k v)
    (P := fun _ => True) ?_ h (fun _ _ => trivial)
  rintro s t - ⟨m, hm, hpairs⟩
  refine ⟨_, step_represents hm t, ?_⟩
  intro k v hk
  unfold mapAfter at hk
  split at hk
  · rename_i call hcall
    rcases BoundedMap.lookup_of_lookup_step maxStore m call hk with hold | rfl
    · exact hpairs k v hold
    · exact hput _ _ _ _ _ hcall
  · exact hpairs k v hk

/-- The server begins with the empty map. -/
theorem init_represents (inputs : Nat → Stream) : Represents (State.init inputs).store.slots ∅ := StoreAux.represents_empty

/-- The value of a key that no call of a run writes stays. -/
theorem lookup_final {s : State} {m : Finmap (fun _ : CString => CString)} (h : Represents s.store.slots m) {k : CString}
    {ts : List Turn}
    (hts : ∀ e ∈ Runs.trace step s ts, ∀ call : StoreCall, e.2.access = some (.call call) → call.writes ≠ some k) :
    storeGet (Runs.final step s ts).store k = m.lookup k := by
  induction ts generalizing s m with
  | nil => exact StoreAux.storeGet_refines h k
  | cons t ts ih =>
    have hkeep : (mapAfter m (step s t).2).lookup k = m.lookup k := by
      unfold mapAfter
      split
      · rename_i call hcall
        exact BoundedMap.lookup_step_ne maxStore m call (hts _ List.mem_cons_self call hcall)
      · rfl
    rw [Runs.final_cons, ih (step_represents h t) (fun e he => hts e (List.mem_cons_of_mem _ he)), hkeep]

/-! ## Lines -/

/-- A line that `recv_line` gives as it stands. -/
theorem recvLine_plain {line : List UInt8} (ending : Ending) (rest : List UInt8) (h10 : 10 ∉ line)
    (hlen : line.length < maxLine - 1) (h13 : line.getLast? ≠ some 13) :
    recvLine maxLine ⟨line ++ 10 :: rest, ending⟩ = some ⟨line.length, line, ⟨rest, ending⟩⟩ := by
  rw [FramingAux.recvLine_line h10 hlen, FramingAux.cutReturn_of_ne h13]

/-- A frame of the stream of an open connection, with the newline behind it, is what its next turn processes. -/
theorem handleClient_frame {c : Conn} {line rest : List UInt8} (hopen : c.isOpen = true)
    (hin : c.input.bytes = line ++ 10 :: rest) (hne : line ≠ []) (h10 : 10 ∉ line) (hlen : line.length < maxLine - 1) :
    c.pending = some (scanRequest (CString.ofMem (lineText line))) ∧ ∀ store keys, handleClient store c keys =
      handleRequest store { c with input := ⟨rest, c.input.ending⟩ } keys (scanRequest (CString.ofMem (lineText line))) := by
  have hrecv : recvLine maxLine c.input = some ⟨line.length, FramingAux.cutReturn line, ⟨rest, c.input.ending⟩⟩ := by
    rw [← FramingAux.recvLine_line h10 hlen, ← hin]
  have hpos : (0 : Int) < line.length := Int.natCast_pos.mpr (List.length_pos_iff.mpr hne)
  constructor
  · rw [Conn.pending, if_pos hopen, hrecv]
    simp only [if_pos hpos, FramingAux.ofMem_cutReturn]
  · intro store keys
    rw [handleClient, if_pos hopen, hrecv]
    simp only [handleReceived]
    rw [if_neg (Int.ne_of_gt hpos), if_neg (Int.not_lt.mpr (Int.le_of_lt hpos)), FramingAux.ofMem_cutReturn]

/-- A word of a request: it fits its array and has no white space. -/
structure IsWord (w : CString) : Prop where
  pos : 0 < w.length
  fits : w.length < maxKey
  noSpace : ∀ c ∈ w.bytes, isSpace c = false

/-- A word is scanned up to the blank behind it. -/
theorem scanWord_word {w : CString} (hw : IsWord w) {s : List UInt8} (hs : ∀ c, s.head? = some c → isSpace c = true) :
    scanWord (maxKey - 1) (w.bytes ++ s) = some (w, s) := by
  have hne : w.bytes ≠ [] := List.length_pos_iff.mp hw.pos
  rw [scanWord, skipSpace_append hne hw.noSpace]
  refine scanWhile_append hne (Nat.le_sub_one_of_lt hw.fits) ?_ ?_
  · intro c hc
    rw [hw.noSpace c hc]
    rfl
  · intro c hc
    rw [hs c hc]
    rfl

theorem head?_space {s : List UInt8} : ∀ c, (32 :: s).head? = some c → isSpace c = true := by
  intro c hc
  obtain rfl := Option.some.inj hc
  rfl

/-- The blank in front of the next one is skipped. -/
theorem skipSpace_word {w : CString} (hw : IsWord w) (s : List UInt8) : skipSpace (32 :: (w.bytes ++ s)) = w.bytes ++ s := by
  rw [skipSpace_space, skipSpace_append (List.length_pos_iff.mp hw.pos) hw.noSpace]

/-- A command with a word behind it. -/
theorem scanRequest_two {line cmd arg1 : CString} (hcmd : IsWord cmd) (harg1 : IsWord arg1)
    (hline : line.bytes = cmd.bytes ++ 32 :: arg1.bytes) : scanRequest line = ⟨cmd, arg1, cstring ""⟩ := by
  have h1 := scanWord_word harg1 (s := []) (fun c hc => by nomatch hc)
  have h2 := skipSpace_word harg1 []
  rw [List.append_nil] at h1 h2
  rw [scanRequest, hline, scanWord_word hcmd head?_space]
  simp only [h1, h2]
  rfl

/-- A command with a word and the rest of the line behind it. -/
theorem scanRequest_three {line cmd arg1 arg2 : CString} (hcmd : IsWord cmd) (harg1 : IsWord arg1) (hpos : 0 < arg2.length)
    (hfits : arg2.length < maxValue) (h10 : 10 ∉ arg2.bytes) (hhead : skipSpace arg2.bytes = arg2.bytes)
    (hline : line.bytes = cmd.bytes ++ 32 :: (arg1.bytes ++ 32 :: arg2.bytes)) : scanRequest line = ⟨cmd, arg1, arg2⟩ := by
  have h1 := scanWord_word harg1 (s := 32 :: arg2.bytes) head?_space
  have h2 := skipSpace_word harg1 (32 :: arg2.bytes)
  have h3 : scanLine (maxValue - 1) arg2.bytes = some (arg2, []) := by
    have h := scanWhile_append (p := fun c => c ≠ 10) (s := []) (List.length_pos_iff.mp hpos) (Nat.le_sub_one_of_lt hfits)
      (fun c hc => decide_eq_true (fun h => h10 (h ▸ hc))) (fun c hc => by nomatch hc)
    rwa [List.append_nil] at h
  rw [scanRequest, hline, scanWord_word hcmd head?_space]
  simp only [h1, h2, skipSpace_space, hhead, h3]

end HandlerAux

end OsSecurity.Server
