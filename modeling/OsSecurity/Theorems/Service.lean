import OsSecurity.Server.Service
import OsSecurity.Theorems.Responses

/-!
# Clients and server do what the service allows

Every run of the clients and the server is told by a history of the service: the server's turns on a line, in their order. A client has
sent the lines that the history has of it, and shows the answers that they got there.
-/

namespace OsSecurity.Server

open CLib Interleaving SlotTable

/-- What is known of the client of a connection. -/
def Conn.login (c : Conn) : LoginState := { authenticated := c.authenticated, failures := c.authAttempts, isOpen := c.isOpen }

/-- The lines of a client in a history. -/
def eventsOf (i : Nat) (es : List ServiceEvent) : List ServiceEvent := es.filter (fun e => e.client = i)

/-- In a history the line `k` of the client `i` is answered with what the client shows as `r`. -/
def AnsweredIn (es : List ServiceEvent) (i k : Nat) (r : CString) : Prop :=
  ∃ e, (eventsOf i es)[k]? = some e ∧ r = CString.ofMem (lineText e.answer)

/-- A history of the service tells where the network is: the store represents the map, an open connection knows of its client what the
service does, the lines in the history are the first ones that the client has sent, and the responses that it has shown are the answers
to them, but for the notice behind the last failed `AUTH`. -/
structure Tells (s : Network) (es : List ServiceEvent) (σ : Service) : Prop where
  store : Represents s.store.slots σ.contents
  login : ∀ i, (s.link i).conn.isOpen = true → σ.login i = (s.link i).conn.login
  asked : ∀ i, (eventsOf i es).map (·.line) <+: (s.link i).session.asked
  shown : ∀ i k r, (s.link i).session.responses[k]? = some r → AnsweredIn es i k r ∨
    r = notice ∧ k + 1 = (s.link i).session.responses.length ∧ (s.link i).conn.isOpen = false

namespace ServiceAux

open HandlerAux LockstepAux ResponsesAux

/-! ## What a request is answered -/

/-- The reply begins with the line `a`. -/
def StartsWith (reply a : List UInt8) : Prop := 10 ∉ a ∧ ∃ tail, reply = a ++ [10] ++ tail

/-- A line of the source that fits is a reply by itself. -/
theorem startsWith_literal {msg : String} (h : (bytes msg).length ≤ maxLine ∧ 10 ∉ bytes msg) : StartsWith (sendLine (bytes msg)) (bytes msg) :=
  ⟨h.2, [], (sendLine_fits h.1).trans (List.append_nil _).symm⟩

/-- The handler compares the word that the service asks for. -/
theorem cmd_iff (r : Request) (name : String) : strcmp r.cmd.bytes (bytes name) = 0 ↔ r.cmd = cstring name := by
  rw [strcmp_eq_zero_iff, cstr_bytes, cstring]
  exact ⟨fun h => CString.ext h, fun h => congrArg CString.bytes h⟩

/-- The pairs that `AUTH` takes are those of the table. -/
theorem isUser_iff (r : Request) : r.isUser = true ↔ (r.arg1, r.arg2) ∈ validUsers := by
  rw [Request.isUser, List.any_eq_true]
  simp only [Bool.and_eq_true, beq_iff_eq, strcmp_eq_zero_iff, cstr_bytes, ← CString.ext_iff]
  constructor
  · rintro ⟨⟨name, password⟩, hmem, rfl, rfl⟩
    exact hmem
  · intro hmem
    exact ⟨_, hmem, rfl, rfl⟩

/-- What `is_valid_token` takes for a key. -/
theorem isKeyText_iff (k : CString) : isValidToken k (maxKey - 1) = true ↔ IsKeyText k := by
  simp only [isValidToken, maxKey, Bool.and_eq_true, Bool.not_eq_true', Bool.or_eq_false_iff, beq_eq_false_iff_ne, decide_eq_false_iff_not,
    List.all_eq_true, ne_eq]
  constructor
  · rintro ⟨⟨hpos, hfits⟩, hall⟩
    exact ⟨Nat.pos_of_ne_zero hpos, Nat.lt_succ_of_le (Nat.not_lt.mp hfits), hall⟩
  · rintro ⟨hpos, hfits, hall⟩
    exact ⟨⟨Nat.ne_of_gt hpos, Nat.not_lt.mpr (Nat.le_of_lt_succ hfits)⟩, hall⟩

/-- What `PUT` takes for a key and a value, when the value comes from a request. -/
theorem isPair_iff (r : Request) (hvalue : r.arg2.length < maxValue) :
    (!isValidToken r.arg1 (maxKey - 1) || r.arg2.length == 0 || decide (maxValue - 1 < r.arg2.length)) = false ↔ IsPair r := by
  have hlast : ¬ maxValue - 1 < r.arg2.length := Nat.not_lt.mpr (Nat.le_pred_of_lt hvalue)
  rw [Bool.or_eq_false_iff, Bool.or_eq_false_iff, Bool.not_eq_false', isKeyText_iff, beq_eq_false_iff_ne, decide_eq_false_iff_not, IsPair]
  exact ⟨fun ⟨⟨hkey, hpos⟩, _⟩ => ⟨hkey, Nat.pos_of_ne_zero hpos, hvalue⟩, fun ⟨hkey, hpos, _⟩ => ⟨⟨hkey, Nat.ne_of_gt hpos⟩, hlast⟩⟩

/-- What the server does with a request is what the service may do. -/
structure Refines (m : Contents) (c : Conn) (r : Request) (served : Served) : Prop where
  performs : ∃ a m', Performs m c.login r a m' served.conn.login ∧ Represents served.store.slots m' ∧ StartsWith served.reply a

variable {store : Store} {m : Contents} {c : Conn} {r : Request}

/-- An answer that leaves the store alone. -/
theorem refines_answer (hm : Represents store.slots m) {msg : String} {c' : Conn} (hp : Performs m c.login r (bytes msg) m c'.login)
    (hmsg : (bytes msg).length ≤ maxLine ∧ 10 ∉ bytes msg) : Refines m c r (answer store c' msg) :=
  ⟨_, _, hp, hm, startsWith_literal hmsg⟩

/-- `AUTH`, in each of its four cases. -/
theorem handleAuth_refines (hm : Represents store.slots m) (hcmd : r.cmd = cstring "AUTH") : Refines m c r (handleAuth store c r) := by
  have hbranch := IsolationAux.handleAuth_branch store c r
  generalize handleAuth store c r = served at hbranch
  cases hbranch with
  | already hauth => exact refines_answer hm (.already hcmd hauth) (by decide)
  | passed hauth huser => exact refines_answer hm (.passed hcmd hauth ((isUser_iff r).mp huser)) (by decide)
  | failed hauth huser hmax =>
    refine refines_answer hm (.failed hcmd hauth ?_ (Nat.not_le.mp hmax)) (by decide)
    exact fun hmem => Bool.false_ne_true (huser.symm.trans ((isUser_iff r).mpr hmem))
  | last hauth huser hmax =>
    refine ⟨_, m, .failedLast hcmd hauth ?_ hmax, hm, by decide, notice.bytes ++ [10], ?_⟩
    · exact fun hmem => Bool.false_ne_true (huser.symm.trans ((isUser_iff r).mpr hmem))
    · show sendLine (bytes "ERR AUTH invalid_credentials") ++ sendLine (bytes "ERR too_many_attempts_closing") = _
      decide

/-- `PUT`: where the service keeps its map when there is no room, `store_put` returns 0, and both answer the same. -/
theorem handlePut_refines (hm : Represents store.slots m) (hcmd : r.cmd = cstring "PUT") (hauth : c.authenticated = true)
    (hkey : r.arg1.length < maxKey) (hvalue : r.arg2.length < maxValue) : Refines m c r (handlePut store c r) := by
  have hpair := isPair_iff r hvalue
  rw [handlePut]
  split
  · rename_i hinvalid
    exact refines_answer hm (.putInvalid hcmd hauth (fun h => Bool.false_ne_true ((hpair.mpr h).symm.trans hinvalid))) (by decide)
  · rename_i hvalid
    exact ⟨_, _, .put hcmd hauth (hpair.mp (by simpa using hvalid)), (StoreAux.storePut_refines hm hkey hvalue).1,
      startsWith_literal (by decide)⟩

/-- `GET`: a value in the store fits the line it is sent in. -/
theorem handleGet_refines (hm : Represents store.slots m) (hstore : Sendable store) (hcmd : r.cmd = cstring "GET")
    (hauth : c.authenticated = true) : Refines m c r (handleGet store c r) := by
  rw [handleGet]
  split
  · rename_i hinvalid
    exact refines_answer hm (.getInvalid hcmd hauth (fun h => absurd hinvalid (by rw [(isKeyText_iff _).mpr h]; decide))) (by decide)
  · rename_i hvalid
    have hkey : IsKeyText r.arg1 := (isKeyText_iff _).mp (by simpa using hvalid)
    have hlookup := StoreAux.storeGet_refines hm r.arg1
    cases hget : storeGet store r.arg1 with
    | none =>
      have hnot : r.arg1 ∉ m := Finmap.lookup_eq_none.mp (hlookup.symm.trans hget)
      exact ⟨_, m, .notGot hcmd hauth hkey hnot, hm, startsWith_literal (by decide)⟩
    | some v =>
      obtain ⟨hlen, h10⟩ := hstore.value r.arg1 v hget
      refine ⟨_, m, .got hcmd hauth hkey (hlookup.symm.trans hget), hm, ?_, [], ?_⟩
      · rw [List.mem_append, not_or]
        exact ⟨by decide, h10⟩
      · exact (RequestAux.sendLine_value hlen).trans (List.append_nil _).symm

/-- `DEL`: what `store_del` returns tells whether the key was in the map. -/
theorem handleDel_refines (hm : Represents store.slots m) (hcmd : r.cmd = cstring "DEL") (hauth : c.authenticated = true) :
    Refines m c r (handleDel store c r) := by
  rw [handleDel]
  split
  · rename_i hinvalid
    exact refines_answer hm (.delInvalid hcmd hauth (fun h => absurd hinvalid (by rw [(isKeyText_iff _).mpr h]; decide))) (by decide)
  · rename_i hvalid
    have hkey : IsKeyText r.arg1 := (isKeyText_iff _).mp (by simpa using hvalid)
    obtain ⟨hm', hret⟩ := StoreAux.storeDel_refines hm r.arg1
    dsimp only
    by_cases hheld : r.arg1 ∈ m
    · rw [hret, decide_eq_true hheld, if_pos rfl]
      exact ⟨_, _, .deleted hcmd hauth hkey hheld, hm', startsWith_literal (by decide)⟩
    · rw [hret, decide_eq_false hheld, if_neg Bool.false_ne_true]
      rw [BoundedMap.erase_of_notMem hheld] at hm'
      exact ⟨_, _, .notDeleted hcmd hauth hkey hheld, hm', startsWith_literal (by decide)⟩

/-- `LIST`, where there are keys and they fit a line. -/
theorem handleList_refines (hm : Represents store.slots m) (hstore : Sendable store) (hcmd : r.cmd = cstring "LIST")
    (hauth : c.authenticated = true) (keys : CharArray maxLine) (hne : storedKeys store.entries ≠ [])
    (hfit : listLength (storedKeys store.entries) ≤ 510) : Refines m c r (handleList store c keys) := by
  have hkeys : ∀ k, k ∈ storedKeys store.entries ↔ k ∈ m := fun k => by rw [ListAux.storedKeys_eq, hm.mem_keys_iff]
  have hnodup : (storedKeys store.entries).Nodup := ListAux.storedKeys_eq store ▸ hm.nodup
  refine ⟨_, m, .listed hcmd hauth hnodup hkeys, hm, ?_, [], ?_⟩
  · exact ListAux.notMem_listLine hstore.key rfl (by decide) (by decide)
  · exact (ListAux.handleList_fits c keys hne (Nat.le_trans hfit (by decide))).trans (List.append_nil _).symm

/-- What the server does with a request is what the service may do, branch by branch in the order of the source. -/
theorem handleRequest_refines (hm : Represents store.slots m) (hstore : Sendable store) (keys : CharArray maxLine)
    (hkey : r.arg1.length < maxKey) (hvalue : r.arg2.length < maxValue)
    (hlist : (handleRequest store c keys r).access = some .list →
      storedKeys store.entries ≠ [] ∧ listLength (storedKeys store.entries) ≤ 510) :
    Refines m c r (handleRequest store c keys r) := by
  unfold handleRequest at hlist ⊢
  by_cases hcmd : strcmp r.cmd.bytes (bytes "AUTH") = 0
  · rw [if_pos hcmd]
    exact handleAuth_refines hm ((cmd_iff r _).mp hcmd)
  rw [if_neg hcmd] at hlist ⊢
  by_cases hauth : c.authenticated = true
  swap
  · rw [Bool.not_eq_true] at hauth
    rw [if_pos (by simp [hauth])]
    exact refines_answer hm (.refused (fun h => hcmd ((cmd_iff r _).mpr h)) hauth) (by decide)
  rw [if_neg (by simp [hauth])] at hlist ⊢
  by_cases hput : strcmp r.cmd.bytes (bytes "PUT") = 0
  · rw [if_pos hput]
    exact handlePut_refines hm ((cmd_iff r _).mp hput) hauth hkey hvalue
  rw [if_neg hput] at hlist ⊢
  by_cases hget : strcmp r.cmd.bytes (bytes "GET") = 0
  · rw [if_pos hget]
    exact handleGet_refines hm hstore ((cmd_iff r _).mp hget) hauth
  rw [if_neg hget] at hlist ⊢
  by_cases hdel : strcmp r.cmd.bytes (bytes "DEL") = 0
  · rw [if_pos hdel]
    exact handleDel_refines hm ((cmd_iff r _).mp hdel) hauth
  rw [if_neg hdel] at hlist ⊢
  by_cases hlisting : strcmp r.cmd.bytes (bytes "LIST") = 0
  · rw [if_pos hlisting] at hlist ⊢
    obtain ⟨hne, hfit⟩ := hlist rfl
    exact handleList_refines hm hstore ((cmd_iff r _).mp hlisting) hauth keys hne hfit
  rw [if_neg hlisting]
  by_cases hquit : strcmp r.cmd.bytes (bytes "QUIT") = 0
  · rw [if_pos hquit]
    exact refines_answer hm (.quit ((cmd_iff r _).mp hquit) hauth) (by decide)
  · rw [if_neg hquit]
    rw [cmd_iff] at hcmd hput hget hdel hlisting hquit
    exact refines_answer hm (.unknown (by simp [hcmd, hput, hget, hdel, hlisting, hquit]) hauth) (by decide)

/-- What the server does with a line is what the service may do. -/
theorem handled_serves (hm : Represents store.slots m) (hstore : Sendable store) {keys : CharArray maxLine} {line : CString} {served : Served}
    (h : Handled store c keys line [] served) (hlist : served.access = some .list →
      storedKeys store.entries ≠ [] ∧ listLength (storedKeys store.entries) ≤ 510) :
    ∃ a m', Serves m c.login line a m' served.conn.login ∧ Represents served.store.slots m' ∧ StartsWith served.reply a := by
  cases h with
  | request hfits =>
    obtain ⟨-, hkey, hvalue⟩ := scanRequest_fits (CString.ofMem (lineText line.bytes))
    obtain ⟨a, m', hp, hm', ha⟩ := (handleRequest_refines hm hstore keys hkey hvalue hlist).performs
    exact ⟨a, m', .request hfits hp, hm', ha⟩
  | tooLong hlong => exact ⟨_, m, .tooLong hlong, hm, startsWith_literal (by decide)⟩

/-! ## The history of a client -/

variable {i : Nat} {es : List ServiceEvent} {e : ServiceEvent}

/-- An event is the last one of its client. -/
theorem eventsOf_self (es : List ServiceEvent) (e : ServiceEvent) : eventsOf e.client (es ++ [e]) = eventsOf e.client es ++ [e] := by
  simp [eventsOf]

/-- An event is none of another client. -/
theorem eventsOf_other (h : e.client ≠ i) (es : List ServiceEvent) : eventsOf i (es ++ [e]) = eventsOf i es := by
  simp [eventsOf, h]

/-- An answer is in every longer history. -/
theorem answeredIn_concat {k : Nat} {r : CString} (h : AnsweredIn es i k r) (e : ServiceEvent) : AnsweredIn (es ++ [e]) i k r := by
  obtain ⟨x, hx, hr⟩ := h
  have hmine : eventsOf i (es ++ [e]) = eventsOf i es ++ eventsOf i [e] := List.filter_append ..
  exact ⟨x, by rw [hmine, List.getElem?_append_left (List.getElem?_eq_some_iff.mp hx).1, hx], hr⟩

/-- What a history says of a client and its connection. -/
structure Matched (l : Link) (i : Nat) (es : List ServiceEvent) (c : LoginState) : Prop where
  login : l.conn.isOpen = true → c = l.conn.login
  asked : (eventsOf i es).map (·.line) <+: l.session.asked
  synced : Synced l (AnsweredIn es i)
  /-- A line on its way is the next one. -/
  waiting : ∀ input, l.session.phase = .reply input → l.replies = [] → l.conn.isOpen = true →
    (eventsOf i es).length + 1 = l.session.asked.length

variable {l l' : Link} {d : LoginState}

/-- A client that has not begun. -/
theorem matched_start (stdin : List UInt8) (i : Nat) : Matched (.start stdin) i [] .fresh where
  login _ := rfl
  asked := List.prefix_refl _
  synced := synced_start stdin _
  waiting _ h := by cases h

/-- The event of another client. -/
theorem Matched.other (h : Matched l i es d) (hi : e.client ≠ i) : Matched l i (es ++ [e]) d where
  login := h.login
  asked := by rw [eventsOf_other hi]; exact h.asked
  synced := h.synced.mono (fun _ _ hk => answeredIn_concat hk e)
  waiting := by rw [eventsOf_other hi]; exact h.waiting

/-- At the prompt every line of an open connection has been answered. -/
theorem Matched.length_eq (h : Matched l i es d) (hphase : l.session.phase = .prompt) (hopen : l.conn.isOpen = true) :
    (eventsOf i es).length = l.session.asked.length := by
  have hle : (eventsOf i es).length ≤ l.session.asked.length := by
    simpa using h.asked.length_le
  refine Nat.le_antisymm hle ?_
  rw [h.synced.prompt hphase]
  by_contra hlt
  rw [Nat.not_le] at hlt
  -- the response behind the last event has no event
  rcases h.synced.shown _ _ (List.getElem?_eq_getElem hlt) with ⟨x, hx, -⟩ | ⟨-, -, hclosed, -⟩
  · exact absurd (List.getElem?_eq_some_iff.mp hx).1 (lt_irrefl _)
  · cases hopen.symm.trans hclosed

/-- A step of the client itself: it sends the next line only when the last one has its answer. -/
theorem Matched.client (h : Matched l i es d) (hstep : l.clientStep = some l') : Matched l' i es d := by
  have hsynced := synced_client h.synced hstep
  cases clientStep_moved hstep with
  | received input n c hphase hrecv hshown =>
    have hasked : c.asked = l.session.asked ∧ ∀ input, c.phase ≠ .reply input := by
      cases hshown <;> simp [Client.Session.leave, Client.Session.print]
    exact ⟨h.login, hasked.1.symm ▸ h.asked, hsynced, fun input hreply => absurd hreply (hasked.2 input)⟩
  | prompted out hphase hout =>
    cases hout with
    | left => exact ⟨h.login, h.asked, hsynced, fun input hreply => (by cases hreply)⟩
    | again rest printed =>
      exact ⟨h.login, h.asked, hsynced, fun input hreply => (by cases hphase.symm.trans hreply)⟩
    | sent rest input =>
      refine ⟨h.login, h.asked.trans (List.prefix_append _ _), hsynced, ?_⟩
      intro _ _ _ hopen
      show (eventsOf i es).length + 1 = (l.session.asked ++ [input]).length
      rw [h.length_eq hphase hopen, List.length_append, List.length_singleton]

/-- A server's turn that takes no line. -/
theorem Matched.left (h : Matched l i es d) (hsynced : Synced l' (AnsweredIn es i)) (hsession : l'.session = l.session)
    (hclosed : l'.conn.isOpen = false) : Matched l' i es d where
  login hopen := by cases hopen.symm.trans hclosed
  asked := hsession ▸ h.asked
  synced := hsynced
  waiting _ _ _ hopen := by cases hopen.symm.trans hclosed

/-- The client shows the answer as far as `recv_line` keeps it. -/
theorem eq_of_firstLine {reply a : List UInt8} {r : CString} (ha : StartsWith reply a) (hr : FirstLine reply r) :
    r = CString.ofMem (lineText a) := by
  obtain ⟨h10, tail, hreply⟩ := ha
  obtain ⟨b, tail', hreply', hb, rfl⟩ := hr
  have hsplit : b ++ 10 :: tail' = a ++ 10 :: tail := by simpa using hreply'.symm.trans hreply
  rw [(Cut.first_inj hb h10 hsplit).1]

/-- The turn of the server that takes the line of the client, which becomes the last event. -/
theorem Matched.served (h : Matched l e.client es d) {served : Served} (hopen : l.conn.isOpen = true)
    (hasks : l.Asks l.session.responses.length e.line) (ha : StartsWith served.reply e.answer)
    (hsynced : (∀ k r, AnsweredIn es e.client k r → AnsweredIn (es ++ [e]) e.client k r) →
      (∀ r, FirstLine served.reply r → AnsweredIn (es ++ [e]) e.client l.session.responses.length r) →
        Synced (l.serve served) (AnsweredIn (es ++ [e]) e.client)) :
    Matched (l.serve served) e.client (es ++ [e]) served.conn.login := by
  have hlength : (eventsOf e.client es).length = l.session.responses.length := by
    have hnext := h.waiting e.line hasks.phase hasks.replies hopen
    rw [hasks.asked] at hnext
    exact Nat.succ.inj hnext
  refine ⟨fun _ => rfl, ?_, ?_, ?_⟩
  · rw [eventsOf_self, List.map_append]
    refine Cut.prefix_concat h.asked ?_
    rw [List.length_map, hlength]
    exact hasks.last
  · refine hsynced (fun k r hk => answeredIn_concat hk e) (fun r hr => ?_)
    refine ⟨e, ?_, eq_of_firstLine ha hr⟩
    rw [eventsOf_self, ← hlength, List.getElem?_concat_length]
  · intro _ _ hreplies
    obtain ⟨-, tail, hreply⟩ := ha
    exact absurd hreplies (by simp [Link.serve, hreply])

/-! ## Runs -/

/-- Histories follow one another. -/
theorem Run.append {σ σ' τ : Service} {es es' : List ServiceEvent} (h : Service.Run σ es σ') (h' : Service.Run σ' es' τ) :
    Service.Run σ (es ++ es') τ := by
  induction h with
  | done => exact h'
  | next hopen hserves hrest ih => exact .next hopen hserves (ih h')

/-- A history and what it leads to, with the network that it tells of. -/
structure Told (s : Network) (es : List ServiceEvent) (σ : Service) : Prop where
  run : Service.Run .start es σ
  store : Represents s.store.slots σ.contents
  inv : StoreInv s.store
  link : ∀ i, Matched (s.link i) i es (σ.login i)

/-- What `Told` says in the terms of the result. -/
theorem Told.tells {s : Network} {σ : Service} (h : Told s es σ) : Tells s es σ where
  store := h.store
  login i := (h.link i).login
  asked i := (h.link i).asked
  shown i k r hr := ((h.link i).synced.shown k r hr).imp_right (fun ⟨hnotice, hk, hclosed, _⟩ => ⟨hnotice, hk, hclosed⟩)

/-- One connection changes. -/
theorem matched_update {s : Network} {σ : Service} (h : ∀ j, Matched (s.link j) j es (σ.login j)) (hl : Matched l i es (σ.login i)) (j : Nat) :
    Matched (Function.update s.link i l j) j es (σ.login j) := by
  by_cases hj : j = i
  · subst hj
    rw [Function.update_self]
    exact hl
  · rw [Function.update_of_ne hj]
    exact h j

/-- A step of the network: the history stays, or has one more event. -/
theorem Told.step {n : Nat} {s s' : Network} {σ : Service} {a : Actor} (h : Told s es σ)
    (hlist : ∀ i keys, a = .server i keys → (handleClient s.store (s.link i).conn keys).access = some .list →
      storedKeys s.store.entries ≠ [] ∧ listLength (storedKeys s.store.entries) ≤ 510)
    (hstep : networkStep n s a = some s') : ∃ es' σ', Service.Run σ es' σ' ∧ Told s' (es ++ es') σ' := by
  cases a with
  | client i =>
    simp only [networkStep] at hstep
    split at hstep
    · obtain ⟨l, hl, rfl⟩ := Option.map_eq_some_iff.mp hstep
      refine ⟨[], σ, .done σ, ?_⟩
      rw [List.append_nil]
      exact ⟨h.run, h.store, h.inv, matched_update h.link ((h.link i).client hl)⟩
    · cases hstep
  | server i keys =>
    simp only [networkStep] at hstep
    split at hstep
    · obtain ⟨⟨store, l⟩, hl, rfl⟩ := Option.map_eq_some_iff.mp hstep
      have hopen := serverStep_open hl
      have hsynced : ∀ {J : Nat → CString → Prop}, _ → _ → Synced l J :=
        synced_server h.inv.sendable (hlist i keys rfl) (h.link i).synced hl
      cases serverStep_turned (h.link i).synced hl with
      | left hphase hreplies =>
        have hstill := hsynced (fun _ _ hk => hk) (fun input r hasks => by cases hphase.symm.trans hasks.phase)
        refine ⟨[], σ, .done σ, ?_⟩
        rw [List.append_nil]
        exact ⟨h.run, h.store, h.inv, matched_update h.link ((h.link i).left hstill rfl rfl)⟩
      | line input hasks hin hhandled =>
        obtain ⟨a, m', hserves, hm', ha⟩ := handled_serves h.store h.inv.sendable hhandled (hlist i keys rfl)
        rw [← (h.link i).login hopen] at hserves
        have hturn : Service.Run σ [⟨i, input, a⟩] _ := .next (by rw [(h.link i).login hopen]; exact hopen) hserves (.done _)
        refine ⟨_, _, hturn, Run.append h.run hturn, hm', h.inv.handleClient _ keys, fun j => ?_⟩
        have hserved := (h.link i).served (e := ⟨i, input, a⟩) hopen hasks ha
          (fun hkept hnew => hsynced hkept (fun _ r _ hfirst => hnew r hfirst))
        show Matched (Function.update s.link i _ j) j _ (Function.update σ.login i _ j)
        by_cases hj : j = i
        · subst hj
          rw [Function.update_self, Function.update_self]
          exact hserved
        · rw [Function.update_of_ne hj, Function.update_of_ne hj]
          exact (h.link j).other (Ne.symm hj)
    · cases hstep

/-- Before the first step nothing has been told. -/
theorem told_start (stdins : Nat → List UInt8) : Told (Network.init stdins) [] .start where
  run := .done _
  store := StoreAux.represents_empty
  inv := ⟨∅, StoreAux.represents_empty, fun k v hv => by simp at hv⟩
  link i := matched_start (stdins i) i

/-- Of the history of a run, what tells of each part of the run. -/
theorem exists_told {n : Nat} {init s : Network} {as : List Actor} (hinit : Told init [] .start) (hlist : ∀ i, ListsFit n init as i)
    (h : run (networkStep n) init as = some s) :
    ∃ es σ, Told s es σ ∧ ∀ before after t, as = before ++ after → run (networkStep n) init before = some t →
      ∃ es₁ es₂ τ, es = es₁ ++ es₂ ∧ Told t es₁ τ ∧ Service.Run τ es₂ σ := by
  induction as using List.reverseRecOn generalizing s with
  | nil =>
    obtain rfl := Option.some.inj h
    refine ⟨[], .start, hinit, ?_⟩
    intro before after t hsplit ht
    obtain ⟨rfl, rfl⟩ := List.append_eq_nil_iff.mp hsplit.symm
    obtain rfl := Option.some.inj ht
    exact ⟨[], [], .start, rfl, hinit, .done _⟩
  | append_singleton as a ih =>
    obtain ⟨t, ht, hstep⟩ := exists_of_run_concat h
    obtain ⟨es, σ, htold, hparts⟩ := ih (fun i => listsFit_of_concat (hlist i)) ht
    have hfit : ∀ i keys, a = .server i keys → (handleClient t.store (t.link i).conn keys).access = some .list →
        storedKeys t.store.entries ≠ [] ∧ listLength (storedKeys t.store.entries) ≤ 510 := by
      rintro i keys rfl
      exact hlist i as keys [] t rfl ht
    obtain ⟨es', σ', hrun, htold'⟩ := htold.step hfit hstep
    refine ⟨es ++ es', σ', htold', ?_⟩
    intro before after u hsplit hu
    rcases List.eq_nil_or_concat after with rfl | ⟨after, b, rfl⟩
    · rw [List.append_nil] at hsplit
      obtain rfl := Option.some.inj ((hsplit ▸ h).symm.trans hu)
      exact ⟨es ++ es', [], σ', (List.append_nil _).symm, htold', .done _⟩
    · rw [List.concat_eq_append, ← List.append_assoc] at hsplit
      obtain ⟨es₁, es₂, τ, rfl, htold₁, hrun₂⟩ := hparts before after u (List.append_inj' hsplit rfl).1 hu
      exact ⟨es₁, es₂ ++ es', τ, List.append_assoc .., htold₁, Run.append hrun₂ hrun⟩

end ServiceAux

/-- For all inputs of the clients and every run of clients and server, in any order of their steps, there is a history of the service,
one line after the other, that tells where the run has led, and the history of each part of the run is a part of it: what a client had
been shown at some time was answered before what was sent after it. This is for runs in which every `LIST` finds keys that fit a line. -/
theorem network_refines_service {n : Nat} {stdins : Nat → List UInt8} {as : List Actor} {s : Network}
    (h : run (networkStep n) (Network.init stdins) as = some s) (hlist : ∀ i, ListsFit n (Network.init stdins) as i) :
    ∃ es σ, Service.Run .start es σ ∧ Tells s es σ ∧
      ∀ before after t, as = before ++ after → run (networkStep n) (Network.init stdins) before = some t →
        ∃ es₁ es₂ τ, es = es₁ ++ es₂ ∧ Service.Run .start es₁ τ ∧ Tells t es₁ τ ∧ Service.Run τ es₂ σ := by
  obtain ⟨es, σ, htold, hparts⟩ := ServiceAux.exists_told (ServiceAux.told_start stdins) hlist h
  refine ⟨es, σ, htold.run, htold.tells, ?_⟩
  intro before after t hsplit ht
  obtain ⟨es₁, es₂, τ, hes, htold₁, hrun⟩ := hparts before after t hsplit ht
  exact ⟨es₁, es₂, τ, hes, htold₁.run, htold₁.tells, hrun⟩

/-- Where one client logs in, puts a value and lists the keys, and another one logs in. -/
theorem network_refines_service_list :
    ∃ s es σ, run (networkStep 2) (Network.init typedLines) typedSteps = some s ∧ Service.Run .start es σ ∧ Tells s es σ := by
  obtain ⟨s, hs⟩ := Option.isSome_iff_exists.mp
    (show (run (networkStep 2) (Network.init typedLines) typedSteps).isSome = true by decide +kernel)
  obtain ⟨es, σ, hrun, htells, -⟩ := network_refines_service hs (ResponsesAux.listsFit_of_all (by decide +kernel))
  exact ⟨s, es, σ, hs, hrun, htells⟩

end OsSecurity.Server
