import OsSecurity.Theorems.Closing
import OsSecurity.Lemmas.Listing

/-!
# Client and server in lockstep

Each branch of the handler answers with one line that the client's `recv_line` can take, and only the last failed `AUTH` is followed by
another one. So the lines sent on a connection are the answers to its requests, in their order.
-/

namespace OsSecurity.Server

open CLib SlotTable

/-- A line that the client's `recv_line` gives with its length. -/
structure IsAnswer (a : List UInt8) : Prop where
  ne : a ≠ []
  noNewline : 10 ∉ a
  fits : a.length < Client.maxLine - 1

/-- A request that a connection processed, the bytes sent in that turn, and whether it was the last `AUTH` that may fail. -/
structure Exchange where
  request : Request
  reply : List UInt8
  lastAuth : Bool
  deriving DecidableEq

/-- The requests that the connection `i` processes in a run. -/
def exchanges (i : Nat) : State → List Turn → List Exchange
  | _, [] => []
  | s, t :: ts =>
    (if t.client = i then
        ((s.conn i).pending.map (fun r => ⟨r, (step s t).2.reply, (s.conn i).failsLastAuth⟩)).toList
      else []) ++ exchanges i (step s t).1 ts

/-- The line `a` is the answer to a request, and all of it but for the notice behind the last failed `AUTH`. -/
def Answers (e : Exchange) (a : List UInt8) : Prop :=
  IsAnswer a ∧ e.reply = a ++ [10] ++ if e.lastAuth then bytes "ERR too_many_attempts_closing\n" else []

namespace LockstepAux

open HandlerAux

/-- What the replies take from a store is fit to be sent. -/
structure Sendable (store : Store) : Prop where
  value : ∀ k v, storeGet store k = some v → v.length < maxValue ∧ 10 ∉ v.bytes
  key : ∀ k ∈ storedKeys store.entries, ∀ b ∈ k.bytes, isSpace b = false

/-- What clients have put is sent back in one line. -/
theorem sendable_reachable {s : State} (hs : Reachable s) : Sendable s.store := by
  have hkeys := (ListAux.storedKeys_reachable hs).2
  obtain ⟨inputs, before, rfl⟩ := hs
  obtain ⟨m, hm, hpairs⟩ := exists_represents_put handleClient_put ⟨∅, init_represents inputs, fun k v hv => by simp at hv⟩ before
  refine ⟨fun k v hv => ?_, hkeys⟩
  rw [StoreAux.storeGet_refines hm] at hv
  exact (hpairs k v hv).2

/-! ## The reply of a turn -/

/-- A line that fits is sent whole. -/
theorem sendLine_fits {a : List UInt8} (h : a.length ≤ maxLine) : sendLine a = a ++ [10] := by
  rw [sendLine, List.take_of_length_le]
  rw [List.length_append, List.length_singleton]
  exact Nat.succ_le_succ h

/-- A reply of one line. -/
def OneLine (reply : List UInt8) : Prop := ∃ a, IsAnswer a ∧ reply = a ++ [10]

/-- An answer is sent as one line. -/
theorem oneLine_of_isAnswer {a : List UInt8} (h : IsAnswer a) : OneLine (sendLine a) :=
  ⟨a, h, sendLine_fits (Nat.le_of_lt (Nat.lt_of_lt_of_le h.fits (Nat.sub_le _ _)))⟩

/-- A line of the source is an answer. -/
theorem isAnswer_literal {msg : String} (h : (bytes msg).length < Client.maxLine - 1 ∧ bytes msg ≠ [] ∧ 10 ∉ bytes msg) :
    IsAnswer (bytes msg) :=
  ⟨h.2.1, h.2.2, h.1⟩

/-- A line of the source is sent as one line. -/
theorem oneLine_literal {msg : String} (h : (bytes msg).length < Client.maxLine - 1 ∧ bytes msg ≠ [] ∧ 10 ∉ bytes msg) :
    OneLine (sendLine (bytes msg)) :=
  oneLine_of_isAnswer (isAnswer_literal h)

/-- The reply to a `PUT` is one line. -/
theorem handlePut_oneLine (store : Store) (c : Conn) (r : Request) : OneLine (handlePut store c r).reply := by
  rw [handlePut]
  split
  · exact oneLine_literal (by decide)
  · exact oneLine_literal (by decide)

/-- The reply to a `GET` is one line, as no value holds a newline. -/
theorem handleGet_oneLine {store : Store} (h : Sendable store) (c : Conn) (r : Request) : OneLine (handleGet store c r).reply := by
  rw [handleGet]
  split
  · exact oneLine_literal (by decide)
  · cases hget : storeGet store r.arg1 with
    | none => exact oneLine_literal (by decide)
    | some v =>
      obtain ⟨hlen, h10⟩ := h.value r.arg1 v hget
      refine ⟨bytes "OK GET " ++ v.bytes, ⟨List.append_ne_nil_of_left_ne_nil (by decide) _, ?_, ?_⟩, RequestAux.sendLine_value hlen⟩
      · rw [List.mem_append, not_or]
        exact ⟨by decide, h10⟩
      · have hok : (bytes "OK GET ").length = 7 := rfl
        have hv : v.bytes.length < 400 := hlen
        rw [List.length_append, hok]
        exact Nat.lt_of_lt_of_le (Nat.add_lt_add_left hv 7) (Nat.le_of_ble_eq_true rfl)

/-- The reply to a `DEL` is one line. -/
theorem handleDel_oneLine (store : Store) (c : Conn) (r : Request) : OneLine (handleDel store c r).reply := by
  rw [handleDel]
  split
  · exact oneLine_literal (by decide)
  · dsimp only
    split
    · exact oneLine_literal (by decide)
    · exact oneLine_literal (by decide)

/-- The reply to a `LIST` is one line when the keys fit. -/
theorem handleList_oneLine {store : Store} (h : Sendable store) (c : Conn) (keys : CharArray maxLine)
    (hne : storedKeys store.entries ≠ []) (hfit : listLength (storedKeys store.entries) ≤ 510) :
    OneLine (handleList store c keys).reply := by
  have hlen := ListAux.length_listLine (storedKeys store.entries)
  refine ⟨listLine (storedKeys store.entries), ⟨?_, ?_, ?_⟩, ListAux.handleList_fits c keys hne (Nat.le_trans hfit (by decide))⟩
  · exact List.append_ne_nil_of_left_ne_nil (List.append_ne_nil_of_left_ne_nil (List.append_ne_nil_of_left_ne_nil (by decide) _) _) _
  · exact ListAux.notMem_listLine h.key rfl (by decide) (by decide)
  · rw [hlen]
    exact Nat.lt_succ_of_le hfit

/-- The reply to `AUTH` is one line, and the notice behind the last failure. -/
theorem handleAuth_reply (store : Store) (c : Conn) (r : Request) :
    ∃ a, IsAnswer a ∧ (handleAuth store c r).reply = a ++ [10] ++
      if !c.authenticated && !r.isUser && decide (maxAuthAttempts ≤ c.authAttempts + 1) then
        bytes "ERR too_many_attempts_closing\n" else [] := by
  have hanswer : ∀ {msg : String}, IsAnswer (bytes msg) → ∃ a, IsAnswer a ∧ sendLine (bytes msg) = a ++ [10] ++ [] := by
    intro msg h
    obtain ⟨a, ha, hreply⟩ := oneLine_of_isAnswer h
    exact ⟨a, ha, hreply.trans (List.append_nil _).symm⟩
  have h := IsolationAux.handleAuth_branch store c r
  generalize handleAuth store c r = served at h
  cases h with
  | already hauth =>
    rw [hauth, Bool.not_true, Bool.false_and, Bool.false_and, if_neg Bool.false_ne_true]
    exact hanswer (isAnswer_literal (by decide))
  | passed hauth huser =>
    rw [hauth, huser, Bool.not_true, Bool.and_false, Bool.false_and, if_neg Bool.false_ne_true]
    exact hanswer (isAnswer_literal (by decide))
  | failed hauth huser hmax =>
    rw [decide_eq_false hmax, Bool.and_false, if_neg Bool.false_ne_true]
    exact hanswer (isAnswer_literal (by decide))
  | last hauth huser hmax =>
    rw [hauth, huser, decide_eq_true hmax, Bool.not_false, Bool.true_and, Bool.true_and, if_pos rfl]
    have hboth : sendLine (bytes "ERR AUTH invalid_credentials") ++ sendLine (bytes "ERR too_many_attempts_closing") =
        bytes "ERR AUTH invalid_credentials" ++ [10] ++ bytes "ERR too_many_attempts_closing\n" := by decide
    exact ⟨bytes "ERR AUTH invalid_credentials", isAnswer_literal (by decide), hboth⟩

/-- The reply to a request: one line, with the notice behind the last `AUTH` that fails. -/
theorem handleRequest_reply {store : Store} (h : Sendable store) (c : Conn) (keys : CharArray maxLine) (r : Request)
    (hlist : (handleRequest store c keys r).access = some .list →
      storedKeys store.entries ≠ [] ∧ listLength (storedKeys store.entries) ≤ 510) :
    ∃ a, IsAnswer a ∧ (handleRequest store c keys r).reply = a ++ [10] ++
      if !c.authenticated && (r.isAuth && !r.isUser) && decide (maxAuthAttempts ≤ c.authAttempts + 1) then
        bytes "ERR too_many_attempts_closing\n" else [] := by
  by_cases hcmd : r.isAuth = true
  · rw [handleRequest, if_pos ((IsolationAux.isAuth_iff r).mp hcmd), hcmd, Bool.true_and]
    exact handleAuth_reply store c r
  · have hnot : ¬ strcmp r.cmd.bytes (bytes "AUTH") = 0 := fun h => hcmd ((IsolationAux.isAuth_iff r).mpr h)
    have hline : OneLine (handleRequest store c keys r).reply := by
      have hbranch := handleRequest_branch store c keys r
      generalize handleRequest store c keys r = served at hlist hbranch ⊢
      cases hbranch with
      | auth hauth => exact absurd hauth hnot
      | put => exact handlePut_oneLine store c r
      | get => exact handleGet_oneLine h c r
      | del => exact handleDel_oneLine store c r
      | list =>
        obtain ⟨hne, hfit⟩ := hlist rfl
        exact handleList_oneLine h c keys hne hfit
      | refused | quit | unknown => exact oneLine_literal (by decide)
    obtain ⟨a, ha, hreply⟩ := hline
    refine ⟨a, ha, ?_⟩
    rw [Bool.not_eq_true] at hcmd
    rw [hreply, hcmd, Bool.false_and, Bool.and_false, Bool.false_and, if_neg Bool.false_ne_true, List.append_nil]

/-! ## A connection along a run -/

variable {i : Nat} {s : State} {ts : List Turn} {ending : Ending} {lines : List (List UInt8)}

/-- A closed connection processes nothing more. -/
theorem exchanges_closed (h : (s.conn i).isOpen = false) (ts : List Turn) : exchanges i s ts = [] := by
  induction ts generalizing s with
  | nil => rfl
  | cons t ts ih =>
    have hpending : (s.conn i).pending = none := by
      rw [Conn.pending, h]
      rfl
    have hnext : ((step s t).1.conn i).isOpen = false := by
      by_cases hi : t.client = i
      · subst hi
        rw [(IsolationAux.step_closed h).1]
        exact h
      · rw [IsolationAux.step_conn_other s hi]
        exact h
    rw [exchanges, ih hnext, hpending, Option.map_none, List.append_nil]
    split <;> rfl

/-- The turn of another client is no exchange of this one. -/
theorem exchanges_other {t : Turn} (h : t.client ≠ i) : exchanges i s (t :: ts) = exchanges i (step s t).1 ts := by
  rw [exchanges, if_neg h, List.nil_append]

/-- A turn that takes no request is no exchange. -/
theorem exchanges_none {t : Turn} (h : (s.conn t.client).pending = none) :
    exchanges t.client s (t :: ts) = exchanges t.client (step s t).1 ts := by
  rw [exchanges, if_pos rfl, h]
  rfl

/-- A request and its reply are one. -/
theorem exchanges_some {t : Turn} {r : Request} (h : (s.conn t.client).pending = some r) :
    exchanges t.client s (t :: ts) =
      ⟨r, (step s t).2.reply, (s.conn t.client).failsLastAuth⟩ :: exchanges t.client (step s t).1 ts := by
  rw [exchanges, if_pos rfl, h]
  rfl

/-- What a connection exchanges while the bytes sent on it grow from `sent` to `sent'`, when its peer sends the given lines. -/
structure Exchanged (lines : List (List UInt8)) (ending : Ending) (es : List Exchange) (sent sent' : List UInt8) : Prop where
  requests : es.map (·.request) = (lines.take es.length).map (fun line => scanRequest (CString.ofMem (lineText line)))
  last : ∀ e ∈ es.dropLast, e.lastAuth = false
  answers : ∃ answers, List.Forall₂ Answers es answers
  sent : ∃ tail, sent' = sent ++ es.flatMap (·.reply) ++ tail ∧
    (tail = [] ∨ ending = .error ∧ es.length = lines.length ∧ tail = bytes "ERR protocol_violation\n")

/-- No turn, and nothing sent. -/
theorem Exchanged.none (sent : List UInt8) : Exchanged lines ending [] sent sent :=
  ⟨rfl, fun e he => absurd he List.not_mem_nil, ⟨[], .nil⟩, [], by simp, .inl rfl⟩

/-- The line at the front is exchanged. -/
theorem Exchanged.cons {line a sent sent' : List UInt8} {e : Exchange} {es : List Exchange}
    (h : Exchanged lines ending es (sent ++ e.reply) sent') (hrequest : e.request = scanRequest (CString.ofMem (lineText line)))
    (ha : Answers e a) (hlast : e.lastAuth = true → es = []) : Exchanged (line :: lines) ending (e :: es) sent sent' := by
  obtain ⟨hrequests, hbefore, ⟨answers, hanswers⟩, tail, hsent, htail⟩ := h
  refine ⟨?_, ?_, ⟨a :: answers, .cons ha hanswers⟩, tail, ?_, ?_⟩
  · rw [List.map_cons, List.length_cons, List.take_succ_cons, List.map_cons, hrequests, hrequest]
  · intro e' he'
    cases hes : es with
    | nil =>
      rw [hes] at he'
      exact absurd he' List.not_mem_nil
    | cons x xs =>
      rw [hes, List.dropLast_cons_of_ne_nil (List.cons_ne_nil x xs)] at he'
      rcases List.mem_cons.mp he' with rfl | he'
      · by_contra hnot
        have hnil := hlast (by simpa using hnot)
        rw [hes] at hnil
        nomatch hnil
      · exact hbefore e' (hes ▸ he')
  · rw [hsent, List.flatMap_cons, List.append_assoc sent]
  · rcases htail with hnil | ⟨hending, hlength, htail⟩
    · exact .inl hnil
    · exact .inr ⟨hending, by rw [List.length_cons, List.length_cons, hlength], htail⟩

/-- The turn of an open connection whose peer's lines are used up. -/
theorem step_end {t : Turn} (hopen : (s.conn t.client).isOpen = true) (hinput : (s.conn t.client).input = ⟨[], ending⟩) :
    (s.conn t.client).pending = none ∧
      ((((step s t).1.conn t.client).isOpen = false ∧
          ∃ tail, ((step s t).1.conn t.client).sent = (s.conn t.client).sent ++ tail ∧
            (tail = [] ∨ ending = .error ∧ tail = bytes "ERR protocol_violation\n")) ∨
        (step s t).1.conn t.client = s.conn t.client) := by
  have hrecv : recvLine maxLine ⟨[], ending⟩ = _ := FramingAux.recvLine_end List.not_mem_nil (Nat.succ_pos _)
  rw [← hinput] at hrecv
  rw [IsolationAux.step_conn_self]
  unfold Conn.pending handleClient
  rw [if_pos hopen, if_pos hopen, hrecv]
  cases ending with
  | closed => exact ⟨rfl, .inl ⟨rfl, [], rfl, .inl rfl⟩⟩
  | error => exact ⟨rfl, .inl ⟨rfl, bytes "ERR protocol_violation\n", rfl, .inr ⟨rfl, rfl⟩⟩⟩
  | waiting => exact ⟨rfl, .inr (by simp)⟩

/-- The turn of an open connection at a line of its peer. -/
theorem exchange_next {t : Turn} {line : List UInt8} (hs : Reachable s) (hopen : (s.conn t.client).isOpen = true)
    (hinput : (s.conn t.client).input = ⟨wire (line :: lines), ending⟩)
    (hline : line ≠ [] ∧ 10 ∉ line ∧ line.length < maxLine - 1)
    (hlist : (step s t).2.access = some .list →
      storedKeys s.store.entries ≠ [] ∧ listLength (storedKeys s.store.entries) ≤ 510) :
    (s.conn t.client).pending = some (scanRequest (CString.ofMem (lineText line))) ∧
      ((step s t).1.conn t.client).input = ⟨wire lines, ending⟩ ∧
      ((step s t).1.conn t.client).sent = (s.conn t.client).sent ++ (step s t).2.reply ∧
      ∃ a, Answers ⟨scanRequest (CString.ofMem (lineText line)), (step s t).2.reply, (s.conn t.client).failsLastAuth⟩ a ∧
        ((s.conn t.client).failsLastAuth = true → ((step s t).1.conn t.client).isOpen = false) := by
  obtain ⟨hne, h10, hlen⟩ := hline
  have hin : (s.conn t.client).input.bytes = line ++ 10 :: wire lines := by rw [hinput, FramingAux.wire_cons]
  obtain ⟨hpending, hturn⟩ := handleClient_frame hopen hin hne h10 hlen
  have hlast : (s.conn t.client).failsLastAuth = (!(s.conn t.client).authenticated &&
      ((scanRequest (CString.ofMem (lineText line))).isAuth && !(scanRequest (CString.ofMem (lineText line))).isUser) &&
        decide (maxAuthAttempts ≤ (s.conn t.client).authAttempts + 1)) := by
    rw [Conn.failsLastAuth, Conn.failsAuth, hpending, Option.any_some]
  have hnext := ClosingAux.handleClient_next hopen hin hne h10 hlen s.store t.keys
  refine ⟨hpending, ?_, ?_, ?_⟩
  · rw [IsolationAux.step_conn_self, hnext.1, hinput]
  · rw [IsolationAux.step_conn_self, step]
  · have hserved := hturn s.store t.keys
    rw [step, hserved] at hlist
    obtain ⟨a, ha, hreply⟩ := handleRequest_reply (sendable_reachable hs) _ t.keys _ hlist
    refine ⟨a, ⟨ha, ?_⟩, ?_⟩
    · rw [step, hserved, hlast]
      exact hreply
    · intro hfails
      rw [Conn.failsLastAuth, Bool.and_eq_true, decide_eq_true_eq] at hfails
      exact (IsolationAux.step_login s t).closes hfails.1 hfails.2

/-- What a connection has been sent over a run: an answer to each line, in the order of the lines. -/
theorem exchanged (hs : Reachable s) (hinput : (s.conn i).input = ⟨wire lines, ending⟩)
    (hlines : ∀ l ∈ lines, l ≠ [] ∧ 10 ∉ l ∧ l.length < maxLine - 1)
    (hlist : ∀ before t after, ts = before ++ t :: after → t.client = i →
      (step (Runs.final step s before) t).2.access = some .list →
        storedKeys (Runs.final step s before).store.entries ≠ [] ∧
          listLength (storedKeys (Runs.final step s before).store.entries) ≤ 510) :
    Exchanged lines ending (exchanges i s ts) (s.conn i).sent ((Runs.final step s ts).conn i).sent := by
  induction ts generalizing s lines with
  | nil => exact Exchanged.none _
  | cons t ts ih =>
    have hs' : Reachable (step s t).1 := by
      obtain ⟨inputs, before, rfl⟩ := hs
      exact ⟨inputs, before ++ [t], (Runs.final_concat step _ _ _).symm⟩
    have hlist' : ∀ before t' after, ts = before ++ t' :: after → t'.client = i →
        (step (Runs.final step (step s t).1 before) t').2.access = some .list →
          storedKeys (Runs.final step (step s t).1 before).store.entries ≠ [] ∧
            listLength (storedKeys (Runs.final step (step s t).1 before).store.entries) ≤ 510 :=
      fun before t' after hts => hlist (t :: before) t' after (congrArg (t :: ·) hts)
    rw [Runs.final_cons]
    by_cases hi : t.client = i
    · subst hi
      have hclosed : ((step s t).1.conn t.client).isOpen = false → exchanges t.client (step s t).1 ts = [] ∧
          ((Runs.final step (step s t).1 ts).conn t.client) = (step s t).1.conn t.client :=
        fun h => ⟨exchanges_closed h ts, (IsolationAux.run_closed ts h).1⟩
      cases hopen : (s.conn t.client).isOpen with
      | false =>
        have hsame := (IsolationAux.step_closed hopen).1
        obtain ⟨-, hfinal⟩ := hclosed (hsame ▸ hopen)
        rw [exchanges_closed hopen, hfinal, hsame]
        exact Exchanged.none _
      | true =>
        cases lines with
        | nil =>
          obtain ⟨hpending, hend⟩ := step_end hopen hinput
          rw [exchanges_none hpending]
          rcases hend with ⟨hshut, tail, hsent, htail⟩ | hsame
          · obtain ⟨hnone, hfinal⟩ := hclosed hshut
            rw [hnone, hfinal, hsent]
            refine ⟨rfl, fun e he => absurd he List.not_mem_nil, ⟨[], .nil⟩, tail, by simp, ?_⟩
            exact htail.imp id (fun h => ⟨h.1, rfl, h.2⟩)
          · have hrest := ih hs' (by rw [hsame]; exact hinput) hlines hlist'
            rwa [hsame] at hrest
        | cons line lines =>
          have hrequest := exchange_next hs hopen hinput (hlines line List.mem_cons_self) (hlist [] t ts rfl rfl)
          obtain ⟨hpending, hnext, hsent, a, ha, hlast⟩ := hrequest
          rw [exchanges_some hpending]
          have hrest := ih hs' hnext (fun l hl => hlines l (List.mem_cons_of_mem line hl)) hlist'
          rw [hsent] at hrest
          exact hrest.cons rfl ha (fun h => (hclosed (hlast h)).1)
    · have hconn := IsolationAux.step_conn_other s hi
      have hrest := ih hs' (by rw [hconn]; exact hinput) hlines hlist'
      rwa [hconn, ← exchanges_other hi] at hrest

/-- The replies as lines: the answers, and the notice that may stand behind the last. -/
theorem flatMap_reply {es : List Exchange} {answers : List (List UInt8)} (h : List.Forall₂ Answers es answers)
    (hlast : ∀ e ∈ es.dropLast, e.lastAuth = false) : ∃ notice, es.flatMap (·.reply) = wire answers ++ notice := by
  induction h with
  | nil => exact ⟨[], rfl⟩
  | @cons e a es answers ha hrest ih =>
    cases hrest with
    | nil =>
      refine ⟨if e.lastAuth then bytes "ERR too_many_attempts_closing\n" else [], ?_⟩
      rw [List.flatMap_cons, ha.2, FramingAux.wire_cons]
      simp [wire]
    | @cons e' a' es answers ha' hrest' =>
      rw [List.dropLast_cons_of_ne_nil (List.cons_ne_nil e' es)] at hlast
      obtain ⟨notice, hnotice⟩ := ih (fun x hx => hlast x (List.mem_cons_of_mem e hx))
      refine ⟨notice, ?_⟩
      rw [List.flatMap_cons, hnotice, ha.2, hlast e List.mem_cons_self, if_neg Bool.false_ne_true, FramingAux.wire_cons a]
      simp

/-- Each of the answers is one line. -/
theorem isAnswer_of_mem {es : List Exchange} {answers : List (List UInt8)} (h : List.Forall₂ Answers es answers) :
    ∀ a ∈ answers, IsAnswer a := by
  induction h with
  | nil => exact fun a ha => absurd ha List.not_mem_nil
  | cons ha _ ih =>
    intro a hmem
    rcases List.mem_cons.mp hmem with rfl | hmem
    · exact ha.1
    · exact ih a hmem

/-- The client's `recv_line` gives the answers one after the other. -/
theorem recvLines_answers {answers : List (List UInt8)} (h : ∀ a ∈ answers, IsAnswer a) (rest : List UInt8) (ending : Ending)
    {j : Nat} {a : List UInt8} (hj : answers[j]? = some a) :
    ∃ n, (recvLines Client.maxLine ⟨wire answers ++ rest, ending⟩)[j]? = some n ∧ n.ret = a.length ∧
      lineText a ++ [0] <+: n.outLine ++ [0] := by
  obtain ⟨hlt, -⟩ := List.getElem?_eq_some_iff.mp hj
  have hlength : (FramingAux.received ending rest answers).length = answers.length := FramingAux.length_received
  rw [← hlength] at hlt
  have hn := List.getElem?_eq_getElem hlt
  obtain ⟨hret, hout, -⟩ := FramingAux.getElem?_received hj hn
  refine ⟨_, ?_, hret, ?_⟩
  · rw [FramingAux.recvLines_wire (fun l hl => ⟨(h l hl).ne, (h l hl).noNewline, (h l hl).fits⟩), List.getElem?_append_left hlt]
    exact hn
  · rw [hout]
    exact FramingAux.lineText_prefix a

end LockstepAux

/-- A client sends request lines, none empty and of at most 510 bytes each, in any run of the server in which its `LIST`s find a store
that can be listed. The requests processed are its first lines, in their order. Each is answered by one line; only the last failed `AUTH`
is answered by two, and nothing is processed after it. The bytes sent are these replies, but for the line that answers the failure of
the socket; and whatever comes behind them, the `j`-th line that the client's `recv_line`, which has the text of the server's, returns is
the answer to the `j`-th request. -/
theorem replies_in_lockstep (inputs : Nat → Stream) (i : Nat) (lines : List (List UInt8)) (ending : Ending)
    (hinput : inputs i = ⟨wire lines, ending⟩) (hlines : ∀ l ∈ lines, l ≠ [] ∧ 10 ∉ l ∧ l.length ≤ 510) (ts : List Turn)
    (hlist : ∀ before t after, ts = before ++ t :: after → t.client = i →
      (step (Runs.final step (State.init inputs) before) t).2.access = some .list →
        storedKeys (Runs.final step (State.init inputs) before).store.entries ≠ [] ∧
          listLength (storedKeys (Runs.final step (State.init inputs) before).store.entries) ≤ 510) :
    let es := exchanges i (State.init inputs) ts
    let sent := ((Runs.final step (State.init inputs) ts).conn i).sent
    es.map (·.request) = (lines.take es.length).map (fun line => scanRequest (CString.ofMem (lineText line))) ∧
      (∀ e ∈ es.dropLast, e.lastAuth = false) ∧
      (∃ tail, sent = es.flatMap (·.reply) ++ tail ∧
        (tail = [] ∨ ending = .error ∧ es.length = lines.length ∧ tail = bytes "ERR protocol_violation\n")) ∧
      ∃ answers, List.Forall₂ Answers es answers ∧ ∀ (later : List UInt8) (ending' : Ending) (j : Nat) (a : List UInt8),
        answers[j]? = some a → ∃ n, (recvLines Client.maxLine ⟨sent ++ later, ending'⟩)[j]? = some n ∧ n.ret = a.length ∧
          lineText a ++ [0] <+: n.outLine ++ [0] := by
  intro es sent
  have hinit : (State.init inputs).conn i = Conn.fresh ⟨wire lines, ending⟩ := congrArg Conn.fresh hinput
  have hrun := LockstepAux.exchanged (s := State.init inputs) (i := i) ⟨inputs, [], rfl⟩ (congrArg Conn.input hinit)
    (fun l hl => ⟨(hlines l hl).1, (hlines l hl).2.1, Nat.lt_succ_of_le (hlines l hl).2.2⟩) hlist
  obtain ⟨hrequests, hlast, ⟨answers, hanswers⟩, tail, hsent, htail⟩ := hrun
  refine ⟨hrequests, hlast, ⟨tail, hsent, htail⟩, answers, hanswers, ?_⟩
  intro later ending' j a hj
  obtain ⟨notice, hnotice⟩ := LockstepAux.flatMap_reply hanswers hlast
  have hstream : sent ++ later = wire answers ++ (notice ++ tail ++ later) := by
    have hreplies : sent = (exchanges i (State.init inputs) ts).flatMap (·.reply) ++ tail := hsent
    rw [hreplies, hnotice, List.append_assoc, List.append_assoc, List.append_assoc]
  rw [hstream]
  exact LockstepAux.recvLines_answers (LockstepAux.isAnswer_of_mem hanswers) _ _ hj

/-- A client that fails three times, and asks once more. -/
def guesses : List (List UInt8) := [bytes "AUTH bob a", bytes "AUTH bob b", bytes "AUTH bob c", bytes "AUTH bob bobpass"]

/-- The third request is answered by two lines. -/
theorem third_failure_two_lines :
    let ts := List.replicate 4 (turn 0)
    let inputs := fun _ : Nat => (⟨wire guesses, .waiting⟩ : Stream)
    (exchanges 0 (State.init inputs) ts).map (fun e => e.reply.count 10) = [1, 1, 2] ∧
      ((Runs.final step (State.init inputs) ts).conn 0).sent =
        bytes "ERR AUTH invalid_credentials\n" ++ bytes "ERR AUTH invalid_credentials\n" ++
          (bytes "ERR AUTH invalid_credentials\n" ++ bytes "ERR too_many_attempts_closing\n") := by
  decide +kernel

/-- A client that puts a value, lists the keys and gets it, and one that logs in. -/
def askers : Nat → List (List UInt8)
  | 0 => [bytes "AUTH alice alicepass", bytes "PUT k v", bytes "LIST", bytes "GET k"]
  | _ => [bytes "AUTH bob bobpass"]

/-- The server behind turns of theirs. -/
def askedBy (ts : List Turn) : State := Runs.final step (State.init (fun i => ⟨wire (askers i), .waiting⟩)) ts

/-- The four requests of the one, with a turn of the other between them, and their answers. -/
theorem replies_in_lockstep_list :
    let es := exchanges 0 (State.init (fun i => ⟨wire (askers i), .waiting⟩)) [turn 0, turn 1, turn 0, turn 0, turn 0]
    es.map (·.request) = (askers 0).map (fun line => scanRequest (CString.ofMem (lineText line))) ∧
      (∀ e ∈ es.dropLast, e.lastAuth = false) ∧ ∃ answers, List.Forall₂ Answers es answers ∧ answers.length = 4 := by
  have hlist : ∀ before t after, [turn 0, turn 1, turn 0, turn 0, turn 0] = before ++ t :: after → t.client = 0 →
      (step (askedBy before) t).2.access = some .list →
        storedKeys (askedBy before).store.entries ≠ [] ∧ listLength (storedKeys (askedBy before).store.entries) ≤ 510 := by
    intro before t after hts
    refine Runs.forall_split (P := fun before t => t.client = 0 → (step (askedBy before) t).2.access = some .list →
      storedKeys (askedBy before).store.entries ≠ [] ∧ listLength (storedKeys (askedBy before).store.entries) ≤ 510) ?_ hts
    decide +kernel
  obtain ⟨hrequests, hlast, -, answers, hanswers, -⟩ :=
    replies_in_lockstep (fun i => ⟨wire (askers i), .waiting⟩) 0 (askers 0) .waiting rfl (by decide +kernel)
      [turn 0, turn 1, turn 0, turn 0, turn 0] hlist
  have hfour : (exchanges 0 (State.init (fun i => ⟨wire (askers i), .waiting⟩)) [turn 0, turn 1, turn 0, turn 0, turn 0]).length = 4 := by
    decide +kernel
  refine ⟨?_, hlast, answers, hanswers, hanswers.length_eq.symm.trans hfour⟩
  rw [hfour] at hrequests
  exact hrequests

end OsSecurity.Server
