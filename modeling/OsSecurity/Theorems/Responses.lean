import OsSecurity.Theorems.NetworkProgress
import OsSecurity.Theorems.Lockstep

/-!
# What a client shows is what the server answered

A client sends its next line when it has shown a response, so at most one of its lines is on its way, and the response it shows is what
the server's turn on that line sent. There is one line the server sends that answers nothing: the notice behind the last failed `AUTH`.
-/

namespace OsSecurity.Server

open CLib Interleaving SlotTable

/-- The line that is shown. -/
def Client.Output.response? : Client.Output → Option CString
  | .response line => some line
  | _ => none

/-- The responses that the client has shown. -/
def Client.Session.responses (c : Client.Session) : List CString := c.printed.filterMap Client.Output.response?

/-- The notice behind the last failed `AUTH`. -/
def notice : CString := cstring "ERR too_many_attempts_closing"

/-- The client has shown `k` responses and waits for the next one; its line is on its way, and nothing is coming back. -/
structure Link.Asks (l : Link) (k : Nat) (input : CString) : Prop where
  phase : l.session.phase = .reply input
  asked : l.session.asked.length = k + 1
  last : l.session.asked[k]? = some input
  responses : l.session.responses.length = k
  input : l.conn.input.bytes = input.bytes ++ [10]
  replies : l.replies = []

/-- The first line of a reply. -/
def FirstLine (reply : List UInt8) (r : CString) : Prop :=
  ∃ a tail, reply = a ++ [10] ++ tail ∧ 10 ∉ a ∧ r = CString.ofMem (lineText a)

/-- In a run the server took the line `k` of the client `i`, and answered it with `r`. -/
def Answered (n : Nat) (init : Network) (as : List Actor) (i k : Nat) (r : CString) : Prop :=
  ∃ before keys after s input, as = before ++ .server i keys :: after ∧ run (networkStep n) init before = some s ∧
    (s.link i).Asks k input ∧ FirstLine (handleClient s.store (s.link i).conn keys).reply r

/-- Every `LIST` of the client `i` comes when the keys in the store are some, and fit a line. -/
def ListsFit (n : Nat) (init : Network) (as : List Actor) (i : Nat) : Prop :=
  ∀ before keys after s, as = before ++ .server i keys :: after → run (networkStep n) init before = some s →
    (handleClient s.store (s.link i).conn keys).access = some .list →
      storedKeys s.store.entries ≠ [] ∧ listLength (storedKeys s.store.entries) ≤ 510

namespace ResponsesAux

open LockstepAux

/-! ## The store -/

/-- What the turns of the server have put into the store. -/
def StoreInv (store : Store) : Prop :=
  ∃ m, Represents store.slots m ∧ ∀ k v, m.lookup k = some v → (∀ b ∈ k.bytes, isSpace b = false) ∧ v.length < maxValue ∧ 10 ∉ v.bytes

/-- A turn puts only values that fit a line. -/
theorem StoreInv.handleClient {store : Store} (h : StoreInv store) (c : Conn) (keys : CharArray maxLine) :
    StoreInv (handleClient store c keys).store :=
  HandlerAux.exists_represents_put (s := ⟨store, fun _ => c⟩) HandlerAux.handleClient_put h [⟨0, keys⟩]

/-- So what is in the store can be sent back. -/
theorem StoreInv.sendable {store : Store} (h : StoreInv store) : Sendable store := by
  obtain ⟨m, hm, hpairs⟩ := h
  constructor
  · intro k v hv
    rw [StoreAux.storeGet_refines hm] at hv
    exact (hpairs k v hv).2
  · intro k hk
    rw [ListAux.storedKeys_eq] at hk
    obtain ⟨v, hv⟩ := Finmap.mem_iff.mp (hm.mem_keys_iff.mp hk)
    exact (hpairs k v hv).1

/-! ## The responses of a client -/

/-- What is printed is one more response, or none. -/
theorem responses_print (c : Client.Session) (out : Client.Output) :
    (c.print out).responses = c.responses ++ out.response?.toList := by
  unfold Client.Session.responses Client.Session.print
  rw [List.filterMap_append]
  cases hout : out.response? with
  | none => simp [hout]
  | some r => simp [hout]

/-- What is printed on leaving is no response. -/
theorem responses_leave (c : Client.Session) : c.leave.responses = c.responses := by
  show (c.print .disconnected).responses = c.responses
  rw [responses_print]
  exact List.append_nil _

/-- What is printed without a response adds none. -/
theorem responses_of_none {c : Client.Session} {printed : List Client.Output} (h : ∀ line, .response line ∉ printed) :
    (c.printed ++ printed).filterMap Client.Output.response? = c.responses := by
  have hnone : printed.filterMap Client.Output.response? = [] := by
    rw [List.filterMap_eq_nil_iff]
    intro out hout
    cases out with
    | response line => exact absurd hout (h line)
    | prompt | endOfInput | help | serverClosed | connectionError | disconnected => rfl
  rw [List.filterMap_append, hnone, List.append_nil]
  rfl

/-! ## What is on its way -/

/-- The bytes of the client that the server has still to take. -/
def pendingBytes : Client.Phase → List UInt8
  | .reply input => input.bytes ++ [10]
  | _ => []

/-- What is on its way between a client and the server: nothing but the client's line, or the answer to it, or the notice. -/
inductive Channel (l : Link) (J : CString → Prop) : Prop
  | quiet (hreplies : l.replies = [])
      (hinput : l.conn.isOpen = true → l.conn.input = ⟨pendingBytes l.session.phase, l.session.ending⟩)
  | answered (input : CString) (a tail : List UInt8) (hphase : l.session.phase = .reply input) (hreplies : l.replies = a ++ [10] ++ tail)
      (ha : IsAnswer a) (htail : tail = [] ∨ tail = notice.bytes ++ [10] ∧ l.conn.isOpen = false)
      (hinput : l.conn.isOpen = true → l.conn.input = ⟨[], .waiting⟩) (hJ : J (CString.ofMem (lineText a)))
  | noticed (hreplies : l.replies = notice.bytes ++ [10]) (hclosed : l.conn.isOpen = false)

/-- A client with its connection, where `J k r` says that the response `r` to the line `k` is justified. -/
structure Synced (l : Link) (J : Nat → CString → Prop) : Prop where
  bound : l.session.responses.length ≤ l.session.asked.length ∧ l.session.asked.length ≤ l.session.responses.length + 1
  prompt : l.session.phase = .prompt → l.session.asked.length = l.session.responses.length
  reply : ∀ input, l.session.phase = .reply input → l.session.asked.length = l.session.responses.length + 1 ∧
    l.session.asked[l.session.responses.length]? = some input ∧ IsAsked input
  channel : Channel l (J l.session.responses.length)
  shown : ∀ k r, l.session.responses[k]? = some r → J k r ∨
    r = notice ∧ k + 1 = l.session.responses.length ∧ l.conn.isOpen = false ∧ l.replies = []

variable {l l' : Link} {J J' : Nat → CString → Prop}

/-- A client that has not begun has shown nothing. -/
theorem synced_start (stdin : List UInt8) (J : Nat → CString → Prop) : Synced (.start stdin) J where
  bound := ⟨Nat.le_refl _, Nat.zero_le _⟩
  prompt _ := rfl
  reply _ h := by cases h
  channel := .quiet rfl (fun _ => rfl)
  shown k r h := by cases h

/-- What is known of the response on its way may be weakened. -/
theorem Channel.mono {K K' : CString → Prop} (h : Channel l K) (hK : ∀ r, K r → K' r) : Channel l K' := by
  cases h with
  | quiet hreplies hinput => exact .quiet hreplies hinput
  | answered input a tail hphase hreplies ha htail hinput hJ => exact .answered input a tail hphase hreplies ha htail hinput (hK _ hJ)
  | noticed hreplies hclosed => exact .noticed hreplies hclosed

/-- What is known of the responses may be weakened. -/
theorem Synced.mono (h : Synced l J) (hJ : ∀ k r, J k r → J' k r) : Synced l J' where
  bound := h.bound
  prompt := h.prompt
  reply := h.reply
  channel := h.channel.mono (hJ _)
  shown k r hr := (h.shown k r hr).imp_left (hJ k r)

/-! ## A step of the client -/

/-- At the prompt nothing is on its way, but for the notice. -/
theorem channel_prompt (h : Synced l J) (hphase : l.session.phase = .prompt) :
    (l.replies = [] ∧ (l.conn.isOpen = true → l.conn.input = ⟨[], .waiting⟩)) ∨
      (l.replies = notice.bytes ++ [10] ∧ l.conn.isOpen = false) := by
  cases h.channel with
  | quiet hreplies hinput =>
    refine .inl ⟨hreplies, fun hopen => ?_⟩
    rw [hinput hopen, hphase, Client.Session.ending, if_neg (by simp [hphase])]
    rfl
  | answered input a tail hreply => cases hphase.symm.trans hreply
  | noticed hreplies hclosed => exact .inr ⟨hreplies, hclosed⟩

/-- The client sends `out`, with its responses as they were. -/
theorem channel_sends (h : Synced l J) (hphase : l.session.phase = .prompt) {c : Client.Session} {out : List UInt8}
    (hout : out = pendingBytes c.phase) {K : CString → Prop} : Channel (l.sends c out) K := by
  rcases channel_prompt h hphase with ⟨hreplies, hinput⟩ | ⟨hreplies, hclosed⟩
  · refine .quiet hreplies (fun hopen => ?_)
    have hin := hinput hopen
    simp only [Link.sends, hin, hout, List.nil_append]
    rfl
  · exact .noticed hreplies hclosed

/-- The client is at the prompt again, has left, or has sent a line; it has shown no response. -/
theorem synced_sends (h : Synced l J) (hphase : l.session.phase = .prompt) {c : Client.Session} {out : List UInt8}
    (hout : out = pendingBytes c.phase) (hresponses : c.responses = l.session.responses)
    (hasked : (∀ input, c.phase ≠ .reply input) ∧ c.asked = l.session.asked ∨
      ∃ input, c.phase = .reply input ∧ c.asked = l.session.asked ++ [input] ∧ IsAsked input) : Synced (l.sends c out) J := by
  have hequal := h.prompt hphase
  have hshown : ∀ k r, c.responses[k]? = some r → J k r ∨
      r = notice ∧ k + 1 = c.responses.length ∧ l.conn.isOpen = false ∧ l.replies = [] := hresponses ▸ h.shown
  rcases hasked with ⟨hnot, hasked⟩ | ⟨input, hreply, hasked, hinput⟩
  · have hlength : c.asked.length = c.responses.length := by rw [hasked, hresponses, hequal]
    exact ⟨⟨Nat.le_of_eq hlength.symm, Nat.le_succ_of_le (Nat.le_of_eq hlength)⟩, fun _ => hlength,
      fun input hc => absurd hc (hnot input), channel_sends h hphase hout, hshown⟩
  · have hlength : c.asked.length = c.responses.length + 1 := by rw [hasked, hresponses, List.length_append, hequal]; rfl
    refine ⟨⟨Nat.le_of_lt (Nat.lt_of_succ_le (Nat.le_of_eq hlength.symm)), Nat.le_of_eq hlength⟩, ?_, ?_,
      channel_sends h hphase hout, hshown⟩
    · intro hc
      cases hreply.symm.trans hc
    · intro input' hc
      obtain rfl : input = input' := Client.Phase.reply.inj (hreply.symm.trans hc)
      refine ⟨hlength, ?_, hinput⟩
      show c.asked[c.responses.length]? = some input
      rw [hasked, hresponses, ← hequal, List.getElem?_concat_length]

/-- At the prompt the client sends its next line, or leaves. -/
theorem synced_prompt (h : Synced l J) (hphase : l.session.phase = .prompt) {out : Client.Session × List UInt8}
    (hout : Prompted l.session out) : Synced (l.sends out.1 out.2) J := by
  cases hout with
  | left =>
    refine synced_sends h hphase rfl ?_ (.inl ⟨by simp [Client.Session.leave], rfl⟩)
    rw [responses_leave, responses_print, responses_print]
    simp [Client.Output.response?]
  | again rest printed hrest hprinted =>
    refine synced_sends h hphase ?_ (responses_of_none hprinted) (.inl ⟨by simp [hphase], rfl⟩)
    rw [hphase]
    rfl
  | sent rest input hrest hinput =>
    exact synced_sends h hphase rfl (responses_of_none (by simp)) (.inr ⟨input, rfl, rfl, hinput⟩)

/-- The client has shown a response. -/
theorem synced_shown (h : Synced l J) {input : CString} (hphase : l.session.phase = .reply input) (hreplies : l.replies ≠ [])
    {r : CString} {rest : List UInt8} {c : Client.Session} (hasked : c.asked = l.session.asked)
    (hc : ∀ input, c.phase ≠ .reply input) (hresponses : c.responses = l.session.responses ++ [r])
    (hrest : rest = [] ∧ (l.conn.isOpen = true → l.conn.input = ⟨[], .waiting⟩) ∨
      rest = notice.bytes ++ [10] ∧ l.conn.isOpen = false)
    (hr : J l.session.responses.length r ∨ r = notice ∧ l.conn.isOpen = false ∧ rest = []) :
    Synced ({ l with replies := rest }.sends c []) J := by
  obtain ⟨hequal, -⟩ := h.reply input hphase
  have hlength : c.asked.length = c.responses.length := by
    rw [hasked, hresponses, hequal, List.length_append]
    rfl
  refine ⟨⟨Nat.le_of_eq hlength.symm, Nat.le_succ_of_le (Nat.le_of_eq hlength)⟩, fun _ => hlength,
    fun input hreply => absurd hreply (hc input), ?_, ?_⟩
  · rcases hrest with ⟨rfl, hconn⟩ | ⟨rfl, hclosed⟩
    · refine .quiet rfl (fun hopen => ?_)
      have hin := hconn hopen
      have hnothing : pendingBytes c.phase = [] := by
        cases hphase' : c.phase with
        | reply input => exact absurd hphase' (hc input)
        | prompt | done => rfl
      simp only [Link.sends, hin, hnothing, List.append_nil]
      rfl
    · exact .noticed rfl hclosed
  · show ∀ k r', c.responses[k]? = some r' → J k r' ∨ r' = notice ∧ k + 1 = c.responses.length ∧ l.conn.isOpen = false ∧ rest = []
    rw [hresponses]
    intro k r' hr'
    rcases Nat.lt_or_ge k l.session.responses.length with hlt | hge
    · rw [List.getElem?_append_left hlt] at hr'
      rcases h.shown k r' hr' with hJ | ⟨-, -, -, hnil⟩
      · exact .inl hJ
      · exact absurd hnil hreplies
    · have hk : k = l.session.responses.length := by
        have hlt := (List.getElem?_eq_some_iff.mp hr').1
        rw [List.length_append, List.length_singleton] at hlt
        omega
      subst hk
      rw [List.getElem?_concat_length] at hr'
      obtain rfl := Option.some.inj hr'
      refine hr.imp_right ?_
      rintro ⟨hnotice, hclosed, hnil⟩
      exact ⟨hnotice, by rw [List.length_append]; rfl, hclosed, hnil⟩

/-- A line that has come whole is shown. -/
theorem shown_line {c c' : Client.Session} {a rest : List UInt8} {ending : Ending} (hne : a ≠ [])
    (hshown : Shown c ⟨a.length, FramingAux.cutReturn a, ⟨rest, ending⟩⟩ c') :
    c'.asked = c.asked ∧ (∀ input, c'.phase ≠ .reply input) ∧ c'.responses = c.responses ++ [CString.ofMem (lineText a)] := by
  have hpos : (0 : Int) < a.length := Int.natCast_pos.mpr (List.length_pos_iff.mpr hne)
  have hresponses : (c.print (.response (CString.ofMem (FramingAux.cutReturn a)))).responses =
      c.responses ++ [CString.ofMem (lineText a)] := by
    rw [responses_print, FramingAux.ofMem_cutReturn]
    rfl
  cases hshown with
  | left out hout hret => exact absurd hret (Int.not_le.mpr hpos)
  | quit => exact ⟨rfl, by simp [Client.Session.leave], (responses_leave _).trans hresponses⟩
  | again => exact ⟨rfl, by simp, hresponses⟩

/-- The client receives the answer, the notice, or the end of the connection. -/
theorem synced_received (h : Synced l J) {input : CString} (hphase : l.session.phase = .reply input) {n : Received}
    (hrecv : Client.recvLine Client.maxLine l.incoming = some n) {c : Client.Session} (hshown : Shown l.session n c) :
    Synced ({ l with replies := n.rest.bytes }.sends c []) J := by
  cases h.channel with
  | quiet hreplies hconn =>
    have hend : Client.recvLine Client.maxLine ⟨[], if l.conn.isOpen then .waiting else .closed⟩ = _ :=
      FramingAux.recvLine_end List.not_mem_nil (by decide)
    rw [Link.incoming, hreplies, hend] at hrecv
    cases hopen : l.conn.isOpen with
    | true =>
      rw [hopen] at hrecv
      cases hrecv
    | false =>
      rw [hopen] at hrecv
      obtain rfl := Option.some.inj hrecv
      cases hshown with
      | quit hret | again hret => exact absurd hret (by decide)
      | left out hout hret =>
        have hresponses : ((l.session.print out).leave).responses = l.session.responses := by
          rw [responses_leave, responses_print]
          cases out with
          | response line => exact absurd rfl (hout line)
          | prompt | endOfInput | help | serverClosed | connectionError | disconnected => exact List.append_nil _
        refine ⟨?_, fun hc => (by cases hc), fun input hc => (by cases hc),
          .quiet rfl (fun hopen' => absurd (hopen'.symm.trans hopen) (by decide)), ?_⟩
        · show ((l.session.print out).leave).responses.length ≤ l.session.asked.length ∧
            l.session.asked.length ≤ ((l.session.print out).leave).responses.length + 1
          rw [hresponses]
          exact h.bound
        · intro k r hr
          have hold : l.session.responses[k]? = some r := hresponses ▸ hr
          refine (h.shown k r hold).imp_right ?_
          rintro ⟨hnotice, hk, hclosed, -⟩
          exact ⟨hnotice, hk.trans (congrArg List.length hresponses.symm), hclosed, rfl⟩
  | answered input' a tail hphase' hreplies ha htail hconn hJ =>
    have hline : Client.recvLine Client.maxLine ⟨a ++ [10] ++ tail, if l.conn.isOpen then .waiting else .closed⟩ =
        some ⟨a.length, FramingAux.cutReturn a, ⟨tail, if l.conn.isOpen then .waiting else .closed⟩⟩ := by
      rw [List.append_assoc]
      exact FramingAux.recvLine_line ha.noNewline ha.fits
    rw [Link.incoming, hreplies, hline] at hrecv
    obtain rfl := Option.some.inj hrecv
    obtain ⟨hasked, hc, hresponses⟩ := shown_line ha.ne hshown
    refine synced_shown h hphase (by simp [hreplies]) hasked hc hresponses ?_ (.inl hJ)
    exact htail.imp (fun hnil => ⟨hnil, hconn⟩) id
  | noticed hreplies hclosed =>
    have hline : Client.recvLine Client.maxLine ⟨notice.bytes ++ 10 :: [], .closed⟩ =
        some ⟨notice.bytes.length, FramingAux.cutReturn notice.bytes, ⟨[], .closed⟩⟩ :=
      FramingAux.recvLine_line (by decide) (by decide)
    rw [Link.incoming, hreplies, hclosed] at hrecv
    obtain rfl := Option.some.inj (hline.symm.trans hrecv)
    obtain ⟨hasked, hc, hresponses⟩ := shown_line (by decide) hshown
    refine synced_shown h hphase (by simp [hreplies]) hasked hc hresponses
      (.inl ⟨rfl, fun hopen => absurd (hopen.symm.trans hclosed) (by decide)⟩) (.inr ⟨by decide, hclosed, rfl⟩)

/-- A step of the client keeps the link in step. -/
theorem synced_client (h : Synced l J) (hstep : l.clientStep = some l') : Synced l' J := by
  cases clientStep_moved hstep with
  | prompted out hphase hout => exact synced_prompt h hphase hout
  | received input n c hphase hrecv hshown => exact synced_received h hphase hrecv hshown

/-! ## A turn of the server -/

/-- The `AUTH` that the notice is sent for closes the connection. -/
theorem lastAuth_closes {store : Store} {c : Conn} {keys : CharArray maxLine} {r : Request}
    (h : (!c.authenticated && (r.isAuth && !r.isUser) && decide (maxAuthAttempts ≤ c.authAttempts + 1)) = true) :
    (handleRequest store c keys r).conn.isOpen = false := by
  simp only [Bool.and_eq_true, Bool.not_eq_true', decide_eq_true_eq] at h
  obtain ⟨⟨hauth, hcmd, huser⟩, hmax⟩ := h
  rw [handleRequest, if_pos ((IsolationAux.isAuth_iff r).mp hcmd)]
  have hbranch := IsolationAux.handleAuth_branch store c r
  generalize handleAuth store c r = served at hbranch
  cases hbranch with
  | last => rfl
  | already hauth' => cases hauth.symm.trans hauth'
  | passed _ huser' => cases huser.symm.trans huser'
  | failed _ _ hmax' => exact absurd hmax hmax'

/-- The reply to the line of a client: an answer, with the notice where the connection is closed with it. -/
theorem handled_reply {store : Store} (hstore : Sendable store) {c : Conn} {keys : CharArray maxLine} {line : CString}
    {served : Served} (h : Handled store c keys line [] served)
    (hlist : served.access = some .list → storedKeys store.entries ≠ [] ∧ listLength (storedKeys store.entries) ≤ 510) :
    ∃ a tail, IsAnswer a ∧ served.reply = a ++ [10] ++ tail ∧
      (tail = [] ∨ tail = notice.bytes ++ [10] ∧ served.conn.isOpen = false) := by
  cases h with
  | tooLong => exact ⟨bytes "ERR protocol_violation", [], isAnswer_literal (by decide),
      show sendLine (bytes "ERR protocol_violation") = _ by decide, .inl rfl⟩
  | request =>
    obtain ⟨a, ha, hreply⟩ := handleRequest_reply hstore _ keys _ hlist
    refine ⟨a, _, ha, hreply, ?_⟩
    split
    · rename_i hlast
      exact .inr ⟨by decide, lastAuth_closes hlast⟩
    · exact .inl rfl

/-- A turn of the server: the client has left, or its line is handled. -/
inductive ServerTurned (l : Link) (store : Store) (keys : CharArray maxLine) : Store → Link → Prop
  | left (hphase : l.session.phase = .done) (hreplies : l.replies = []) :
      ServerTurned l store keys store { l with conn := { l.conn with input := ⟨[], .closed⟩, isOpen := false } }
  | line (input : CString) (hasks : l.Asks l.session.responses.length input) (hin : l.conn.input = ⟨input.bytes ++ [10], .waiting⟩)
      (hhandled : Handled store l.conn keys input [] (handleClient store l.conn keys)) :
      ServerTurned l store keys (handleClient store l.conn keys).store (l.serve (handleClient store l.conn keys))

/-- The server takes no turn for a closed connection. -/
theorem serverStep_open {store : Store} {keys : CharArray maxLine} {served : Store × Link} (h : l.serverStep store keys = some served) :
    l.conn.isOpen = true := by
  by_contra hclosed
  rw [Link.serverStep, if_neg hclosed] at h
  cases h

/-- It takes the line that the client waits for the answer to, or finds that it has left. -/
theorem serverStep_turned {store store' : Store} {keys : CharArray maxLine} (h : Synced l J)
    (hstep : l.serverStep store keys = some (store', l')) : ServerTurned l store keys store' l' := by
  have hopen := serverStep_open hstep
  cases h.channel with
  | noticed hreplies hclosed => cases hopen.symm.trans hclosed
  | answered input a tail hphase hreplies ha htail hconn =>
    cases hstep.symm.trans (serverStep_waiting (hconn hopen) store keys)
  | quiet hreplies hconn =>
    have hin := hconn hopen
    cases hphase : l.session.phase with
    | prompt =>
      rw [hphase, Client.Session.ending, if_neg (by simp [hphase])] at hin
      cases hstep.symm.trans (serverStep_waiting hin store keys)
    | done =>
      rw [hphase, Client.Session.ending, if_pos hphase] at hin
      obtain ⟨rfl, rfl⟩ := Prod.mk.inj (Option.some.inj (hstep.symm.trans (serverStep_left hopen hin store keys)))
      exact .left hphase hreplies
    | reply input =>
      obtain ⟨hequal, hlast, hinput⟩ := h.reply input hphase
      rw [hphase, Client.Session.ending, if_neg (by simp [hphase])] at hin
      have hbytes : l.conn.input.bytes = input.bytes ++ [10] := by rw [hin]; rfl
      obtain ⟨hhandled, hserve⟩ := serverStep_line hopen hbytes hinput store keys
      obtain ⟨rfl, rfl⟩ := Prod.mk.inj (Option.some.inj (hstep.symm.trans hserve))
      exact .line input ⟨hphase, hequal, hlast, rfl, hbytes, hreplies⟩ hin hhandled

/-- A turn of the server answers the line, and keeps the link in step. -/
theorem synced_server {store store' : Store} (hstore : Sendable store) {keys : CharArray maxLine}
    (hlist : (handleClient store l.conn keys).access = some .list →
      storedKeys store.entries ≠ [] ∧ listLength (storedKeys store.entries) ≤ 510)
    (h : Synced l J) (hstep : l.serverStep store keys = some (store', l')) (hJ : ∀ k r, J k r → J' k r)
    (hnew : ∀ input r, l.Asks l.session.responses.length input → FirstLine (handleClient store l.conn keys).reply r →
      J' l.session.responses.length r) : Synced l' J' := by
  have hopen := serverStep_open hstep
  have hshown : ∀ k r, l.session.responses[k]? = some r → J' k r := by
    intro k r hr
    rcases h.shown k r hr with hjustified | ⟨-, -, hclosed, -⟩
    · exact hJ k r hjustified
    · cases hopen.symm.trans hclosed
  cases serverStep_turned h hstep with
  | left hphase hreplies =>
    exact ⟨h.bound, h.prompt, h.reply, .quiet hreplies (fun hopen' => (by cases hopen')), fun k r hr => .inl (hshown k r hr)⟩
  | line input hasks hin hhandled =>
    obtain ⟨a, tail, ha, hreply, htail⟩ := handled_reply hstore hhandled hlist
    refine ⟨h.bound, h.prompt, h.reply, ?_, fun k r hr => .inl (hshown k r hr)⟩
    refine .answered input a tail hasks.phase (by rw [← hreply, Link.serve, hasks.replies]; rfl) ha htail ?_ ?_
    · intro hstill
      refine (hhandled.input hopen hstill).trans ?_
      rw [hin]
    · exact hnew input _ hasks ⟨a, tail, hreply, ha.noNewline, rfl⟩

/-! ## Runs -/

variable {n : Nat} {init s : Network} {as : List Actor} {i : Nat}

/-- What was answered in a run was answered in every longer one. -/
theorem answered_mono {k : Nat} {r : CString} (h : Answered n init as i k r) (a : Actor) : Answered n init (as ++ [a]) i k r := by
  obtain ⟨before, keys, after, s, input, rfl, hrun, hasks, hfirst⟩ := h
  exact ⟨before, keys, after ++ [a], s, input, by simp, hrun, hasks, hfirst⟩

/-- What holds of a run holds of its parts. -/
theorem listsFit_of_concat {a : Actor} (h : ListsFit n init (as ++ [a]) i) : ListsFit n init as i := by
  rintro before keys after s rfl
  exact h before keys (after ++ [a]) s (by simp)

/-- The store and the link of a client after a run. -/
theorem synced_run (hinit : StoreInv init.store ∧ Synced (init.link i) (fun _ _ => False)) (hlist : ListsFit n init as i)
    (h : run (networkStep n) init as = some s) : StoreInv s.store ∧ Synced (s.link i) (Answered n init as i) := by
  induction as using List.reverseRecOn generalizing s with
  | nil =>
    obtain rfl := Option.some.inj h
    exact ⟨hinit.1, hinit.2.mono (fun _ _ hfalse => hfalse.elim)⟩
  | append_singleton as a ih =>
    obtain ⟨t, ht, hstep⟩ := exists_of_run_concat h
    obtain ⟨hstore, hsynced⟩ := ih (listsFit_of_concat hlist) ht
    have hkept : Synced (t.link i) (Answered n init (as ++ [a]) i) := hsynced.mono (fun _ _ hJ => answered_mono hJ a)
    have hother : ∀ {j : Nat} {l : Link}, j ≠ i → Synced (Function.update t.link j l i) (Answered n init (as ++ [a]) i) := by
      intro j l hj
      rw [Function.update_of_ne hj.symm]
      exact hkept
    cases a with
    | client j =>
      simp only [networkStep] at hstep
      split at hstep
      · obtain ⟨l, hl, rfl⟩ := Option.map_eq_some_iff.mp hstep
        refine ⟨hstore, ?_⟩
        by_cases hj : j = i
        · subst hj
          show Synced (Function.update t.link j l j) _
          rw [Function.update_self]
          exact synced_client hkept hl
        · exact hother hj
      · cases hstep
    | server j keys =>
      simp only [networkStep] at hstep
      split at hstep
      · obtain ⟨⟨store, l⟩, hl, rfl⟩ := Option.map_eq_some_iff.mp hstep
        refine ⟨?_, ?_⟩
        · rw [show store = _ from (serverStep_served hl).1]
          exact hstore.handleClient _ keys
        · by_cases hj : j = i
          · subst hj
            show Synced (Function.update t.link j l j) _
            rw [Function.update_self]
            refine synced_server hstore.sendable (hlist as keys [] t rfl ht) hsynced hl (fun _ _ hJ => answered_mono hJ _) ?_
            intro input r hasks hfirst
            exact ⟨as, keys, [], t, input, rfl, ht, hasks, hfirst⟩
          · exact hother hj
      · cases hstep

/-! ## A run -/

/-- What `ListsFit` asks of one step. -/
def listFits (s : Network) : Actor → Bool
  | .server i keys => decide ((handleClient s.store (s.link i).conn keys).access = some .list →
      storedKeys s.store.entries ≠ [] ∧ listLength (storedKeys s.store.entries) ≤ 510)
  | .client _ => true

/-- It can be checked position by position. -/
theorem listsFit_of_all {n : Nat} {init : Network} {as : List Actor}
    (h : ∀ k : Fin as.length, (run (networkStep n) init (as.take k)).all (fun s => listFits s (as.get k)) = true) (i : Nat) :
    ListsFit n init as i := by
  intro before keys after s hsplit hrun haccess
  have hfits := Runs.forall_split (P := fun before a => (run (networkStep n) init before).all (fun s => listFits s a) = true) h hsplit
  rw [hrun, Option.all_some, listFits, decide_eq_true_eq] at hfits
  exact hfits haccess

end ResponsesAux

open ResponsesAux

/-- For all inputs of `n` clients and every run of clients and server, in any order of their steps: a client has sent as many lines as it
has shown responses, or one more, and each response it has shown is what the server answered in a turn on just that line, which was then
the only one on its way; but for the notice behind the last failed `AUTH`, which is the last response and comes with the end of the
connection. This is for a client whose every `LIST` finds keys in the store that fit a line. -/
theorem responses_answer_lines {n : Nat} {stdins : Nat → List UInt8} {as : List Actor} {s : Network}
    (h : run (networkStep n) (Network.init stdins) as = some s) {i : Nat} (hlist : ListsFit n (Network.init stdins) as i) :
    let c := (s.link i).session
    (c.responses.length ≤ c.asked.length ∧ c.asked.length ≤ c.responses.length + 1) ∧
      ∀ k r, c.responses[k]? = some r → Answered n (Network.init stdins) as i k r ∨
        r = notice ∧ k + 1 = c.responses.length ∧ (s.link i).conn.isOpen = false := by
  have hinit : StoreInv (Network.init stdins).store := ⟨∅, HandlerAux.init_represents (fun _ => ⟨[], .waiting⟩), fun k v hv => by simp at hv⟩
  obtain ⟨-, hsynced⟩ := synced_run ⟨hinit, synced_start (stdins i) _⟩ hlist h
  refine ⟨hsynced.bound, fun k r hr => (hsynced.shown k r hr).imp_right ?_⟩
  rintro ⟨hnotice, hk, hclosed, -⟩
  exact ⟨hnotice, hk, hclosed⟩

/-- A client that logs in, puts a value and lists the keys, and one that logs in. -/
def typedLines : Nat → List UInt8
  | 0 => bytes "AUTH alice alicepass\nPUT k v\nLIST\n"
  | _ => bytes "AUTH bob bobpass\n"

/-- Their steps, with those of the server. -/
def typedSteps : List Actor :=
  [.client 0, .client 1, .server 0 (CharArray.zero maxLine), .client 0, .server 1 (CharArray.zero maxLine), .client 0,
    .server 0 (CharArray.zero maxLine), .client 1, .client 0, .client 0, .server 0 (CharArray.zero maxLine), .client 0]

/-- The third response of the one is what the server answered to its `LIST`. -/
theorem responses_answer_lines_list :
    ∃ s, run (networkStep 2) (Network.init typedLines) typedSteps = some s ∧
      (s.link 0).session.responses = [cstring "OK AUTH", cstring "OK PUT", cstring "OK LIST 1 k "] ∧
      (s.link 0).session.asked.length ≤ (s.link 0).session.responses.length + 1 ∧
      Answered 2 (Network.init typedLines) typedSteps 0 2 (cstring "OK LIST 1 k ") := by
  obtain ⟨s, hs⟩ := Option.isSome_iff_exists.mp
    (show (run (networkStep 2) (Network.init typedLines) typedSteps).isSome = true by decide +kernel)
  have hresponses : (run (networkStep 2) (Network.init typedLines) typedSteps).map (fun s => (s.link 0).session.responses) =
      some [cstring "OK AUTH", cstring "OK PUT", cstring "OK LIST 1 k "] := by decide +kernel
  rw [hs, Option.map_some, Option.some.injEq] at hresponses
  obtain ⟨hbound, hshown⟩ := responses_answer_lines hs (listsFit_of_all (by decide +kernel) 0)
  refine ⟨s, hs, hresponses, hbound.2, ?_⟩
  refine (hshown 2 (cstring "OK LIST 1 k ") (by rw [hresponses]; rfl)).resolve_right ?_
  rintro ⟨hnotice, -⟩
  exact absurd hnotice (by decide)

end OsSecurity.Server
