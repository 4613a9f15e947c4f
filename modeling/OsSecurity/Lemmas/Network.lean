import OsSecurity.Server.Network
import OsSecurity.Theorems.Closing
import OsSecurity.Theorems.LineLimit

/-!
# Helpers about the server with its clients

A client and its connection take turns: what the client sends is one line, and every turn of the server that takes a line leaves bytes
that let the client's `recv_line` return, or closes the connection.
-/

namespace OsSecurity.Server

open CLib FramingAux

/-! ## Lines on their way -/

/-- `recv_line` returns with these bytes, whatever comes behind them. -/
def Completes (bytes : List UInt8) : Prop := 10 ∈ bytes ∨ Client.maxLine - 1 ≤ bytes.length

theorem Completes.append {bytes : List UInt8} (h : Completes bytes) (more : List UInt8) : Completes (bytes ++ more) := by
  rcases h with h10 | hlen
  · exact .inl (List.mem_append_left _ h10)
  · refine .inr (hlen.trans ?_)
    rw [List.length_append]
    exact Nat.le_add_right _ _

theorem Completes.append_left {bytes : List UInt8} (h : Completes bytes) (before : List UInt8) : Completes (before ++ bytes) := by
  rcases h with h10 | hlen
  · exact .inl (List.mem_append_right _ h10)
  · refine .inr (hlen.trans ?_)
    rw [List.length_append]
    exact Nat.le_add_left _ _

/-- Where the bytes are used up before the line is complete, `recv_line` waits, or sees the end of the stream. -/
theorem recvLoop_isSome {maxLen : Nat} {ending : Ending} {outLine bytes : List UInt8}
    (h : 10 ∈ bytes ∨ maxLen - 1 ≤ outLine.length + bytes.length ∨ ending ≠ .waiting) :
    (recvLoop maxLen ending outLine bytes).isSome = true := by
  induction bytes generalizing outLine with
  | nil =>
    unfold recvLoop
    split
    · rename_i hlt
      cases ending with
      | closed | error => rfl
      | waiting =>
        rcases h with h | h | h
        · cases h
        · rw [List.length_nil] at h
          omega
        · exact absurd rfl h
    · rfl
  | cons c bytes ih =>
    rw [recvLoop]
    split
    · split
      · rfl
      · rename_i hc
        refine ih ?_
        rcases h with h | h | h
        · exact .inl ((List.mem_cons.mp h).resolve_left (fun heq => hc heq.symm))
        · refine .inr (.inl ?_)
          rw [List.length_append, List.length_singleton]
          rw [List.length_cons] at h
          omega
        · exact .inr (.inr h)
    · rfl

theorem clientRecv_isSome {bytes : List UInt8} {ending : Ending} (h : Completes bytes ∨ ending ≠ .waiting) :
    ∃ n, Client.recvLine Client.maxLine ⟨bytes, ending⟩ = some n := by
  refine Option.isSome_iff_exists.mp (recvLoop_isSome ?_)
  rcases h with (h10 | hlen) | hending
  · exact .inl h10
  · exact .inr (.inl (by rwa [List.length_nil, Nat.zero_add]))
  · exact .inr (.inr hending)

/-! ## What the server sends -/

theorem completes_sendLine (msg : List UInt8) : Completes (sendLine msg) := by
  rw [sendLine]
  by_cases hlen : msg.length ≤ maxLine
  · rw [List.take_of_length_le (by rw [List.length_append, List.length_singleton]; omega)]
    exact .inl (List.mem_append_right _ List.mem_cons_self)
  · refine .inr ?_
    rw [List.length_take, List.length_append, List.length_singleton]
    simp only [maxLine, Client.maxLine] at hlen ⊢
    omega

theorem handleRequest_completes (store : Store) (c : Conn) (keys : CharArray maxLine) (r : Request) :
    Completes (handleRequest store c keys r).reply := by
  have hbranch := HandlerAux.handleRequest_branch store c keys r
  generalize handleRequest store c keys r = served at hbranch
  cases hbranch with
  | auth =>
    have hauth := IsolationAux.handleAuth_branch store c r
    generalize handleAuth store c r = served at hauth
    cases hauth with
    | last => exact (completes_sendLine _).append _
    | already | passed | failed => exact completes_sendLine _
  | put =>
    rw [handlePut]
    split <;> exact completes_sendLine _
  | get =>
    rw [handleGet]
    split
    · exact completes_sendLine _
    · split <;> exact completes_sendLine _
  | del =>
    rw [handleDel]
    split <;> exact completes_sendLine _
  | list => exact completes_sendLine _
  | refused | quit | unknown => exact completes_sendLine _

/-! ## What the client does -/

/-- A line that the client sends. -/
structure IsAsked (input : CString) : Prop where
  ne : input.bytes ≠ []
  noNewline : 10 ∉ input.bytes
  fits : input.length ≤ Client.maxLine - 1

theorem readStdinLine_shorter {size : Nat} (hsize : 2 ≤ size) {stdin rest : List UInt8} {s : CString}
    (h : Client.readStdinLine size stdin = some (s, rest)) : rest.length < stdin.length := by
  unfold Client.readStdinLine fgets at h
  by_cases hnil : stdin = []
  · rw [if_pos hnil] at h
    cases h
  rw [if_neg hnil] at h
  obtain ⟨-, rfl⟩ := Prod.mk.inj (Option.some.inj h)
  rcases Nat.lt_or_ge (lineOf stdin).length (size - 1) with hlt | hge
  · rw [readUntilNewline_of_lt hlt]
    exact dropLine_length_lt hnil
  · have hpos := List.length_pos_iff.mpr hnil
    rw [readUntilNewline_of_le hge, List.length_drop]
    omega

/-- What the client does at the prompt: it leaves at the end of its input, asks again, or sends a line. -/
inductive Prompted (c : Client.Session) : Client.Session × List UInt8 → Prop
  | left : Prompted c (((c.print .prompt).print .endOfInput).leave, [])
  | again (rest : List UInt8) (printed : List Client.Output) (hrest : rest.length < c.stdin.length)
      (hprinted : ∀ line, .response line ∉ printed) :
      Prompted c ({ c with stdin := rest, printed := c.printed ++ printed }, [])
  | sent (rest : List UInt8) (input : CString) (hrest : rest.length < c.stdin.length) (hinput : IsAsked input) :
      Prompted c
        ({ c with stdin := rest, phase := .reply input, asked := c.asked ++ [input], printed := c.printed ++ [.prompt] },
          input.bytes ++ [10])

theorem prompt_prompted (c : Client.Session) : Prompted c (Client.prompt c) := by
  unfold Client.prompt
  dsimp only
  cases hread : Client.readStdinLine Client.maxLine (c.print .prompt).stdin with
  | none => exact .left
  | some out =>
    obtain ⟨input, rest⟩ := out
    obtain ⟨hfits, h10⟩ := LineLimitAux.readStdinLine_line hread
    have hrest : rest.length < c.stdin.length := readStdinLine_shorter (by decide) hread
    dsimp only
    split
    · exact .again rest [.prompt] hrest (by simp)
    split
    · have h : Prompted c _ := .again rest [.prompt, .help] hrest (by simp)
      simpa [Client.Session.print] using h
    · rename_i hne _
      rw [LineLimitAux.sendLine_whole hfits]
      exact .sent rest input hrest ⟨fun hnil => hne (by rw [CString.length, hnil]; rfl), h10, hfits⟩

/-- What the client does with what it received: it leaves, or goes on, with one line shown where one has come. -/
inductive Shown (c : Client.Session) (n : Received) : Client.Session → Prop
  | left (out : Client.Output) (hout : ∀ line, out ≠ .response line) (hret : n.ret ≤ 0) : Shown c n (c.print out).leave
  | quit (hret : 0 < n.ret) : Shown c n (c.print (.response (CString.ofMem n.outLine))).leave
  | again (hret : 0 < n.ret) : Shown c n { c.print (.response (CString.ofMem n.outLine)) with phase := .prompt }

theorem received_shown (c : Client.Session) (input : CString) (n : Received) : Shown c n (Client.received c input n) := by
  unfold Client.received
  dsimp only
  split
  · rename_i hzero
    exact .left _ (by simp) (Int.le_of_eq hzero)
  split
  · rename_i hneg
    exact .left _ (by simp) (Int.le_of_lt hneg)
  rename_i hzero hneg
  have hret : 0 < n.ret := by omega
  split
  · exact .quit hret
  · exact .again hret

/-! ## A turn of the server -/

/-- What the server makes of the first line that is on its way. -/
inductive Handled (store : Store) (c : Conn) (keys : CharArray maxLine) (line : CString) (rest : List UInt8) : Served → Prop
  | request (hfits : line.length < maxLine - 1) :
      Handled store c keys line rest
        (handleRequest store { c with input := ⟨rest, c.input.ending⟩ } keys (scanRequest (CString.ofMem (lineText line.bytes))))
  /-- The line is as long as the client's buffer allows, which the server's does not. -/
  | tooLong (hlong : maxLine - 1 ≤ line.length) :
      Handled store c keys line rest
        (answer store { c with input := ⟨10 :: rest, c.input.ending⟩, isOpen := false } "ERR protocol_violation")

variable {l l' : Link} {line : CString} {rest : List UInt8} {lines : List CString}

/-- The link after a turn of the server. -/
def Link.serve (l : Link) (served : Served) : Link :=
  { l with conn := { served.conn with sent := l.conn.sent ++ served.reply }, replies := l.replies ++ served.reply }

/-- A turn of the server is one of `handle_client`. -/
theorem serverStep_served {store store' : Store} {keys : CharArray maxLine} (h : l.serverStep store keys = some (store', l')) :
    store' = (handleClient store l.conn keys).store ∧ l' = l.serve (handleClient store l.conn keys) := by
  rw [Link.serverStep] at h
  split at h
  · rename_i hopen
    obtain ⟨n, hrecv, hserved⟩ := Option.map_eq_some_iff.mp h
    obtain ⟨rfl, rfl⟩ := Prod.mk.inj hserved
    rw [handleClient, if_pos hopen, hrecv]
    exact ⟨rfl, rfl⟩
  · cases h

/-- The turn of an open connection with a line. -/
theorem serverStep_line (hopen : l.conn.isOpen = true) (hbytes : l.conn.input.bytes = line.bytes ++ 10 :: rest) (hline : IsAsked line)
    (store : Store) (keys : CharArray maxLine) :
    Handled store l.conn keys line rest (handleClient store l.conn keys) ∧
      l.serverStep store keys = some ((handleClient store l.conn keys).store, l.serve (handleClient store l.conn keys)) := by
  obtain ⟨session, ⟨⟨bytes, ending⟩, isOpen, authenticated, attempts, sent⟩, replies⟩ := l
  obtain rfl : isOpen = true := hopen
  obtain rfl : bytes = line.bytes ++ 10 :: rest := hbytes
  rw [Link.serverStep, if_pos rfl, handleClient, if_pos rfl]
  have hlen : line.bytes.length ≤ maxLine - 1 := hline.fits
  rcases Nat.lt_or_ge line.bytes.length (maxLine - 1) with hlt | hge
  · have hpos : (0 : Int) < line.bytes.length := Int.natCast_pos.mpr (List.length_pos_iff.mpr hline.ne)
    rw [recvLine_line hline.noNewline hlt, Option.map_some]
    refine ⟨?_, rfl⟩
    dsimp only
    rw [handleReceived, if_neg (Int.ne_of_gt hpos), if_neg (Int.not_lt.mpr (Int.le_of_lt hpos)), ofMem_cutReturn]
    exact .request hlt
  · rw [recvLine_long hline.noNewline (Nat.le_antisymm hlen hge), Option.map_some]
    exact ⟨.tooLong hge, rfl⟩

theorem Handled.completes {store : Store} {c : Conn} {keys : CharArray maxLine} {served : Served}
    (h : Handled store c keys line rest served) : Completes served.reply := by
  cases h with
  | request => exact handleRequest_completes ..
  | tooLong => exact completes_sendLine _

/-- The line is off the connection, or the connection is closed. -/
theorem Handled.input {store : Store} {c : Conn} {keys : CharArray maxLine} {served : Served} (hopen : c.isOpen = true)
    (h : Handled store c keys line rest served) (hstill : served.conn.isOpen = true) :
    served.conn.input = ⟨rest, c.input.ending⟩ := by
  cases h with
  | request => exact (ClosingAux.handleRequest_open store (c := { c with input := ⟨rest, c.input.ending⟩ }) keys _ hopen).1
  | tooLong => cases hstill

/-- The turn of an open connection whose client has left. -/
theorem serverStep_left (hopen : l.conn.isOpen = true) (hend : l.conn.input = ⟨[], .closed⟩) (store : Store) (keys : CharArray maxLine) :
    l.serverStep store keys = some (store, { l with conn := { l.conn with input := ⟨[], .closed⟩, isOpen := false } }) := by
  have hrecv : recvLine maxLine ⟨[], .closed⟩ = some ⟨0, [], ⟨[], .closed⟩⟩ := recvLine_end List.not_mem_nil (by decide)
  rw [Link.serverStep, if_pos hopen, hend, hrecv]
  simp [handleReceived]

/-- An open connection without a line waits while the client is there. -/
theorem serverStep_waiting (hwait : l.conn.input = ⟨[], .waiting⟩) (store : Store) (keys : CharArray maxLine) :
    l.serverStep store keys = none := by
  have hrecv : recvLine maxLine ⟨[], .waiting⟩ = none := recvLine_end List.not_mem_nil (by decide)
  rw [Link.serverStep, hwait, hrecv]
  exact ite_self none

/-! ## The two sides of a connection -/

/-- What the server sees behind the bytes of a client. -/
def Client.Session.ending (c : Client.Session) : Ending := if c.phase = .done then .closed else .waiting

/-- The lines on their way to the server are lines that the client sent whole, and a client that waits has a reply coming. -/
structure Linked (l : Link) (lines : List CString) : Prop where
  asked : ∀ line ∈ lines, IsAsked line
  input : l.conn.isOpen = true → l.conn.input = ⟨wire (lines.map CString.bytes), l.session.ending⟩
  reply : ∀ input, l.session.phase = .reply input → l.conn.isOpen = true → lines ≠ [] ∨ Completes l.replies

/-- How many steps the two sides have still to take at most: three for a byte of the client's input, one for each line on its way, and
those to the end. -/
def Link.work (l : Link) : Nat :=
  3 * l.session.stdin.length +
    (match l.session.phase with
      | .prompt => 1
      | .reply _ => 2
      | .done => 0) +
    if l.conn.isOpen then l.conn.input.bytes.count 10 + 1 else 0

theorem linked_start (stdin : List UInt8) : Linked (.start stdin) [] where
  asked := by simp
  input _ := rfl
  reply _ h := by cases h

/-- A reply that is still to be received. -/
theorem incoming_returns (hcoming : l.conn.isOpen = true → Completes l.replies) :
    ∃ n, Client.recvLine Client.maxLine l.incoming = some n := by
  refine clientRecv_isSome ?_
  cases hopen : l.conn.isOpen with
  | true => exact .inl (hcoming hopen)
  | false => exact .inr (by simp)

/-- A step of the client, with what it did. -/
inductive ClientMoved (l : Link) : Link → Prop
  | prompted (out : Client.Session × List UInt8) (hphase : l.session.phase = .prompt) (hout : Prompted l.session out) :
      ClientMoved l (l.sends out.1 out.2)
  | received (input : CString) (n : Received) (c : Client.Session) (hphase : l.session.phase = .reply input)
      (hrecv : Client.recvLine Client.maxLine l.incoming = some n) (hshown : Shown l.session n c) :
      ClientMoved l ({ l with replies := n.rest.bytes }.sends c [])

theorem clientStep_moved (h : l.clientStep = some l') : ClientMoved l l' := by
  unfold Link.clientStep at h
  cases hphase : l.session.phase with
  | prompt =>
    rw [hphase] at h
    obtain rfl := Option.some.inj h
    exact .prompted _ hphase (prompt_prompted _)
  | reply input =>
    rw [hphase] at h
    obtain ⟨n, hrecv, rfl⟩ := Option.map_eq_some_iff.mp h
    exact .received input n _ hphase hrecv (received_shown _ _ _)
  | done =>
    rw [hphase] at h
    cases h

/-- The client has sent nothing, and does not wait. -/
theorem Linked.quiet (hl : Linked l lines) (hphase : l.session.phase ≠ .done) {c : Client.Session} (replies : List UInt8)
    (hc : ∀ input, c.phase ≠ .reply input) : Linked ({ l with replies := replies }.sends c []) lines where
  asked := hl.asked
  input hopen := by
    have hin := hl.input hopen
    simp only [Link.sends, hin, List.append_nil, Client.Session.ending, if_neg hphase]
  reply input h := absurd h (hc input)

/-- The client has sent a line. -/
theorem Linked.sent (hl : Linked l lines) (hphase : l.session.phase ≠ .done) {c : Client.Session} {input : CString}
    (hinput : IsAsked input) (hc : c.phase = .reply input) : Linked (l.sends c (input.bytes ++ [10])) (lines ++ [input]) where
  asked := by
    intro line hline
    rcases List.mem_append.mp hline with hline | hline
    · exact hl.asked line hline
    · rwa [List.mem_singleton.mp hline]
  input hopen := by
    have hin := hl.input hopen
    simp [Link.sends, hin, Client.Session.ending, hphase, hc, wire]
  reply _ _ _ := .inl (by simp)

/-- A step of the client leaves the lines on their way, or adds one. -/
theorem linked_client (hl : Linked l lines) (h : l.clientStep = some l') : ∃ lines', Linked l' lines' := by
  cases clientStep_moved h with
  | prompted out hphase hout =>
    have hrunning : l.session.phase ≠ .done := by simp [hphase]
    cases hout with
    | left => exact ⟨lines, hl.quiet hrunning l.replies (by simp [Client.Session.leave])⟩
    | again rest printed => exact ⟨lines, hl.quiet hrunning l.replies (by simp [hphase])⟩
    | sent rest input hrest hinput => exact ⟨lines ++ [input], hl.sent hrunning hinput rfl⟩
  | received input n c hphase hrecv hshown =>
    refine ⟨lines, hl.quiet (by simp [hphase]) n.rest.bytes ?_⟩
    cases hshown <;> simp [Client.Session.leave]

/-- It is paid for by what it takes off the input, or by the phase it leaves. -/
theorem work_client (h : l.clientStep = some l') : l'.work < l.work := by
  cases clientStep_moved h with
  | prompted out hphase hout =>
    cases hout with
    | left => simp [Link.work, Link.sends, Client.Session.leave, Client.Session.print, hphase]
    | again rest printed hrest =>
      simp only [Link.work, Link.sends, hphase, List.append_nil]
      omega
    | sent rest input hrest hinput =>
      have hcount : input.bytes.count 10 = 0 := List.count_eq_zero.mpr hinput.noNewline
      simp only [Link.work, Link.sends, hphase, List.count_append, hcount, List.count_singleton_self]
      split <;> omega
  | received input n c hphase hrecv hshown =>
    cases hshown <;> simp [Link.work, Link.sends, Client.Session.leave, Client.Session.print, hphase]

/-- A turn of the server takes one line off, or closes the connection. -/
theorem linked_server {store store' : Store} {keys : CharArray maxLine} (hl : Linked l lines)
    (h : l.serverStep store keys = some (store', l')) : (∃ lines', Linked l' lines') ∧ l'.work < l.work := by
  cases hopen : l.conn.isOpen with
  | false =>
    rw [Link.serverStep, hopen] at h
    cases h
  | true =>
    have hin := hl.input hopen
    cases lines with
    | nil =>
      by_cases hphase : l.session.phase = .done
      · rw [Client.Session.ending, if_pos hphase] at hin
        obtain ⟨-, rfl⟩ := Prod.mk.inj (Option.some.inj (h.symm.trans (serverStep_left hopen hin store keys)))
        refine ⟨⟨[], by simp, fun hstill => (by cases hstill), fun _ _ hstill => (by cases hstill)⟩, ?_⟩
        simp [Link.work, hopen]
      · rw [Client.Session.ending, if_neg hphase] at hin
        cases h.symm.trans (serverStep_waiting hin store keys)
    | cons line lines =>
      have hline := hl.asked line List.mem_cons_self
      obtain ⟨hserved, hstep⟩ := serverStep_line hopen (by rw [hin, List.map_cons, wire_cons]) hline store keys
      obtain ⟨-, rfl⟩ := Prod.mk.inj (Option.some.inj (h.symm.trans hstep))
      refine ⟨⟨lines, fun line' hline' => hl.asked line' (List.mem_cons_of_mem _ hline'), ?_, ?_⟩, ?_⟩
      · intro hstill
        exact (hserved.input hopen hstill).trans (by rw [hin]; rfl)
      · intro _ _ _
        exact .inr (hserved.completes.append_left _)
      · rw [Link.work, Link.work, if_pos hopen]
        refine Nat.add_lt_add_left ?_ _
        by_cases hstill : (l.serve (handleClient store l.conn keys)).conn.isOpen = true
        · have hrest : (l.serve (handleClient store l.conn keys)).conn.input = ⟨wire (lines.map CString.bytes), l.conn.input.ending⟩ :=
            hserved.input hopen hstill
          rw [if_pos hstill, hrest, hin, List.map_cons, wire_cons, List.count_append, List.count_cons_self]
          dsimp only
          omega
        · rw [if_neg hstill]
          exact Nat.succ_pos _

/-- Where neither side has a step, the client has left and the connection is closed. -/
theorem linked_stuck (hl : Linked l lines) (hclient : l.clientStep = none) (hserver : ∀ store keys, l.serverStep store keys = none) :
    l.session.phase = .done ∧ l.conn.isOpen = false := by
  have hclosed : l.session.phase = .done → l.conn.isOpen = false := by
    intro hphase
    cases hopen : l.conn.isOpen with
    | false => rfl
    | true =>
      exfalso
      have hin := hl.input hopen
      have hnone := hserver Store.empty (CharArray.zero maxLine)
      cases lines with
      | nil =>
        rw [Client.Session.ending, if_pos hphase] at hin
        cases hnone.symm.trans (serverStep_left hopen hin Store.empty (CharArray.zero maxLine))
      | cons line lines =>
        obtain ⟨-, hstep⟩ := serverStep_line hopen (by rw [hin, List.map_cons, wire_cons])
          (hl.asked line List.mem_cons_self) Store.empty (CharArray.zero maxLine)
        cases hnone.symm.trans hstep
  unfold Link.clientStep at hclient
  cases hphase : l.session.phase with
  | prompt =>
    rw [hphase] at hclient
    cases hclient
  | done => exact ⟨rfl, hclosed hphase⟩
  | reply input =>
    have hcoming : l.conn.isOpen = true → Completes l.replies := by
      intro hopen
      refine (hl.reply input hphase hopen).resolve_left ?_
      intro hlines
      obtain ⟨line, more, rfl⟩ := List.exists_cons_of_ne_nil hlines
      obtain ⟨-, hstep⟩ := serverStep_line hopen (by rw [hl.input hopen, List.map_cons, wire_cons])
        (hl.asked line List.mem_cons_self) Store.empty (CharArray.zero maxLine)
      cases (hserver _ _).symm.trans hstep
    obtain ⟨n, hrecv⟩ := incoming_returns hcoming
    rw [hphase] at hclient
    cases (Option.map_eq_none_iff.mp hclient).symm.trans hrecv

end OsSecurity.Server
