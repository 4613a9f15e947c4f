import OsSecurity.Theorems.Isolation
import OsSecurity.Lemmas.Requests

/-!
# Why a connection is closed
-/

namespace OsSecurity.Server

open CLib

/-- A request is a `QUIT`. -/
def Request.isQuit (r : Request) : Bool := strcmp r.cmd.bytes (bytes "QUIT") == 0

/-- The next turn of the connection fails the last `AUTH` that it may fail. -/
def Conn.failsLastAuth (c : Conn) : Bool := c.failsAuth && decide (maxAuthAttempts ≤ c.authAttempts + 1)

/-- The next turn of the connection processes a `QUIT`, authenticated. -/
def Conn.quits (c : Conn) : Bool := c.authenticated && c.pending.any Request.isQuit

/-- The reasons to close a connection: its peer closed or the socket failed, a line is over the limit, the third `AUTH` fails, or a
`QUIT` is processed. -/
inductive StatedReason (c : Conn) : Prop where
  | ended : c.input.ending ≠ .waiting → 10 ∉ c.input.bytes → c.input.bytes.length < maxLine - 1 → StatedReason c
  | lineTooLong : maxLine - 1 ≤ c.input.bytes.length → 10 ∉ c.input.bytes.take (maxLine - 1) → StatedReason c
  | lastAuth : c.failsLastAuth = true → StatedReason c
  | quit : c.quits = true → StatedReason c

/-- A turn takes an open connection from `c` to `c'`: closed only for a stated reason, and otherwise at the line behind the next one. -/
structure KeepsGoing (c c' : Conn) : Prop where
  reason : c'.isOpen = false → StatedReason c
  next : ∀ line rest, c.input.bytes = line ++ 10 :: rest → 10 ∉ line → line.length < maxLine - 1 → ¬ StatedReason c →
    c'.isOpen = true ∧ c'.input = ⟨rest, c.input.ending⟩

/-- An open connection whose next line is empty. -/
def Conn.atEmptyLine (c : Conn) : Bool := c.isOpen && c.input.bytes.head? == some 10

namespace ClosingAux

open IsolationAux

/-- An `AUTH` leaves the stream alone, and closes the connection when it is the last that may fail. -/
theorem handleAuth_open (store : Store) {c : Conn} (r : Request) (hopen : c.isOpen = true) :
    (handleAuth store c r).conn.input = c.input ∧
      ((handleAuth store c r).conn.isOpen = false →
        c.authenticated = false ∧ r.isUser = false ∧ maxAuthAttempts ≤ c.authAttempts + 1) := by
  have hkept : ¬ c.isOpen = false := by
    rw [hopen]
    exact Bool.noConfusion
  have h := handleAuth_branch store c r
  generalize handleAuth store c r = served at h
  cases h with
  | last hauth huser hmax => exact ⟨rfl, fun _ => ⟨hauth, huser, hmax⟩⟩
  | already | passed | failed => exact ⟨rfl, fun h => absurd h hkept⟩

/-- A request leaves the stream alone, and closes the connection with the last failed `AUTH` or with an authenticated `QUIT`. -/
theorem handleRequest_open (store : Store) {c : Conn} (keys : CharArray maxLine) (r : Request) (hopen : c.isOpen = true) :
    (handleRequest store c keys r).conn.input = c.input ∧
      ((handleRequest store c keys r).conn.isOpen = false →
        c.authenticated = false ∧ r.isAuth = true ∧ r.isUser = false ∧ maxAuthAttempts ≤ c.authAttempts + 1 ∨
          c.authenticated = true ∧ r.isQuit = true) := by
  have hkept : ¬ c.isOpen = false := by
    rw [hopen]
    exact Bool.noConfusion
  have hbranch := HandlerAux.handleRequest_branch store c keys r
  generalize handleRequest store c keys r = served at hbranch
  cases hbranch with
  | auth hcmd =>
    obtain ⟨hinput, hclosed⟩ := handleAuth_open store r hopen
    refine ⟨hinput, fun h => .inl ?_⟩
    obtain ⟨hauth, huser, hmax⟩ := hclosed h
    exact ⟨hauth, (isAuth_iff r).mpr hcmd, huser, hmax⟩
  | put =>
    rw [handlePut_conn]
    exact ⟨rfl, fun h => absurd h hkept⟩
  | get =>
    rw [handleGet_conn]
    exact ⟨rfl, fun h => absurd h hkept⟩
  | del =>
    rw [handleDel_conn]
    exact ⟨rfl, fun h => absurd h hkept⟩
  | quit hcmd hauth hquit => exact ⟨rfl, fun _ => .inr ⟨hauth, beq_iff_eq.mpr hquit⟩⟩
  | refused | list | unknown => exact ⟨rfl, fun h => absurd h hkept⟩

/-- How a stream begins: with a line, with more bytes than a line may have, or with bytes that may become a line. -/
theorem stream_cases (bytes : List UInt8) :
    (∃ line rest, bytes = line ++ 10 :: rest ∧ 10 ∉ line ∧ line.length < maxLine - 1) ∨
      (maxLine - 1 ≤ bytes.length ∧ 10 ∉ bytes.take (maxLine - 1)) ∨ (10 ∉ bytes ∧ bytes.length < maxLine - 1) := by
  by_cases hmem : 10 ∈ bytes.take (maxLine - 1)
  · obtain ⟨line, rest, htake, hline⟩ := List.eq_append_cons_of_mem hmem
    refine .inl ⟨line, rest ++ bytes.drop (maxLine - 1), ?_, hline, ?_⟩
    · rw [← List.cons_append, ← List.append_assoc, ← htake, List.take_append_drop]
    · have hlen := congrArg List.length htake
      have hle := List.length_take_le (maxLine - 1) bytes
      rw [List.length_append, List.length_cons] at hlen
      omega
  · by_cases hlen : maxLine - 1 ≤ bytes.length
    · exact .inr (.inl ⟨hlen, hmem⟩)
    · rw [List.take_of_length_le (Nat.le_of_lt (Nat.not_le.mp hlen))] at hmem
      exact .inr (.inr ⟨hmem, Nat.not_le.mp hlen⟩)

theorem handleClient_recv {c : Conn} {n : Received} (hopen : c.isOpen = true) (h : recvLine maxLine c.input = some n)
    (store : Store) (keys : CharArray maxLine) : handleClient store c keys = handleReceived store c keys n := by
  rw [handleClient, if_pos hopen, h]

/-- The turn at an empty line closes the connection. -/
theorem handleClient_emptyLine {c : Conn} (h : c.atEmptyLine = true) :
    c.pending = none ∧ ∀ store keys, (handleClient store c keys).conn.isOpen = false := by
  rw [Conn.atEmptyLine, Bool.and_eq_true, beq_iff_eq] at h
  obtain ⟨hopen, hhead⟩ := h
  obtain ⟨rest, hin⟩ := List.head?_eq_some_iff.mp hhead
  have hrecv : recvLine maxLine c.input = some ⟨0, [], ⟨rest, c.input.ending⟩⟩ := by
    have h : recvLine maxLine ⟨[] ++ 10 :: rest, c.input.ending⟩ = some ⟨0, [], ⟨rest, c.input.ending⟩⟩ :=
      FramingAux.recvLine_line List.not_mem_nil (Nat.succ_pos _)
    rw [List.nil_append, ← hin] at h
    exact h
  constructor
  · rw [Conn.pending, if_pos hopen, hrecv]
    rfl
  · intro store keys
    rw [handleClient_recv hopen hrecv]
    rfl

/-- No reason is stated for it. -/
theorem not_statedReason {c : Conn} (h : c.atEmptyLine = true) : ¬ StatedReason c := by
  have hpending := (handleClient_emptyLine h).1
  rw [Conn.atEmptyLine, Bool.and_eq_true, beq_iff_eq] at h
  obtain ⟨rest, hin⟩ := List.head?_eq_some_iff.mp h.2
  rintro (⟨-, h10, -⟩ | ⟨-, h10⟩ | hlast | hquit)
  · rw [hin] at h10
    exact h10 List.mem_cons_self
  · rw [hin, show maxLine - 1 = 510 + 1 from rfl, List.take_succ_cons] at h10
    exact h10 List.mem_cons_self
  · rw [Conn.failsLastAuth, Conn.failsAuth, hpending, Option.any_none, Bool.and_false, Bool.false_and] at hlast
    exact Bool.false_ne_true hlast
  · rw [Conn.quits, hpending, Option.any_none, Bool.and_false] at hquit
    exact Bool.false_ne_true hquit

/-- A turn at a line that is not empty. -/
theorem handleClient_next {c : Conn} {line rest : List UInt8} (hopen : c.isOpen = true)
    (hin : c.input.bytes = line ++ 10 :: rest) (hne : line ≠ []) (h10 : 10 ∉ line) (hlen : line.length < maxLine - 1)
    (store : Store) (keys : CharArray maxLine) :
    (handleClient store c keys).conn.input = ⟨rest, c.input.ending⟩ ∧
      ((handleClient store c keys).conn.isOpen = false → StatedReason c) := by
  obtain ⟨hpending, hturn⟩ := HandlerAux.handleClient_frame hopen hin hne h10 hlen
  rw [hturn]
  have hturned : { c with input := ⟨rest, c.input.ending⟩ }.isOpen = true := hopen
  obtain ⟨hinput, hclosed⟩ := handleRequest_open store keys (scanRequest (CString.ofMem (lineText line))) hturned
  refine ⟨hinput, fun h => ?_⟩
  rcases hclosed h with ⟨hauth, hcmd, huser, hmax⟩ | ⟨hauth, hquit⟩
  · refine .lastAuth ?_
    have hauth' : c.authenticated = false := hauth
    rw [Conn.failsLastAuth, Conn.failsAuth, hpending, Option.any_some, hcmd, huser, hauth', decide_eq_true hmax]
    rfl
  · refine .quit ?_
    have hauth' : c.authenticated = true := hauth
    rw [Conn.quits, hpending, Option.any_some, hquit, hauth']
    rfl

/-- A turn that closes an open connection has a reason, but at an empty line. -/
theorem handleClient_reason {c : Conn} (hopen : c.isOpen = true) (hline : c.atEmptyLine = false) {store : Store}
    {keys : CharArray maxLine} (h : (handleClient store c keys).conn.isOpen = false) : StatedReason c := by
  rcases stream_cases c.input.bytes with ⟨line, rest, hin, h10, hlen⟩ | ⟨hlong, h10⟩ | ⟨h10, hlen⟩
  · have hne : line ≠ [] := by
      rintro rfl
      rw [Conn.atEmptyLine, hopen, hin] at hline
      nomatch hline
    exact (handleClient_next hopen hin hne h10 hlen store keys).2 h
  · exact .lineTooLong hlong h10
  · by_cases hwaiting : c.input.ending = .waiting
    · have hrecv : recvLine maxLine c.input = none := by
        have hstream : c.input = ⟨c.input.bytes, .waiting⟩ := by rw [← hwaiting]
        rw [hstream, FramingAux.recvLine_end h10 hlen]
      rw [handleClient, if_pos hopen, hrecv] at h
      exact absurd (hopen.symm.trans h) Bool.noConfusion
    · exact .ended hwaiting h10 hlen

/-- A turn of an open connection keeps it going exactly where the next line is not empty. -/
theorem keepsGoing_iff {s : State} {t : Turn} (hopen : (s.conn t.client).isOpen = true) :
    KeepsGoing (s.conn t.client) ((step s t).1.conn t.client) ↔ (s.conn t.client).atEmptyLine = false := by
  rw [step_conn_self]
  constructor
  · intro h
    by_contra hline
    have hempty : (s.conn t.client).atEmptyLine = true := by simpa using hline
    exact not_statedReason hempty (h.reason ((handleClient_emptyLine hempty).2 s.store t.keys))
  · intro hline
    refine ⟨fun h => handleClient_reason hopen hline h, ?_⟩
    intro line rest hin h10 hlen hreason
    have hne : line ≠ [] := by
      rintro rfl
      rw [Conn.atEmptyLine, hopen, hin] at hline
      nomatch hline
    obtain ⟨hinput, hclosed⟩ := handleClient_next hopen hin hne h10 hlen s.store t.keys
    refine ⟨?_, hinput⟩
    by_contra hnot
    exact hreason (hclosed (by simpa using hnot))

end ClosingAux

/-- In a run of the server: every turn of an open connection closes it only for a stated reason and otherwise goes on to the next line,
if and only if no turn finds its connection at an empty line. -/
theorem closes_for_reason_iff (inputs : Nat → Stream) (ts : List Turn) :
    (∀ before t after, ts = before ++ t :: after → ((Runs.final step (State.init inputs) before).conn t.client).isOpen = true →
      KeepsGoing ((Runs.final step (State.init inputs) before).conn t.client)
        ((Runs.final step (State.init inputs) (before ++ [t])).conn t.client)) ↔
    ∀ before t after, ts = before ++ t :: after →
      ((Runs.final step (State.init inputs) before).conn t.client).atEmptyLine = false := by
  constructor
  · intro h before t after hts
    cases hopen : ((Runs.final step (State.init inputs) before).conn t.client).isOpen with
    | false =>
      rw [Conn.atEmptyLine, hopen]
      rfl
    | true =>
      have hgoing := h before t after hts hopen
      rw [Runs.final_concat] at hgoing
      exact (ClosingAux.keepsGoing_iff hopen).mp hgoing
  · intro h before t after hts hopen
    rw [Runs.final_concat]
    exact (ClosingAux.keepsGoing_iff hopen).mpr (h before t after hts)

/-- An empty line and a request. -/
def blankLine : Stream := ⟨bytes "\nAUTH alice alicepass\n", .waiting⟩

/-- The server closes the connection at the empty line, and the request behind it is never read. -/
theorem closed_at_blankLine :
    let s := Runs.final step (State.init (fun _ => blankLine)) [turn 0]
    (s.conn 0).isOpen = false ∧ (s.conn 0).input.bytes = bytes "AUTH alice alicepass\n" ∧
      ¬ StatedReason ((State.init (fun _ => blankLine)).conn 0) ∧
      ¬ KeepsGoing ((State.init (fun _ => blankLine)).conn 0) (s.conn 0) := by
  have hempty : ((State.init (fun _ => blankLine)).conn 0).atEmptyLine = true := by decide
  have hclosed : ((Runs.final step (State.init (fun _ => blankLine)) [turn 0]).conn 0).isOpen = false := by decide +kernel
  have hreason := ClosingAux.not_statedReason hempty
  exact ⟨hclosed, by decide +kernel, hreason, fun h => hreason (h.reason hclosed)⟩

end OsSecurity.Server
