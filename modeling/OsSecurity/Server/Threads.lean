import OsSecurity.Server.Handler
import OsSecurity.Lib.CriticalSection

/-!
# The server: the threads (`server.c`)

The threads of the connections take steps in any order. A step of a thread is that its connection is accepted, the receipt of a line
with all that is computed from it, one `send`, the taking of `store_lock`, or, with the lock, one iteration of the loop of a store
function, one assignment to a slot, or the end of the lock. The functions are those of the turns, cut at these points.
-/

namespace OsSecurity.Server

open CLib CriticalSection

/-- An assignment to a slot of the store. -/
inductive SlotWrite where
  /-- `strncpy(e.key, key, MAX_KEY - 1)`. -/
  | strncpyKey (key : CString)
  /-- `e.key[MAX_KEY - 1] = '\0'`. -/
  | endKey
  /-- `strncpy(e.value, value, MAX_VALUE - 1)`. -/
  | strncpyValue (value : CString)
  /-- `e.value[MAX_VALUE - 1] = '\0'`. -/
  | endValue
  /-- `e.used = used`. -/
  | setUsed (used : Bool)

def SlotWrite.apply (w : SlotWrite) (e : StoreEntry) : StoreEntry :=
  match w with
  | .strncpyKey key => { e with key := e.key.strncpy key (maxKey - 1) (Nat.pred_le maxKey) }
  | .endKey => { e with key := e.key.set (maxKey - 1) 0 }
  | .strncpyValue value => { e with value := e.value.strncpy value (maxValue - 1) (Nat.pred_le maxValue) }
  | .endValue => { e with value := e.value.set (maxValue - 1) 0 }
  | .setUsed used => { e with used := used }

/-- What a store function returns. -/
inductive Returned where
  | call (r : StoreResult)
  | list (text : List UInt8) (count : Nat)

/-- Where a thread is in a store function, with the lock. -/
inductive StorePc where
  /-- At the test of the loop of `store_put`. -/
  | put (key value : CString) (i : Nat) (freeSlot : Option Nat)
  /-- At the test of the loop of `store_get`. -/
  | get (key : CString) (i : Nat)
  /-- At the test of the loop of `store_del`. -/
  | del (key : CString) (i : Nat)
  /-- At the test of the loop of `store_list`, with the string in `out_buf`. -/
  | list (i : Nat) (out : List UInt8) (offset : UInt64) (count : Nat)
  /-- At an assignment to the slot `i`, with those that follow it. -/
  | write (i : Nat) (w : SlotWrite) (ws : List SlotWrite) (res : Returned)
  /-- Before `pthread_mutex_unlock`. -/
  | unlock (res : Returned)

/-- Where a thread is without the lock. -/
inductive HandlerPc where
  /-- The connection waits to be accepted. -/
  | backlog
  /-- Before the head of the loop, with the lines that are still to be sent. -/
  | loop (lines : List (List UInt8))
  /-- Before `pthread_mutex_lock`. -/
  | lock (access : StoreAccess)

/-- A thread without the lock: its connection with the local variables, and where it is. -/
structure Handler where
  conn : Conn
  pc : HandlerPc

/-- The lines are sent next. -/
def Handler.sends (c : Conn) (msgs : List String) : Handler := ⟨c, .loop (msgs.map (fun msg => sendLine (bytes msg)))⟩

/-- The branch of `AUTH`. -/
def threadAuth (c : Conn) (r : Request) : Handler :=
  if c.authenticated then .sends c ["ERR already_authenticated"]
  else if validUsers.any (fun u => strcmp r.arg1.bytes u.1.bytes == 0 && strcmp r.arg2.bytes u.2.bytes == 0) then
    .sends { c with authenticated := true } ["OK AUTH"]
  else
    let c := { c with authAttempts := c.authAttempts + 1 }
    if maxAuthAttempts ≤ c.authAttempts then
      .sends { c with isOpen := false } ["ERR AUTH invalid_credentials", "ERR too_many_attempts_closing"]
    else .sends c ["ERR AUTH invalid_credentials"]

/-- The branches of `PUT`, `GET` and `DEL` until the call of the store function. -/
def threadPut (c : Conn) (r : Request) : Handler :=
  if !isValidToken r.arg1 (maxKey - 1) || r.arg2.length == 0 || maxValue - 1 < r.arg2.length then
    .sends c ["ERR PUT invalid_input"]
  else ⟨c, .lock (.call (.put r.arg1 r.arg2))⟩

def threadGet (c : Conn) (r : Request) : Handler :=
  if !isValidToken r.arg1 (maxKey - 1) then .sends c ["ERR GET invalid_input"] else ⟨c, .lock (.call (.get r.arg1))⟩

def threadDel (c : Conn) (r : Request) : Handler :=
  if !isValidToken r.arg1 (maxKey - 1) then .sends c ["ERR DEL invalid_input"] else ⟨c, .lock (.call (.del r.arg1))⟩

/-- The part of the loop of `handle_client` behind `sscanf`, until it sends or calls a store function. -/
def threadRequest (c : Conn) (r : Request) : Handler :=
  if strcmp r.cmd.bytes (bytes "AUTH") = 0 then threadAuth c r
  else if !c.authenticated then .sends c ["ERR not_authenticated"]
  else if strcmp r.cmd.bytes (bytes "PUT") = 0 then threadPut c r
  else if strcmp r.cmd.bytes (bytes "GET") = 0 then threadGet c r
  else if strcmp r.cmd.bytes (bytes "DEL") = 0 then threadDel c r
  else if strcmp r.cmd.bytes (bytes "LIST") = 0 then ⟨c, .lock .list⟩
  else if strcmp r.cmd.bytes (bytes "QUIT") = 0 then .sends { c with isOpen := false } ["OK BYE"]
  else .sends c ["ERR unknown_command"]

/-- From what `recv_line` gave. -/
def threadReceived (c : Conn) (n : Received) : Handler :=
  let c := { c with input := n.rest }
  if n.ret = 0 then .sends { c with isOpen := false } []
  else if n.ret < 0 then .sends { c with isOpen := false } ["ERR protocol_violation"]
  else threadRequest c (scanRequest (CString.ofMem n.outLine))

/-- The variables of a store function behind `pthread_mutex_lock`. What the array `keys` holds before `store_list` is an argument. -/
def StoreAccess.start (keys : CharArray maxLine) : StoreAccess → StorePc
  | .call (.put key value) => .put key value 0 none
  | .call (.get key) => .get key 0
  | .call (.del key) => .del key 0
  | .list => .list 0 keys.str.bytes 0 0

/-- What a thread does without the lock. A thread whose connection is closed has returned. -/
def threadNext (h : Handler) (keys : CharArray maxLine) : Option (Next Handler (Conn × StorePc)) :=
  match h.pc with
  | .backlog => some (.goto ⟨h.conn, .loop []⟩)
  | .loop [] =>
    if h.conn.isOpen then (recvLine maxLine h.conn.input).map (fun n => .goto (threadReceived h.conn n)) else none
  | .loop (line :: lines) => some (.goto ⟨{ h.conn with sent := h.conn.sent ++ line }, .loop lines⟩)
  | .lock access => some (.acquire (h.conn, access.start keys))

/-- The line that is sent when the store function has returned. -/
def Returned.line : Returned → List UInt8
  | .call (.put _) => sendLine (bytes "OK PUT")
  | .call (.get (some value)) => sendLine ((bytes "OK GET " ++ value.bytes).take (maxLine - 1))
  | .call (.get none) => sendLine (bytes "ERR GET not_found")
  | .call (.del ret) => sendLine (bytes (if ret then "OK DEL" else "ERR DEL not_found"))
  | .list text count => sendLine ((bytes "OK LIST " ++ bytes (toString count) ++ bytes " " ++ text).take (maxLine + 31))

/-- What a thread does with the lock. -/
def threadInner (s : Store) (p : Conn × StorePc) : Store × Place Handler (Conn × StorePc) :=
  match p.2 with
  | .put key value i freeSlot =>
    match s.entries[i]? with
    | some e =>
      if e.holds key then (s, .inside (p.1, .write i (.strncpyValue value) [.endValue] (.call (.put true))))
      else (s, .inside (p.1, .put key value (i + 1) (if !e.used && freeSlot.isNone then some i else freeSlot)))
    | none =>
      match freeSlot with
      | none => (s, .inside (p.1, .unlock (.call (.put false))))
      | some j =>
        (s, .inside (p.1, .write j (.strncpyKey key) [.endKey, .strncpyValue value, .endValue, .setUsed true] (.call (.put true))))
  | .get key i =>
    match s.entries[i]? with
    | some e =>
      if e.holds key then (s, .inside (p.1, .unlock (.call (.get (some e.value.str)))))
      else (s, .inside (p.1, .get key (i + 1)))
    | none => (s, .inside (p.1, .unlock (.call (.get none))))
  | .del key i =>
    match s.entries[i]? with
    | some e =>
      if e.holds key then (s, .inside (p.1, .write i (.setUsed false) [] (.call (.del true))))
      else (s, .inside (p.1, .del key (i + 1)))
    | none => (s, .inside (p.1, .unlock (.call (.del false))))
  | .list i out offset count =>
    match s.entries[i]? with
    | some e =>
      if e.used then
        let text := e.key.str.bytes ++ bytes " "
        let room := UInt64.ofNat maxLine - offset
        let out := if room = 0 then out else out.take offset.toNat ++ text.take (room.toNat - 1)
        if room ≤ UInt64.ofNat text.length then (s, .inside (p.1, .unlock (.list out (count + 1))))
        else (s, .inside (p.1, .list (i + 1) out (offset + UInt64.ofNat text.length) (count + 1)))
      else (s, .inside (p.1, .list (i + 1) out offset count))
    | none => (s, .inside (p.1, .unlock (.list out count)))
  | .write i w ws res =>
    match ws with
    | [] => (s.modify i w.apply, .inside (p.1, .unlock res))
    | w' :: ws => (s.modify i w.apply, .inside (p.1, .write i w' ws res))
  | .unlock res => (s, .outside ⟨p.1, .loop [res.line]⟩)

/-- The code of the threads. -/
def threadProgram : Program (CharArray maxLine) Store Handler (Conn × StorePc) := { next := threadNext, inner := threadInner }

/-- The server with its threads: the store, `store_lock`, and where the threads are. -/
abbrev Threads := CriticalSection.State Nat Store Handler (Conn × StorePc)

/-- The server before the first connection is accepted, for the streams its clients send. -/
def Threads.init (inputs : Nat → Stream) : Threads :=
  { shared := Store.empty, owner := none, thread := fun i => .outside ⟨Conn.fresh (inputs i), .backlog⟩ }

/-- A step of the thread of a connection, and what the array `keys` on its stack holds. -/
def threadsStep (s : Threads) (a : Nat × CharArray maxLine) : Option Threads := CriticalSection.step threadProgram s a

end OsSecurity.Server
