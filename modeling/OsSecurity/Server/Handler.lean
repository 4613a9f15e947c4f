import OsSecurity.Server.Lines

/-!
# The server: connections (`server.c`)

Each connection has a thread that runs `handle_client`. One turn of a connection is one turn of its loop: it receives a line and
answers it. Between the turns nothing of a connection depends on the others, and within a turn there is at most one call of the
store, which holds the lock, so the threads run as their turns one after the other, in any order. The messages of `log_msg`
are left out, and with them `authed_user`, which only they use.
-/

namespace OsSecurity.Server

open CLib

abbrev maxAuthAttempts : Nat := 3

/-- `VALID_USERS`. -/
def validUsers : List (CString × CString) :=
  [(cstring "alice", cstring "alicepass"), (cstring "bob", cstring "bobpass")]

/-- A connection at the head of its loop: what is still to come, whether the loop runs, and the local variables. -/
structure Conn where
  input : Stream
  isOpen : Bool
  authenticated : Bool
  authAttempts : Nat
  /-- The bytes sent to the peer so far. -/
  sent : List UInt8
  deriving DecidableEq

/-- A connection that has just been accepted. -/
def Conn.fresh (input : Stream) : Conn :=
  { input := input, isOpen := true, authenticated := false, authAttempts := 0, sent := [] }

/-- An access to the store. -/
inductive StoreAccess where
  | call (c : StoreCall)
  | list
  deriving DecidableEq

/-- What a turn of a connection leaves: the store, the connection, the bytes it sent, and the store access it made. -/
structure Served where
  store : Store
  conn : Conn
  reply : List UInt8
  access : Option StoreAccess

/-- A reply of one line, without a store access. -/
def answer (store : Store) (c : Conn) (msg : String) : Served :=
  { store := store, conn := c, reply := sendLine (bytes msg), access := none }

/-- The branch of `AUTH`. -/
def handleAuth (store : Store) (c : Conn) (r : Request) : Served :=
  if c.authenticated then answer store c "ERR already_authenticated"
  else if validUsers.any (fun u => strcmp r.arg1.bytes u.1.bytes == 0 && strcmp r.arg2.bytes u.2.bytes == 0) then
    answer store { c with authenticated := true } "OK AUTH"
  else
    let c := { c with authAttempts := c.authAttempts + 1 }
    if maxAuthAttempts ≤ c.authAttempts then
      { store := store, conn := { c with isOpen := false },
        reply := sendLine (bytes "ERR AUTH invalid_credentials") ++ sendLine (bytes "ERR too_many_attempts_closing"),
        access := none }
    else answer store c "ERR AUTH invalid_credentials"

/-- The branch of `PUT`. What `store_put` returns is not looked at. -/
def handlePut (store : Store) (c : Conn) (r : Request) : Served :=
  if !isValidToken r.arg1 (maxKey - 1) || r.arg2.length == 0 || maxValue - 1 < r.arg2.length then
    answer store c "ERR PUT invalid_input"
  else
    { answer (storePut store r.arg1 r.arg2).1 c "OK PUT" with access := some (.call (.put r.arg1 r.arg2)) }

/-- The branch of `GET`. -/
def handleGet (store : Store) (c : Conn) (r : Request) : Served :=
  if !isValidToken r.arg1 (maxKey - 1) then answer store c "ERR GET invalid_input"
  else
    match storeGet store r.arg1 with
    | some value =>
      { store := store, conn := c, reply := sendLine ((bytes "OK GET " ++ value.bytes).take (maxLine - 1)),
        access := some (.call (.get r.arg1)) }
    | none => { answer store c "ERR GET not_found" with access := some (.call (.get r.arg1)) }

/-- The branch of `DEL`. -/
def handleDel (store : Store) (c : Conn) (r : Request) : Served :=
  if !isValidToken r.arg1 (maxKey - 1) then answer store c "ERR DEL invalid_input"
  else
    let (store, ret) := storeDel store r.arg1
    { answer store c (if ret then "OK DEL" else "ERR DEL not_found") with access := some (.call (.del r.arg1)) }

/-- The branch of `LIST`. The array `keys` is not initialised; what it holds is an argument. -/
def handleList (store : Store) (c : Conn) (keys : CharArray maxLine) : Served :=
  let (text, count) := storeList store keys.str.bytes (UInt64.ofNat maxLine)
  { store := store, conn := c,
    reply := sendLine ((bytes "OK LIST " ++ bytes (toString count) ++ bytes " " ++ text).take (maxLine + 31)),
    access := some .list }

/-- The part of the loop of `handle_client` behind `sscanf`. -/
def handleRequest (store : Store) (c : Conn) (keys : CharArray maxLine) (r : Request) : Served :=
  if strcmp r.cmd.bytes (bytes "AUTH") = 0 then handleAuth store c r
  else if !c.authenticated then answer store c "ERR not_authenticated"
  else if strcmp r.cmd.bytes (bytes "PUT") = 0 then handlePut store c r
  else if strcmp r.cmd.bytes (bytes "GET") = 0 then handleGet store c r
  else if strcmp r.cmd.bytes (bytes "DEL") = 0 then handleDel store c r
  else if strcmp r.cmd.bytes (bytes "LIST") = 0 then handleList store c keys
  else if strcmp r.cmd.bytes (bytes "QUIT") = 0 then answer store { c with isOpen := false } "OK BYE"
  else answer store c "ERR unknown_command"

/-- A turn of the loop of `handle_client`, from what `recv_line` gave. -/
def handleReceived (store : Store) (c : Conn) (keys : CharArray maxLine) (n : Received) : Served :=
  let c := { c with input := n.rest }
  if n.ret = 0 then { store := store, conn := { c with isOpen := false }, reply := [], access := none }
  else if n.ret < 0 then answer store { c with isOpen := false } "ERR protocol_violation"
  else handleRequest store c keys (scanRequest (CString.ofMem n.outLine))

/-- A turn of the loop of `handle_client`. A connection that is closed or waits for bytes stays as it is. -/
def handleClient (store : Store) (c : Conn) (keys : CharArray maxLine) : Served :=
  if c.isOpen then
    match recvLine maxLine c.input with
    | some n => handleReceived store c keys n
    | none => { store := store, conn := c, reply := [], access := none }
  else { store := store, conn := c, reply := [], access := none }

/-! ## The server -/

/-- The server: the store, and its connections by number. -/
structure State where
  store : Store
  conn : Nat → Conn

/-- The server before the first turn, for the streams its clients send. -/
def State.init (inputs : Nat → Stream) : State := { store := Store.empty, conn := fun i => Conn.fresh (inputs i) }

/-- Whose turn it is, and what the array `keys` on the stack of its thread holds. -/
structure Turn where
  client : Nat
  keys : CharArray maxLine

/-- What is seen of a turn: the bytes sent, and the store access. -/
structure Seen where
  reply : List UInt8
  access : Option StoreAccess
  deriving DecidableEq

/-- A turn of a connection. -/
def step (s : State) (t : Turn) : State × Seen :=
  let served := handleClient s.store (s.conn t.client) t.keys
  ({ store := served.store,
     conn := Function.update s.conn t.client { served.conn with sent := (s.conn t.client).sent ++ served.reply } },
    { reply := served.reply, access := served.access })

end OsSecurity.Server
