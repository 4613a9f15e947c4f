import OsSecurity.Server.Client
import OsSecurity.Server.Handler

/-!
# The server with its clients

Each client has a connection of its own, which the server has accepted. What the client sends is the input of the connection, what the
server sends is on its way until the client receives it, and each side sees the end of the other when the bytes are used up. A client takes
a step from one call of `recv_line` to the next, the server takes one turn of a connection; they take their steps in any order.
-/

namespace OsSecurity.Server

open CLib

/-- A client and its connection: the two ends, and the bytes on their way to the client. -/
structure Link where
  session : Client.Session
  conn : Conn
  replies : List UInt8

/-- A client that has just been accepted. -/
def Link.start (stdin : List UInt8) : Link :=
  { session := .start stdin, conn := .fresh ⟨[], .waiting⟩, replies := [] }

/-- What the client receives. -/
def Link.incoming (l : Link) : Stream := ⟨l.replies, if l.conn.isOpen then .waiting else .closed⟩

/-- The client is where `session` says, and has sent `out`. -/
def Link.sends (l : Link) (session : Client.Session) (out : List UInt8) : Link :=
  { l with
    session := session
    conn := { l.conn with
      input := ⟨l.conn.input.bytes ++ out, if session.phase = .done then .closed else l.conn.input.ending⟩ } }

/-- A step of the client, unless it waits for bytes or is done. -/
def Link.clientStep (l : Link) : Option Link :=
  match l.session.phase with
  | .prompt => some (l.sends (Client.prompt l.session).1 (Client.prompt l.session).2)
  | .reply input =>
    (Client.recvLine Client.maxLine l.incoming).map fun n =>
      { l with replies := n.rest.bytes }.sends (Client.received l.session input n) []
  | .done => none

/-- A turn of the connection, unless it waits for bytes or is closed. -/
def Link.serverStep (l : Link) (store : Store) (keys : CharArray maxLine) : Option (Store × Link) :=
  if l.conn.isOpen then
    (recvLine maxLine l.conn.input).map fun n =>
      let served := handleReceived store l.conn keys n
      (served.store,
        { l with conn := { served.conn with sent := l.conn.sent ++ served.reply }, replies := l.replies ++ served.reply })
  else none

/-- The store, and the clients by number. -/
structure Network where
  store : Store
  link : Nat → Link

/-- The clients with their inputs, and an empty store. -/
def Network.init (stdins : Nat → List UInt8) : Network := { store := Store.empty, link := fun i => .start (stdins i) }

/-- Who takes a step; for the server, with what the array `keys` on the stack of the thread holds. -/
inductive Actor where
  | client (i : Nat)
  | server (i : Nat) (keys : CharArray maxLine)

/-- A step, with the first `n` clients. -/
def networkStep (n : Nat) (s : Network) : Actor → Option Network
  | .client i => if i < n then (s.link i).clientStep.map fun l => { s with link := Function.update s.link i l } else none
  | .server i keys =>
    if i < n then
      ((s.link i).serverStep s.store keys).map fun served =>
        { store := served.1, link := Function.update s.link i served.2 }
    else none

end OsSecurity.Server
