import OsSecurity.Server.Lines
import OsSecurity.Lib.Stdio

/-!
# The client (`client.c`)

The client has its own `send_line` and `recv_line`, with the text of the server's and a `MAX_LINE` of its own. The loop of `main` is cut
where it waits for a line of the server; what comes before it, up to `connect`, is left out.
-/

namespace OsSecurity.Server.Client

open CLib

/-- `MAX_LINE` of the client: the size of `response`. -/
abbrev maxLine : Nat := 512

/-- `send_line` of the client: the bytes sent. -/
def sendLine (msg : List UInt8) : List UInt8 := (msg ++ [10]).take (maxLine + 1)

/-- `recv_line` of the client. -/
def recvLine (maxLen : Nat) (s : Stream) : Option Received := recvLoop maxLen s.ending [] s.bytes

/-- `read_stdin_line`: the string in `buf` and what is left of `stdin`, or nothing at the end of it. -/
def readStdinLine (size : Nat) (stdin : List UInt8) : Option (CString × List UInt8) :=
  match fgets size stdin with
  | some (buf, rest) =>
    let len := (CString.ofMem buf).length
    some (CString.ofMem (if 0 < len ∧ buf.getD (len - 1) 0 = 10 then buf.set (len - 1) 0 else buf), rest)
  | none => none

/-! ## The loop -/

/-- What `main` prints from its loop on. -/
inductive Output where
  | prompt
  | endOfInput
  | help
  | serverClosed
  | connectionError
  | response (line : CString)
  | disconnected
  deriving DecidableEq

def Output.text : Output → List UInt8
  | .prompt => bytes "> "
  | .endOfInput => bytes "\nEOF on input, closing connection.\n"
  | .help =>
    bytes "Commands:\n" ++ bytes "  AUTH <username> <password>\n" ++ bytes "  PUT <key> <value>\n" ++ bytes "  GET <key>\n" ++
      bytes "  DEL <key>\n" ++ bytes "  LIST\n" ++ bytes "  QUIT\n"
  | .serverClosed => bytes "Server closed the connection.\n"
  | .connectionError => bytes "Connection error or server response too long.\n"
  | .response line => line.bytes ++ bytes "\n"
  | .disconnected => bytes "Disconnected.\n"

/-- Where `main` is. -/
inductive Phase where
  /-- At the head of the loop. -/
  | prompt
  /-- In `recv_line`, with the line that was sent. -/
  | reply (input : CString)
  /-- The socket is closed. -/
  | done
  deriving DecidableEq

/-- The client: what is left of its input, where it is, the lines it has sent and what it has printed. -/
structure Session where
  stdin : List UInt8
  phase : Phase
  asked : List CString
  printed : List Output

/-- The client when it is connected. -/
def Session.start (stdin : List UInt8) : Session := { stdin := stdin, phase := .prompt, asked := [], printed := [] }

def Session.print (c : Session) (out : Output) : Session := { c with printed := c.printed ++ [out] }

/-- Behind the loop: `closesocket`, and the last line. -/
def Session.leave (c : Session) : Session := { c.print .disconnected with phase := .done }

/-- From the prompt to `recv_line`, or back to the head of the loop, with the bytes that are sent. -/
def prompt (c : Session) : Session × List UInt8 :=
  let c := c.print .prompt
  match readStdinLine maxLine c.stdin with
  | none => ((c.print .endOfInput).leave, [])
  | some (input, rest) =>
    let c := { c with stdin := rest }
    if input.length = 0 then (c, [])
    else if strcmp input.bytes (bytes "HELP") = 0 then (c.print .help, [])
    else ({ c with phase := .reply input, asked := c.asked ++ [input] }, sendLine input.bytes)

/-- From what `recv_line` gave to the head of the loop, or behind it. -/
def received (c : Session) (input : CString) (n : Received) : Session :=
  if n.ret = 0 then (c.print .serverClosed).leave
  else if n.ret < 0 then (c.print .connectionError).leave
  else
    let c := c.print (.response (CString.ofMem n.outLine))
    if strncmp 4 input.bytes (bytes "QUIT") = 0 then c.leave else { c with phase := .prompt }

end OsSecurity.Server.Client
