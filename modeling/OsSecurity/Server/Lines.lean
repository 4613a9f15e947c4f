import OsSecurity.Server.Store
import OsSecurity.Lib.Scan

/-!
# The server: lines (`server.c`)

What a peer sends is a stream of bytes, known up to where it ends: the peer closes, the socket fails, or nothing more has come
yet. `recv_line` takes one byte at a time off the stream, `send_line` makes the bytes of a reply.
-/

namespace OsSecurity.Server

open CLib

/-- What `recv` answers when the bytes of a stream are used up: 0, a negative value, or nothing yet. -/
inductive Ending where
  | closed | error | waiting
  deriving DecidableEq, Repr

/-- What is still to come on a socket. -/
structure Stream where
  bytes : List UInt8
  ending : Ending
  deriving DecidableEq

/-- What `recv_line` returns, what it leaves in `out_line` before the NUL, and what is still to come. -/
structure Received where
  ret : Int
  outLine : List UInt8
  rest : Stream
  deriving DecidableEq

/-- The loop of `recv_line`, with `out_line` holding the first `pos` bytes; `none` while it waits for a byte. -/
def recvLoop (maxLen : Nat) (ending : Ending) (outLine : List UInt8) : List UInt8 → Option Received
  | [] =>
    if outLine.length < maxLen - 1 then
      match ending with
      | .closed => some ⟨0, outLine, ⟨[], ending⟩⟩
      | .error => some ⟨-1, outLine, ⟨[], ending⟩⟩
      | .waiting => none
    else some ⟨-1, outLine, ⟨[], ending⟩⟩
  | c :: rest =>
    if outLine.length < maxLen - 1 then
      if c = 10 then
        let pos := outLine.length
        -- The length returned counts a carriage return that is cut off.
        let outLine := if 0 < pos ∧ outLine.getD (pos - 1) 0 = 13 then outLine.set (pos - 1) 0 else outLine
        some ⟨pos, outLine, ⟨rest, ending⟩⟩
      else recvLoop maxLen ending (outLine ++ [c]) rest
    else some ⟨-1, outLine, ⟨c :: rest, ending⟩⟩

/-- `recv_line`. -/
def recvLine (maxLen : Nat) (s : Stream) : Option Received := recvLoop maxLen s.ending [] s.bytes

/-- `send_line`: the bytes sent. -/
def sendLine (msg : List UInt8) : List UInt8 := (msg ++ [10]).take (maxLine + 1)

/-- `is_valid_token`. -/
def isValidToken (s : CString) (maxLen : Nat) : Bool :=
  !(s.length == 0 || maxLen < s.length) && s.bytes.all (fun c => !(c < 32 || c == 127))

/-- The words of a request: the arrays `cmd`, `arg1` and `arg2`. -/
structure Request where
  cmd : CString
  arg1 : CString
  arg2 : CString
  deriving DecidableEq

/-- `sscanf(line, "%63s %63s %399[^\n]", cmd, arg1, arg2)`, on empty arrays: what is not converted stays empty. -/
def scanRequest (line : CString) : Request :=
  match scanWord (maxKey - 1) line.bytes with
  | none => ⟨cstring "", cstring "", cstring ""⟩
  | some (cmd, rest) =>
    match scanWord (maxKey - 1) (skipSpace rest) with
    | none => ⟨cmd, cstring "", cstring ""⟩
    | some (arg1, rest) =>
      match scanLine (maxValue - 1) (skipSpace rest) with
      | none => ⟨cmd, arg1, cstring ""⟩
      | some (arg2, _) => ⟨cmd, arg1, arg2⟩

end OsSecurity.Server
