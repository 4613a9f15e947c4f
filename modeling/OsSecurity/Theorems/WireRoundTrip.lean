import OsSecurity.Lemmas.Requests

/-!
# Values across the wire

A value goes through the client's `send_line`, the server's `recv_line` and `sscanf`, the store, the reply to a `GET` and the
client's `recv_line`. Each of them has a bound of its own, and none cuts a value of up to 399 bytes.
-/

namespace OsSecurity.Server

open CLib SlotTable

namespace WireAux

/-- What the client sends of a `PUT` line is the line. -/
theorem client_sendLine {line : List UInt8} (hline : RequestAux.IsLine line) : Client.sendLine line = line ++ [10] := by
  have hfits : line.length < 511 := hline.fits
  rw [Client.sendLine, List.take_of_length_le]
  rw [List.length_append, List.length_singleton, show Client.maxLine + 1 = 513 from rfl]
  omega

/-- The reply to a `GET` is a line for the client. -/
theorem client_value {v : CString} (hv : IsLineValue v) (rest : List UInt8) (ending : Ending) :
    Client.recvLine Client.maxLine ⟨bytes "OK GET " ++ v.bytes ++ [10] ++ rest, ending⟩ =
      some ⟨7 + v.length, bytes "OK GET " ++ v.bytes, ⟨rest, ending⟩⟩ := by
  have hok : (bytes "OK GET ").length = 7 := rfl
  have hlen : (bytes "OK GET " ++ v.bytes).length = 7 + v.length := by
    rw [List.length_append, hok]
    rfl
  have hfits : v.length < 400 := hv.fits
  have hne : v.bytes ≠ [] := List.length_pos_iff.mp hv.pos
  rw [RequestAux.client_recvLine, hlen]
  · rfl
  · rw [hlen, show Client.maxLine - 1 = 511 from rfl]
    omega
  · rw [List.mem_append, not_or]
    exact ⟨by decide, hv.noNewline⟩
  · rw [List.getLast?_append_of_ne_nil _ hne]
    exact hv.last

end WireAux

/-- A value with a tab and a blank at its end, put by one client and got by another. -/
def tabbed (i : Nat) : Stream :=
  if i = 0 then ⟨bytes "AUTH alice alicepass\nPUT k a\tb \n", .waiting⟩
  else ⟨bytes "AUTH bob bobpass\nLIST\nGET k\n", .waiting⟩

end OsSecurity.Server
