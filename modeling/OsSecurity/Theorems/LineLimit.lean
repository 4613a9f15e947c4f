import OsSecurity.Lemmas.Requests

/-!
# The longest line from the client to the server
-/

namespace OsSecurity.Server

open CLib

/-- The server's `recv_line` gives the bytes that the client's `send_line` makes of a string as exactly that string, whatever follows
them. -/
def Agrees (s : CString) : Prop :=
  ∀ (rest : List UInt8) (ending : Ending),
    recvLine maxLine ⟨Client.sendLine s.bytes ++ rest, ending⟩ = some ⟨s.length, s.bytes, ⟨rest, ending⟩⟩

namespace LineLimitAux

open FramingAux

/-- What the client reads from `stdin` has no newline and fits its buffer. -/
theorem readStdinLine_line {size : Nat} {stdin rest : List UInt8} {s : CString}
    (h : Client.readStdinLine size stdin = some (s, rest)) : s.length ≤ size - 1 ∧ 10 ∉ s.bytes := by
  unfold Client.readStdinLine fgets at h
  by_cases hnil : stdin = []
  · rw [if_pos hnil] at h
    nomatch h
  · rw [if_neg hnil] at h
    obtain ⟨rfl, -⟩ := Prod.mk.inj (Option.some.inj h)
    have hline := cstr_chomp_read (size - 1) stdin
    change (cstr (chomp (readUntilNewline (size - 1) stdin).1)).length ≤ _ ∧ 10 ∉ cstr (chomp (readUntilNewline (size - 1) stdin).1)
    rw [hline]
    constructor
    · exact (cstr_length_le _).trans (List.length_take_le _ _)
    · intro h10
      exact newline_notMem_lineOf stdin (List.mem_of_mem_take ((List.takeWhile_prefix _).subset h10))

/-- A string that the client can read is sent whole. -/
theorem sendLine_whole {s : CString} (h : s.length ≤ 511) : Client.sendLine s.bytes = s.bytes ++ [10] := by
  rw [Client.sendLine, List.take_of_length_le]
  rw [List.length_append, List.length_singleton]
  exact Nat.succ_le_succ (Nat.le_succ_of_le h)

end LineLimitAux

/-- For every string of at least one byte that the client's `read_stdin_line` delivers into its 512 bytes and that does not end in a
carriage return: the server's `recv_line` decodes it as exactly that string if and only if it has at most 510 bytes. -/
theorem line_agrees_iff {stdin rest : List UInt8} {s : CString}
    (h : Client.readStdinLine Client.maxLine stdin = some (s, rest)) (hpos : 0 < s.length) (h13 : s.bytes.getLast? ≠ some 13) :
    Agrees s ↔ s.length ≤ 510 := by
  obtain ⟨hlen, h10⟩ := LineLimitAux.readStdinLine_line h
  have hsent := LineLimitAux.sendLine_whole hlen
  constructor
  · intro hagrees
    have hrecv := hagrees [] .waiting
    have hret := RequestAux.recvLoop_ret hrecv
    rcases hret with hlt | hle
    · exact Nat.le_of_lt_succ (Int.ofNat_lt.mp hlt)
    · exact absurd hle (Int.not_le.mpr (Int.natCast_pos.mpr hpos))
  · intro hle rest ending
    rw [hsent, List.append_assoc]
    exact HandlerAux.recvLine_plain ending rest h10 (Nat.lt_succ_of_le hle) h13

/-- A line of 511 bytes on `stdin`. -/
def longest : CString := CString.ofMem (List.replicate 511 97)

/-- The client delivers it, and the server gives up on it before its newline. -/
theorem longest_rejected :
    Client.readStdinLine Client.maxLine (longest.bytes ++ [10]) = some (longest, [10]) ∧ longest.length = 511 ∧
      longest.bytes.getLast? ≠ some 13 ∧
      recvLine maxLine ⟨Client.sendLine longest.bytes, .waiting⟩ = some ⟨-1, longest.bytes, ⟨[10], .waiting⟩⟩ ∧
      ¬ Agrees longest := by
  have hrun : Client.readStdinLine Client.maxLine (longest.bytes ++ [10]) = some (longest, [10]) ∧ longest.length = 511 ∧
      longest.bytes.getLast? ≠ some 13 ∧
      recvLine maxLine ⟨Client.sendLine longest.bytes, .waiting⟩ = some ⟨-1, longest.bytes, ⟨[10], .waiting⟩⟩ := by
    decide +kernel
  obtain ⟨hread, hlen, hlast, hrecv⟩ := hrun
  refine ⟨hread, hlen, hlast, hrecv, ?_⟩
  intro hagrees
  have hwhole := hagrees [] .waiting
  rw [List.append_nil] at hwhole
  have hret := congrArg Received.ret (Option.some.inj (hrecv.symm.trans hwhole))
  exact absurd hret (by decide +kernel)

theorem line_agrees_iff_quit : Agrees (cstring "QUIT") := by
  have hread : Client.readStdinLine Client.maxLine (bytes "QUIT\nLIST\n") = some (cstring "QUIT", bytes "LIST\n") := by decide
  exact (line_agrees_iff hread (by decide) (by decide)).mpr (by decide)

end OsSecurity.Server
