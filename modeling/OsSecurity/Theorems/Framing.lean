import OsSecurity.Lemmas.Framing

/-!
# The lines of a stream

What `recv_line` makes of an arbitrary stream that ends, against the stream split at its newlines.
-/

namespace OsSecurity.Server

open CLib

/-- The writes of `recv_line` to `out_line`, as indices and bytes, with `out_line` holding the first `pos` bytes. -/
def recvWrites (maxLen : Nat) (outLine : List UInt8) : List UInt8 → List (Nat × UInt8)
  | [] => []
  | c :: rest =>
    if outLine.length < maxLen - 1 then
      if c = 10 then
        let pos := outLine.length
        (pos, 0) :: if 0 < pos ∧ outLine.getD (pos - 1) 0 = 13 then [(pos - 1, 0)] else []
      else (outLine.length, c) :: recvWrites maxLen (outLine ++ [c]) rest
    else []

/-- Why the calls of `recv_line` stop behind the lines that `before` carries, and what the last call leaves. -/
inductive Stops (bytes before : List UInt8) (stop : Received) : Prop where
  | emptyLine : stop.ret = 0 → bytes = before ++ 10 :: stop.rest.bytes → Stops bytes before stop
  | ended (line : List UInt8) : stop.ret = 0 → 10 ∉ line → line.length ≤ 510 → bytes = before ++ line → stop.rest.bytes = [] →
      Stops bytes before stop
  | tooLong (line : List UInt8) : stop.ret = -1 → 10 ∉ line → line.length = 511 → bytes = before ++ line ++ stop.rest.bytes →
      Stops bytes before stop

namespace FramingAux

variable {maxLen : Nat} {ending : Ending} {outLine : List UInt8} {n : Received}

/-- The writes are below the limit. -/
theorem recvWrites_lt (bytes : List UInt8) : ∀ e ∈ recvWrites maxLen outLine bytes, e.1 < maxLen := by
  induction bytes generalizing outLine with
  | nil => exact fun e he => absurd he List.not_mem_nil
  | cons c bytes ih =>
    intro e he
    rw [recvWrites] at he
    split at he
    · rename_i hlt
      split at he
      · rcases List.mem_cons.mp he with rfl | he
        · dsimp only
          omega
        · split at he
          · rw [List.mem_singleton.mp he]
            dsimp only
            omega
          · exact absurd he List.not_mem_nil
      · rcases List.mem_cons.mp he with rfl | he
        · dsimp only
          omega
        · exact ih e he
    · exact absurd he List.not_mem_nil

theorem set_prefix {mem : List UInt8} (h : outLine <+: mem) (hlen : outLine.length < mem.length) (c : UInt8) :
    outLine ++ [c] <+: mem.set outLine.length c := by
  obtain ⟨tail, rfl⟩ := h
  cases tail with
  | nil =>
    rw [List.append_nil] at hlen
    exact absurd hlen (Nat.lt_irrefl _)
  | cons x tail =>
    rw [List.set_append_right _ _ (Nat.le_refl _), Nat.sub_self]
    exact ⟨tail, List.append_assoc _ _ _⟩

/-- The line is what the writes leave in the buffer. -/
theorem foldl_recvWrites {bytes mem : List UInt8} (hmem : maxLen ≤ mem.length) (hfront : outLine <+: mem)
    (h : recvLoop maxLen ending outLine bytes = some n) :
    n.outLine <+: (recvWrites maxLen outLine bytes).foldl (fun m e => m.set e.1 e.2) mem := by
  induction bytes generalizing outLine mem with
  | nil =>
    unfold recvLoop at h
    split at h
    · cases ending <;> cases h <;> exact hfront
    · cases h
      exact hfront
  | cons c bytes ih =>
    rw [recvLoop] at h
    rw [recvWrites]
    split at h
    · rename_i hlt
      have hset := set_prefix hfront (Nat.lt_of_lt_of_le hlt (Nat.le_trans (Nat.sub_le _ _) hmem))
      rw [if_pos hlt]
      split at h
      · rename_i hc
        cases h
        rw [if_pos hc, List.foldl_cons]
        have hkept : outLine <+: mem.set outLine.length 0 := (List.prefix_append outLine [0]).trans (hset 0)
        dsimp only
        split
        · obtain ⟨tail, htail⟩ := hkept
          rename_i hcr
          rw [List.foldl_cons, List.foldl_nil, ← htail, List.set_append_left _ _ (Nat.sub_one_lt_of_lt hcr.1)]
          exact List.prefix_append _ _
        · exact hkept
      · rename_i hc
        rw [if_neg hc, List.foldl_cons]
        exact ih (by rw [List.length_set]; exact hmem) (hset c) h
    · rename_i hfull
      cases h
      rw [if_neg hfull]
      exact hfront

/-- Why the calls stop at a line that is the last one or no frame. -/
theorem recvLines_stop (before : List UInt8) {l : List UInt8} {more : List (List UInt8)} (h10 : 10 ∉ l)
    (hstop : more = [] ∨ isFrame l = false) :
    ∃ stop, recvLines maxLine ⟨[10].intercalate (l :: more), .closed⟩ = [stop] ∧
      Stops (before ++ [10].intercalate (l :: more)) before stop := by
  by_cases hlen : l.length < maxLine - 1
  · rcases more with _ | ⟨l', more⟩
    · rw [List.intercalate_singleton]
      refine ⟨_, recvLines_of_not_pos (recvLine_end h10 hlen) (lt_irrefl _), .ended l rfl h10 ?_ rfl rfl⟩
      exact Nat.le_of_lt_succ hlen
    · have hempty : l = [] := by
        rcases hstop with hnil | hframe
        · exact absurd hnil (List.cons_ne_nil _ _)
        · by_contra hne
          rw [isFrame, decide_eq_true hne, decide_eq_true hlen] at hframe
          exact Bool.false_ne_true hframe.symm
      subst hempty
      have hrecv : recvLine maxLine ⟨[] ++ 10 :: [10].intercalate (l' :: more), .closed⟩ = _ := recvLine_line h10 hlen
      rw [List.intercalate_cons_cons]
      exact ⟨_, recvLines_of_not_pos hrecv (lt_irrefl _), .emptyLine rfl rfl⟩
  · have hw : (l.take (maxLine - 1)).length = maxLine - 1 := List.length_take_of_le (Nat.not_lt.mp hlen)
    have hw10 : 10 ∉ l.take (maxLine - 1) := fun h => h10 (List.mem_of_mem_take h)
    obtain ⟨rest, hrest⟩ : ∃ rest, [10].intercalate (l :: more) = l.take (maxLine - 1) ++ rest := by
      refine ⟨l.drop (maxLine - 1) ++ [10].intercalate ([] :: more), ?_⟩
      rw [← List.append_assoc, List.take_append_drop]
      rcases more with _ | ⟨l', more⟩
      · simp
      · simp [List.intercalate_cons_cons]
    rw [hrest]
    have hneg : ¬ (0 : Int) < -1 := Int.not_lt.mpr (Int.neg_nonpos_of_nonneg Int.one_nonneg)
    refine ⟨_, recvLines_of_not_pos (recvLine_long hw10 hw) hneg, .tooLong _ rfl hw10 hw ?_⟩
    rw [List.append_assoc]

end FramingAux

/-- What `recv_line` leaves in `out_line` is what its writes leave there. -/
theorem recvLine_writes {maxLen : Nat} {s : Stream} {mem : List UInt8} {n : Received} (hmem : maxLen ≤ mem.length)
    (h : recvLine maxLen s = some n) : n.outLine <+: (recvWrites maxLen [] s.bytes).foldl (fun m e => m.set e.1 e.2) mem :=
  FramingAux.foldl_recvWrites hmem List.nil_prefix h

/-- For every stream that ends: the calls of `recv_line` deliver exactly the frames of the stream, in order, each with its length and
its text; behind the `i`-th the stream goes on where its newline was. They stop at an empty line, at the end of the stream or behind 511
bytes without a newline, whichever comes first; and no call writes an index of 512 or more. -/
theorem recvLines_framing (bytes : List UInt8) :
    (∃ results stop, recvLines maxLine ⟨bytes, .closed⟩ = results ++ [stop] ∧ results.length = (frames bytes).length ∧
      (∀ (i : Nat) (line : List UInt8) (n : Received), (frames bytes)[i]? = some line → results[i]? = some n →
        n.ret = line.length ∧ lineText line ++ [0] <+: n.outLine ++ [0] ∧
          bytes = wire ((frames bytes).take (i + 1)) ++ n.rest.bytes) ∧
      Stops bytes (wire (frames bytes)) stop) ∧
    ∀ e ∈ recvWrites maxLine [] bytes, e.1 < 512 := by
  refine ⟨?_, FramingAux.recvWrites_lt bytes⟩
  obtain ⟨l, more, -, hbytes, h10, hstop, hframes⟩ := FramingAux.exists_stop bytes
  obtain ⟨stop, hlast, hstops⟩ := FramingAux.recvLines_stop (wire (frames bytes)) h10 hstop
  refine ⟨FramingAux.received .closed ([10].intercalate (l :: more)) (frames bytes), stop, ?_, FramingAux.length_received, ?_, ?_⟩
  · rw [← hlast, ← FramingAux.recvLines_wire hframes, ← hbytes]
  · intro i line n hline hn
    obtain ⟨hret, hout, hrest⟩ := FramingAux.getElem?_received hline hn
    refine ⟨hret, ?_, hbytes.trans hrest⟩
    rw [hout]
    exact FramingAux.lineText_prefix line
  · rwa [← hbytes] at hstops

end OsSecurity.Server
