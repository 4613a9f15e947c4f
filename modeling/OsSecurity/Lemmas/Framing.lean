import OsSecurity.Server.Client

/-!
# Helpers about lines: what `recv_line` makes of a stream

Up to the newline the loop only moves bytes from the stream to its buffer. So a call gives the first line of the stream, or stops
where the buffer is full or the stream ends; and the calls on a stream give its lines one after the other.
-/

namespace OsSecurity.Server

open CLib

/-- The text of a line: without one carriage return behind it. -/
def lineText (line : List UInt8) : List UInt8 := if line.getLast? = some 13 then line.dropLast else line

/-- A line that `recv_line` gives with a length: not empty, and the newline comes before the buffer is full. -/
def isFrame (line : List UInt8) : Bool := line ≠ [] && line.length < maxLine - 1

/-- The lines of a stream up to the first that is no frame; what is behind the last newline is none of them. -/
def frames (bytes : List UInt8) : List (List UInt8) := (bytes.splitOn 10).dropLast.takeWhile isFrame

/-- Lines as bytes, each with a newline behind it. -/
def wire (lines : List (List UInt8)) : List UInt8 := lines.flatMap (fun line => line ++ [10])

namespace FramingAux

variable {maxLen : Nat} {ending : Ending} {outLine line w rest : List UInt8} {n : Received}

/-! ## One call -/

/-- What is left in `out_line` of a line. -/
def cutReturn (line : List UInt8) : List UInt8 :=
  if 0 < line.length ∧ line.getD (line.length - 1) 0 = 13 then line.set (line.length - 1) 0 else line

theorem cutReturn_of_ne (h13 : line.getLast? ≠ some 13) : cutReturn line = line := by
  unfold cutReturn
  rw [if_neg]
  rintro ⟨hpos, hlast⟩
  refine h13 ?_
  rw [List.getD_eq_getElem?_getD, List.getElem?_eq_getElem (Nat.sub_one_lt_of_lt hpos), Option.getD_some] at hlast
  rw [List.getLast?_eq_getElem?, List.getElem?_eq_getElem (Nat.sub_one_lt_of_lt hpos), hlast]

theorem recvLoop_append (h10 : 10 ∉ w) (hlen : (outLine ++ w).length ≤ maxLen - 1) :
    recvLoop maxLen ending outLine (w ++ rest) = recvLoop maxLen ending (outLine ++ w) rest := by
  induction w generalizing outLine with
  | nil => rw [List.nil_append, List.append_nil]
  | cons c w ih =>
    have hc : c ≠ 10 := fun h => h10 (h ▸ List.mem_cons_self)
    have hlt : outLine.length < maxLen - 1 := by
      rw [List.length_append, List.length_cons] at hlen
      omega
    rw [List.append_cons outLine c w] at hlen ⊢
    rw [List.cons_append, recvLoop, if_pos hlt, if_neg hc]
    exact ih (fun h => h10 (List.mem_cons_of_mem c h)) hlen

/-- A line that fits. -/
theorem recvLine_line (h10 : 10 ∉ line) (hlen : line.length < maxLen - 1) :
    recvLine maxLen ⟨line ++ 10 :: rest, ending⟩ = some ⟨line.length, cutReturn line, ⟨rest, ending⟩⟩ := by
  rw [recvLine, recvLoop_append h10 (Nat.le_of_lt hlen), List.nil_append, recvLoop, if_pos hlen, if_pos rfl]
  rfl

/-- The buffer is full before a newline comes. -/
theorem recvLine_long (h10 : 10 ∉ w) (hlen : w.length = maxLen - 1) :
    recvLine maxLen ⟨w ++ rest, ending⟩ = some ⟨-1, w, ⟨rest, ending⟩⟩ := by
  have hfull : ¬ w.length < maxLen - 1 := by omega
  rw [recvLine, recvLoop_append h10 (show w.length ≤ maxLen - 1 from Nat.le_of_eq hlen), List.nil_append]
  cases rest with
  | nil =>
    unfold recvLoop
    rw [if_neg hfull]
  | cons c rest => rw [recvLoop, if_neg hfull]

/-- The stream ends before a newline comes. -/
theorem recvLine_end (h10 : 10 ∉ w) (hlen : w.length < maxLen - 1) :
    recvLine maxLen ⟨w, ending⟩ =
      match ending with
      | .closed => some ⟨0, w, ⟨[], ending⟩⟩
      | .error => some ⟨-1, w, ⟨[], ending⟩⟩
      | .waiting => none := by
  have h : recvLoop maxLen ending [] (w ++ []) = recvLoop maxLen ending ([] ++ w) [] := recvLoop_append h10 (Nat.le_of_lt hlen)
  rw [List.append_nil, List.nil_append] at h
  rw [recvLine, h]
  unfold recvLoop
  cases ending <;> exact if_pos hlen

/-- What is left of the stream behind a line. -/
theorem recvLoop_shorter {bytes : List UInt8} (h : recvLoop maxLen ending outLine bytes = some n) (hpos : 0 < n.ret) :
    n.rest.bytes.length < bytes.length := by
  induction bytes generalizing outLine with
  | nil =>
    unfold recvLoop at h
    split at h
    · cases ending <;> cases h <;> simp at hpos
    · cases h
      simp at hpos
  | cons c bytes ih =>
    rw [recvLoop] at h
    split at h
    · split at h
      · cases h
        exact Nat.lt_succ_self _
      · exact Nat.lt_succ_of_lt (ih h)
    · cases h
      simp at hpos

end FramingAux

/-- What the calls of `recv_line` on a stream return, up to the first that returns 0 or a negative value. -/
def recvLines (maxLen : Nat) (s : Stream) : List Received :=
  match _h : recvLine maxLen s with
  | none => []
  | some n => if _hpos : 0 < n.ret then n :: recvLines maxLen n.rest else [n]
termination_by s.bytes.length
decreasing_by exact FramingAux.recvLoop_shorter _h _hpos

namespace FramingAux

variable {maxLen : Nat} {ending : Ending} {line rest bytes : List UInt8} {lines : List (List UInt8)} {n : Received}

/-! ## All calls -/

theorem recvLines_of_pos {s : Stream} (h : recvLine maxLen s = some n) (hpos : 0 < n.ret) :
    recvLines maxLen s = n :: recvLines maxLen n.rest := by
  rw [recvLines]
  split
  · rename_i hnone
    rw [h] at hnone
    nomatch hnone
  · rename_i m hm
    obtain rfl := Option.some.inj (h.symm.trans hm)
    rw [dif_pos hpos]

theorem recvLines_of_not_pos {s : Stream} (h : recvLine maxLen s = some n) (hpos : ¬ 0 < n.ret) :
    recvLines maxLen s = [n] := by
  rw [recvLines]
  split
  · rename_i hnone
    rw [h] at hnone
    nomatch hnone
  · rename_i m hm
    obtain rfl := Option.some.inj (h.symm.trans hm)
    rw [dif_neg hpos]

/-- What the calls give of lines that fit, with `rest` behind them. -/
def received (ending : Ending) (rest : List UInt8) : List (List UInt8) → List Received
  | [] => []
  | line :: lines => ⟨line.length, cutReturn line, ⟨wire lines ++ rest, ending⟩⟩ :: received ending rest lines

theorem wire_cons (line : List UInt8) (lines : List (List UInt8)) : wire (line :: lines) = line ++ 10 :: wire lines := by
  rw [wire, List.flatMap_cons, List.append_assoc]
  rfl

theorem recvLines_wire (hlines : ∀ l ∈ lines, l ≠ [] ∧ 10 ∉ l ∧ l.length < maxLen - 1) :
    recvLines maxLen ⟨wire lines ++ rest, ending⟩ = received ending rest lines ++ recvLines maxLen ⟨rest, ending⟩ := by
  induction lines with
  | nil => rfl
  | cons l lines ih =>
    obtain ⟨hne, h10, hlen⟩ := hlines l List.mem_cons_self
    have hpos : (0 : Int) < l.length := Int.natCast_pos.mpr (List.length_pos_iff.mpr hne)
    rw [wire_cons, List.append_assoc, List.cons_append, recvLines_of_pos (recvLine_line h10 hlen) hpos,
      ih (fun l' hl' => hlines l' (List.mem_cons_of_mem l hl'))]
    rfl

theorem length_received : (received ending rest lines).length = lines.length := by
  induction lines with
  | nil => rfl
  | cons l lines ih => rw [received, List.length_cons, ih, List.length_cons]

/-- The call that gives a line. -/
theorem getElem?_received {i : Nat} (hline : lines[i]? = some line) (hn : (received ending rest lines)[i]? = some n) :
    n.ret = line.length ∧ n.outLine = cutReturn line ∧ wire lines ++ rest = wire (lines.take (i + 1)) ++ n.rest.bytes := by
  induction lines generalizing i with
  | nil => nomatch hline
  | cons l lines ih =>
    cases i with
    | zero =>
      obtain rfl := Option.some.inj hline
      obtain rfl := Option.some.inj hn
      refine ⟨rfl, rfl, ?_⟩
      rw [wire_cons, List.take_succ_cons, List.take_zero, wire_cons, List.append_assoc, List.append_assoc]
      rfl
    | succ i =>
      obtain ⟨hret, hout, hrest⟩ := ih hline hn
      refine ⟨hret, hout, ?_⟩
      rw [List.take_succ_cons, wire_cons, wire_cons, List.append_assoc, List.append_assoc, List.cons_append, List.cons_append, hrest]

/-- What is left in `out_line` begins with the text of the line and a NUL. -/
theorem lineText_prefix (line : List UInt8) : lineText line ++ [0] <+: cutReturn line ++ [0] := by
  rcases List.eq_nil_or_concat line with rfl | ⟨l, c, rfl⟩
  · exact List.prefix_refl _
  · rw [List.concat_eq_append]
    have hlast : (l ++ [c]).getD ((l ++ [c]).length - 1) 0 = c := by simp
    have hpos : 0 < (l ++ [c]).length := by simp
    unfold lineText cutReturn
    rw [hlast, List.getLast?_concat]
    by_cases hc : c = 13
    · rw [if_pos (congrArg some hc), if_pos ⟨hpos, hc⟩, List.dropLast_concat]
      have hset : (l ++ [c]).set ((l ++ [c]).length - 1) 0 = l ++ [0] := by simp
      rw [hset]
      exact List.prefix_append _ _
    · rw [if_neg (fun h => hc (Option.some.inj h)), if_neg (fun h => hc h.2)]

/-! ## The lines of a stream -/

theorem notMem_of_mem_splitOn {bytes : List UInt8} (h : line ∈ bytes.splitOn 10) : 10 ∉ line := by
  induction bytes generalizing line with
  | nil =>
    rw [List.splitOn_nil, List.mem_singleton] at h
    subst h
    exact List.not_mem_nil
  | cons c bytes ih =>
    rw [List.splitOn_cons_eq_if_modifyHead] at h
    by_cases hc : c = 10
    · rw [if_pos (beq_iff_eq.mpr hc)] at h
      rcases List.mem_cons.mp h with rfl | h
      · exact List.not_mem_nil
      · exact ih h
    · rw [if_neg (fun h => hc (beq_iff_eq.mp h))] at h
      obtain ⟨l, more, hsplit⟩ := List.exists_cons_of_ne_nil (List.splitOn_ne_nil (10 : UInt8) bytes)
      rw [hsplit, List.modifyHead_cons] at h
      rcases List.mem_cons.mp h with rfl | h
      · intro hmem
        rcases List.mem_cons.mp hmem with heq | hmem
        · exact hc heq.symm
        · exact ih (hsplit ▸ List.mem_cons_self) hmem
      · exact ih (hsplit ▸ List.mem_cons_of_mem l h)

theorem intercalate_append (lines : List (List UInt8)) (l : List UInt8) (more : List (List UInt8)) :
    [10].intercalate (lines ++ l :: more) = wire lines ++ [10].intercalate (l :: more) := by
  induction lines with
  | nil => rfl
  | cons x lines ih =>
    have hne : lines ++ l :: more ≠ [] := List.append_ne_nil_of_right_ne_nil _ (List.cons_ne_nil _ _)
    rw [List.cons_append, List.intercalate_cons_of_ne_nil hne, ih, wire_cons, List.append_assoc, List.append_assoc]
    rfl

/-- A list as the front that satisfies a predicate, the element behind it and the rest. -/
theorem takeWhile_dropLast {α : Type} (p : α → Bool) {L : List α} (h : L ≠ []) :
    ∃ l more, L = L.dropLast.takeWhile p ++ l :: more ∧ (more = [] ∨ p l = false) := by
  induction L with
  | nil => exact absurd rfl h
  | cons x L ih =>
    rcases List.eq_nil_or_concat L with rfl | ⟨K, y, rfl⟩
    · exact ⟨x, [], rfl, .inl rfl⟩
    · rw [List.concat_eq_append] at ih ⊢
      obtain ⟨l, more, hL, hstop⟩ := ih (List.append_ne_nil_of_right_ne_nil _ (List.cons_ne_nil _ _))
      rw [List.dropLast_concat] at hL
      rw [← List.cons_append, List.dropLast_concat, List.takeWhile_cons]
      cases hx : p x with
      | true =>
        refine ⟨l, more, ?_, hstop⟩
        rw [if_pos rfl, List.cons_append, List.cons_append, ← hL]
      | false => exact ⟨x, K ++ [y], rfl, .inr hx⟩

/-- A stream as its frames and what stops them. -/
theorem exists_stop (bytes : List UInt8) :
    ∃ l more, bytes.splitOn 10 = frames bytes ++ l :: more ∧ bytes = wire (frames bytes) ++ [10].intercalate (l :: more) ∧
      10 ∉ l ∧ (more = [] ∨ isFrame l = false) ∧ ∀ x ∈ frames bytes, x ≠ [] ∧ 10 ∉ x ∧ x.length < maxLine - 1 := by
  obtain ⟨l, more, hsplit, hstop⟩ := takeWhile_dropLast isFrame (List.splitOn_ne_nil (10 : UInt8) bytes)
  have hbytes : bytes = [10].intercalate (frames bytes ++ l :: more) := by
    rw [frames, ← hsplit, List.intercalate_splitOn]
  refine ⟨l, more, hsplit, ?_, ?_, hstop, ?_⟩
  · rw [← intercalate_append]
    exact hbytes
  · exact notMem_of_mem_splitOn (hsplit ▸ List.mem_append_right _ List.mem_cons_self)
  · intro x hx
    have hframe : isFrame x = true := List.mem_takeWhile_imp hx
    rw [isFrame, Bool.and_eq_true, decide_eq_true_eq, decide_eq_true_eq] at hframe
    exact ⟨hframe.1, notMem_of_mem_splitOn (hsplit ▸ List.mem_append_left _ hx), hframe.2⟩

theorem lineText_of_ne (h13 : line.getLast? ≠ some 13) : lineText line = line := if_neg h13

/-- The string in `out_line` is that of the text. -/
theorem ofMem_cutReturn (line : List UInt8) : CString.ofMem (cutReturn line) = CString.ofMem (lineText line) := by
  refine CString.ext ?_
  have hzero : ∀ l : List UInt8, cstr (l ++ [0]) = cstr l := by
    intro l
    by_cases hl : 0 ∈ l
    · obtain ⟨a, b, rfl, ha⟩ := List.eq_append_cons_of_mem hl
      rw [List.append_assoc, List.cons_append, cstr_append_zero ha, cstr_append_zero ha]
    · rw [cstr_append_zero hl, cstr_of_noNul hl]
  by_cases h13 : line.getLast? = some 13
  · obtain ⟨l, rfl⟩ := List.getLast?_eq_some_iff.mp h13
    have hcut : cutReturn (l ++ [13]) = l ++ [0] := by simp [cutReturn]
    have htext : lineText (l ++ [13]) = l := by simp [lineText]
    rw [hcut, htext]
    exact hzero l
  · rw [lineText_of_ne h13, cutReturn_of_ne h13]

end FramingAux

end OsSecurity.Server
