import OsSecurity.Lib.CString
import Mathlib.Data.List.GetD

/-!
# Lines of `<stdio.h>`

`fgets` on a stream of bytes that ends: what it puts into its buffer before the NUL, and what is left of the stream. `snprintf` into a
memory area, and the value that it returns.
-/

namespace CLib

/-- At most `n` bytes of a stream, up to the first newline, that one included. -/
def readUntilNewline : Nat → List UInt8 → List UInt8 × List UInt8
  | 0, stream => ([], stream)
  | _ + 1, [] => ([], [])
  | n + 1, c :: stream =>
    if c = 10 then ([c], stream)
    else
      let (buf, rest) := readUntilNewline n stream
      (c :: buf, rest)

/-- `fgets`, with a buffer of `size` bytes. -/
def fgets (size : Nat) (stream : List UInt8) : Option (List UInt8 × List UInt8) :=
  if stream = [] then none else some (readUntilNewline (size - 1) stream)

/-- Bytes written over those at the place `i` of a memory area. -/
def overwrite (mem : List UInt8) (i : Nat) (bs : List UInt8) : List UInt8 := mem.take i ++ bs ++ mem.drop (i + bs.length)

/-- `snprintf` to the place `i` of a memory area, with the bound `size` and a format that gives `text`, of at most `INT_MAX` bytes: the
area behind the call, and the value returned. -/
def snprintf (mem : List UInt8) (i size : Nat) (text : List UInt8) : List UInt8 × Int :=
  (if size = 0 then mem else overwrite mem i (text.take (size - 1) ++ [0]), text.length)

/-! ## Writing into a memory area -/

/-- Bytes written at the beginning. -/
theorem overwrite_zero (mem bs : List UInt8) : overwrite mem 0 bs = bs ++ mem.drop bs.length := by
  rw [overwrite, List.take_zero, List.nil_append, Nat.zero_add]

/-- What is in front of the written bytes stays. -/
theorem overwrite_left (s mem bs : List UInt8) : overwrite (s ++ mem) s.length bs = s ++ overwrite mem 0 bs := by
  rw [overwrite, List.take_left, List.drop_length_add_append, overwrite_zero, List.append_assoc]

/-- A string that is written over the NUL behind another one. -/
theorem overwrite_append (mem s : List UInt8) {bs : List UInt8} (hbs : bs ≠ []) :
    overwrite (overwrite mem 0 (s ++ [0])) s.length bs = overwrite mem 0 (s ++ bs) := by
  obtain ⟨b, bs, rfl⟩ := List.exists_cons_of_ne_nil hbs
  have hlen : (s ++ [0]).length + bs.length = (s ++ b :: bs).length := by
    simp only [List.length_append, List.length_cons, List.length_nil]
    omega
  rw [overwrite_zero, List.append_assoc, overwrite_left, overwrite_zero, overwrite_zero, List.singleton_append, List.length_cons,
    List.drop_succ_cons, List.drop_drop, hlen, List.append_assoc]

/-- A string and a NUL that are written within the string of an area, or right behind it. -/
theorem cstr_overwrite {mem s : List UInt8} {i : Nat} (hi : i ≤ (cstr mem).length) (hs : 0 ∉ s) :
    cstr (overwrite mem i (s ++ [0])) = (cstr mem).take i ++ s := by
  have hstr : mem.take (cstr mem).length = cstr mem := (List.prefix_iff_eq_take.mp (List.takeWhile_prefix _)).symm
  have hfront : mem.take i = (cstr mem).take i := by
    calc mem.take i
        = (mem.take (cstr mem).length).take i := by rw [List.take_take, Nat.min_eq_left hi]
      _ = (cstr mem).take i := by rw [hstr]
  have hnone : 0 ∉ (cstr mem).take i ++ s := by
    rw [List.mem_append, not_or]
    exact ⟨fun h => zero_notMem_cstr mem (List.mem_of_mem_take h), hs⟩
  rw [overwrite, hfront, ← List.append_assoc, List.append_assoc _ [0]]
  exact cstr_append_zero hnone _

/-- The area keeps its length, and its bytes behind those written. -/
theorem length_overwrite {mem bs : List UInt8} {i : Nat} (h : i + bs.length ≤ mem.length) :
    (overwrite mem i bs).length = mem.length := by
  simp only [overwrite, List.length_append, List.length_take, List.length_drop]
  omega

/-- What is behind the written bytes stays. -/
theorem drop_overwrite {mem bs : List UInt8} {i n : Nat} (hi : i ≤ mem.length) (h : i + bs.length ≤ n) :
    (overwrite mem i bs).drop n = mem.drop n := by
  obtain ⟨k, rfl⟩ := Nat.exists_eq_add_of_le h
  have hlen : (mem.take i ++ bs).length = i + bs.length := by rw [List.length_append, List.length_take_of_le hi]
  rw [overwrite, ← hlen, List.drop_length_add_append, List.drop_drop]

/-! ## Lines of a stream -/

/-- The first line of a stream, without its newline. -/
def lineOf (stream : List UInt8) : List UInt8 := stream.takeWhile (· ≠ 10)

/-- The stream behind its first line. -/
def dropLine (stream : List UInt8) : List UInt8 := (stream.dropWhile (· ≠ 10)).tail

@[simp] theorem lineOf_nil : lineOf [] = [] := rfl

@[simp] theorem dropLine_nil : dropLine [] = [] := rfl

/-- A newline ends an empty line. -/
theorem lineOf_newline (stream : List UInt8) : lineOf (10 :: stream) = [] := by simp [lineOf]

/-- The newline is taken with the line. -/
theorem dropLine_newline (stream : List UInt8) : dropLine (10 :: stream) = stream := by simp [dropLine]

/-- Any other byte is of the line. -/
theorem lineOf_cons {c : UInt8} (hc : c ≠ 10) (stream : List UInt8) : lineOf (c :: stream) = c :: lineOf stream := by
  simp [lineOf, hc]

theorem dropLine_cons {c : UInt8} (hc : c ≠ 10) (stream : List UInt8) : dropLine (c :: stream) = dropLine stream := by
  simp [dropLine, hc]

/-- A line holds no newline. -/
theorem newline_notMem_lineOf (stream : List UInt8) : 10 ∉ lineOf stream := by
  intro h
  have hne := List.mem_takeWhile_imp h
  simp at hne

/-- A line that fits is read whole, with its newline if there is one. -/
theorem readUntilNewline_of_lt {n : Nat} {stream : List UInt8} (h : (lineOf stream).length < n) :
    readUntilNewline n stream = (if 10 ∈ stream then lineOf stream ++ [10] else lineOf stream, dropLine stream) := by
  induction n generalizing stream with
  | zero => exact absurd h (Nat.not_lt_zero _)
  | succ n ih =>
    cases stream with
    | nil => rfl
    | cons c stream =>
      rw [readUntilNewline]
      by_cases hc : c = 10
      · subst hc
        rw [if_pos rfl, if_pos List.mem_cons_self, lineOf_newline, dropLine_newline]
        rfl
      · rw [lineOf_cons hc, List.length_cons] at h
        have hmem : 10 ∈ c :: stream ↔ 10 ∈ stream := by
          rw [List.mem_cons, or_iff_right (Ne.symm hc)]
        rw [if_neg hc, ih (Nat.lt_of_succ_lt_succ h), lineOf_cons hc, dropLine_cons hc]
        by_cases hten : 10 ∈ stream
        · rw [if_pos hten, if_pos (hmem.mpr hten)]
          rfl
        · rw [if_neg hten, if_neg (fun h => hten (hmem.mp h))]

/-- A line that does not fit is read up to the bound. -/
theorem readUntilNewline_of_le {n : Nat} {stream : List UInt8} (h : n ≤ (lineOf stream).length) :
    readUntilNewline n stream = ((lineOf stream).take n, stream.drop n) := by
  induction n generalizing stream with
  | zero => rfl
  | succ n ih =>
    cases stream with
    | nil => exact absurd h (Nat.not_succ_le_zero n)
    | cons c stream =>
      rw [readUntilNewline]
      by_cases hc : c = 10
      · subst hc
        rw [lineOf_newline] at h
        exact absurd h (Nat.not_succ_le_zero n)
      · rw [lineOf_cons hc, List.length_cons] at h
        rw [if_neg hc, ih (Nat.le_of_succ_le_succ h), lineOf_cons hc]
        rfl

/-- The stream behind a line that was read whole is shorter, and so is what is left of one that was not. -/
theorem dropLine_length_lt {stream : List UInt8} (h : stream ≠ []) : (dropLine stream).length < stream.length := by
  induction stream with
  | nil => exact absurd rfl h
  | cons c stream ih =>
    by_cases hc : c = 10
    · subst hc
      rw [dropLine_newline, List.length_cons]
      exact Nat.lt_succ_self _
    · rw [dropLine_cons hc, List.length_cons]
      by_cases hnil : stream = []
      · subst hnil
        exact Nat.succ_pos _
      · exact Nat.lt_succ_of_lt (ih hnil)

/-- The rest of a stream behind the first `n` bytes of its line is the stream behind the line where the stream ends there. -/
theorem drop_eq_dropLine_iff {n : Nat} {stream : List UInt8} (h : n ≤ (lineOf stream).length) :
    stream.drop n = dropLine stream ↔ 10 ∉ stream ∧ stream.length ≤ n := by
  induction n generalizing stream with
  | zero =>
    rw [List.drop_zero]
    constructor
    · intro heq
      have hnil : stream = [] := by
        by_contra hne
        have hlt := dropLine_length_lt hne
        rw [← heq] at hlt
        exact absurd hlt (Nat.lt_irrefl _)
      rw [hnil]
      exact ⟨List.not_mem_nil, Nat.le_refl 0⟩
    · rintro ⟨-, hlen⟩
      rw [List.length_eq_zero_iff.mp (Nat.le_zero.mp hlen)]
      rfl
  | succ n ih =>
    cases stream with
    | nil => exact absurd h (Nat.not_succ_le_zero n)
    | cons c stream =>
      by_cases hc : c = 10
      · subst hc
        rw [lineOf_newline] at h
        exact absurd h (Nat.not_succ_le_zero n)
      · rw [lineOf_cons hc, List.length_cons] at h
        rw [List.drop_succ_cons, dropLine_cons hc, ih (Nat.le_of_succ_le_succ h), List.mem_cons, not_or, List.length_cons]
        exact and_congr (and_iff_right (Ne.symm hc)).symm Nat.succ_le_succ_iff.symm

/-! ## A line without its newline -/

/-- The buffer after the newline at the end of its string is overwritten. -/
def chomp (buf : List UInt8) : List UInt8 :=
  if 0 < (CString.ofMem buf).length ∧ buf.getD ((CString.ofMem buf).length - 1) 0 = 10 then buf.set ((CString.ofMem buf).length - 1) 0
  else buf

/-- Without a newline there is nothing to strip. -/
theorem chomp_of_notMem {buf : List UInt8} (h : 10 ∉ buf) : chomp buf = buf := by
  rw [chomp, if_neg]
  rintro ⟨hpos, hten⟩
  have hlt : (CString.ofMem buf).length - 1 < buf.length :=
    Nat.lt_of_lt_of_le (Nat.sub_one_lt_of_lt hpos) (cstr_length_le buf)
  rw [List.getD_eq_getElem _ _ hlt] at hten
  exact h (hten ▸ List.getElem_mem hlt)

/-- The string of a line without its newline; a NUL in the line ends it earlier. -/
theorem cstr_chomp_line {line : List UInt8} (h : 10 ∉ line) : cstr (chomp (line ++ [10])) = cstr line := by
  by_cases hzero : 0 ∈ line
  · obtain ⟨a, b, rfl, ha⟩ := List.eq_append_cons_of_mem hzero
    have hstr : cstr (a ++ 0 :: b ++ [10]) = a := by
      rw [List.append_assoc, List.cons_append]
      exact cstr_append_zero ha _
    have hlast : chomp (a ++ 0 :: b ++ [10]) = a ++ 0 :: b ++ [10] := by
      rw [chomp, if_neg]
      rintro ⟨hpos, hten⟩
      have hlen : (CString.ofMem (a ++ 0 :: b ++ [10])).length = a.length := congrArg List.length hstr
      rw [hlen] at hpos hten
      have hlt : a.length - 1 < a.length := Nat.sub_one_lt_of_lt hpos
      rw [List.append_assoc, List.getD_append _ _ _ _ hlt, List.getD_eq_getElem _ _ hlt] at hten
      exact h (List.mem_append_left _ (hten ▸ List.getElem_mem hlt))
    rw [hlast, hstr, cstr_append_zero ha]
  · have hnone : 0 ∉ line ++ [10] := by
      rw [List.mem_append, List.mem_singleton, not_or]
      exact ⟨hzero, by decide⟩
    have hlen : (CString.ofMem (line ++ [10])).length = line.length + 1 :=
      (congrArg List.length (cstr_of_noNul hnone)).trans List.length_append
    have hset : chomp (line ++ [10]) = line ++ [0] := by
      rw [chomp, hlen, if_pos ⟨Nat.succ_pos _, by simp⟩]
      simp
    rw [hset, cstr_append_zero hzero, cstr_of_noNul hzero]

/-- The string of what is read, without its newline, is the first line cut to the bound. -/
theorem cstr_chomp_read (n : Nat) (stream : List UInt8) :
    cstr (chomp (readUntilNewline n stream).1) = cstr ((lineOf stream).take n) := by
  rcases Nat.lt_or_ge (lineOf stream).length n with hlt | hge
  · rw [readUntilNewline_of_lt hlt, List.take_of_length_le (Nat.le_of_lt hlt)]
    by_cases hten : 10 ∈ stream
    · rw [if_pos hten]
      exact cstr_chomp_line (newline_notMem_lineOf stream)
    · rw [if_neg hten, chomp_of_notMem (newline_notMem_lineOf stream)]
  · rw [readUntilNewline_of_le hge, chomp_of_notMem (fun h => newline_notMem_lineOf stream (List.mem_of_mem_take h))]

end CLib
