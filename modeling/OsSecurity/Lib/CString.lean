import Mathlib.Data.List.TakeWhile
import Mathlib.Data.List.Basic
import Mathlib.Tactic.Common

/-!
# C strings and char arrays

The part of `<string.h>` and `<ctype.h>` a C program with fixed-size fields rests on, over lists of bytes. A `CString` is what a
`const char *` argument points to, without its terminating NUL; a `CharArray n` is a `char[n]`, whose bytes after the first
NUL are kept. The functions are total: reading past the list yields NUL, which is the terminator of a `CString`.
-/

namespace CLib

/-- The C string that a piece of memory holds: its bytes before the first NUL. -/
def cstr (mem : List UInt8) : List UInt8 := mem.takeWhile (· ≠ 0)

/-- A C string, as the bytes before its terminator. -/
structure CString where
  bytes : List UInt8
  noNul : 0 ∉ bytes
  deriving DecidableEq

/-- A string is its bytes. -/
theorem CString.ext {s t : CString} (h : s.bytes = t.bytes) : s = t := by
  cases s
  cases t
  simpa using h

theorem CString.ext_iff {s t : CString} : s = t ↔ s.bytes = t.bytes :=
  ⟨congrArg CString.bytes, CString.ext⟩

/-- `strlen`. -/
def CString.length (s : CString) : Nat := s.bytes.length

/-! ## The string a memory area holds -/

@[simp] theorem cstr_nil : cstr [] = [] := rfl

@[simp] theorem cstr_zero_cons (l : List UInt8) : cstr (0 :: l) = [] := by simp [cstr]

/-- The string goes on before its terminator. -/
theorem cstr_cons_of_ne {x : UInt8} (hx : x ≠ 0) (l : List UInt8) : cstr (x :: l) = x :: cstr l := by
  simp [cstr, hx]

/-- The terminator is no byte of the string. -/
theorem zero_notMem_cstr (mem : List UInt8) : 0 ∉ cstr mem := by
  intro h
  have := List.mem_takeWhile_imp h
  simp at this

/-- A string without a NUL, followed by a NUL, is the string the memory holds. -/
theorem cstr_append_zero {s : List UInt8} (hs : 0 ∉ s) (l : List UInt8) : cstr (s ++ 0 :: l) = s := by
  induction s with
  | nil => simp
  | cons x s ih =>
    simp only [List.mem_cons, not_or] at hs
    rw [List.cons_append, cstr_cons_of_ne (Ne.symm hs.1), ih hs.2]

/-- Without a terminator all of the memory is the string. -/
theorem cstr_of_noNul {s : List UInt8} (hs : 0 ∉ s) : cstr s = s := by
  rw [cstr, List.takeWhile_eq_self_iff]
  intro x hx
  simp only [ne_eq, decide_eq_true_eq]
  rintro rfl
  exact hs hx

@[simp] theorem cstr_bytes (s : CString) : cstr s.bytes = s.bytes := cstr_of_noNul s.noNul

@[simp] theorem cstr_cstr (mem : List UInt8) : cstr (cstr mem) = cstr mem := cstr_of_noNul (zero_notMem_cstr mem)

/-- The string is no longer than its memory. -/
theorem cstr_length_le (mem : List UInt8) : (cstr mem).length ≤ mem.length :=
  (List.takeWhile_prefix _).length_le

/-- The string a memory area holds, as a C string. -/
def CString.ofMem (mem : List UInt8) : CString := ⟨cstr mem, zero_notMem_cstr mem⟩

@[simp] theorem CString.ofMem_bytes (s : CString) : CString.ofMem s.bytes = s := CString.ext (cstr_bytes s)

/-- The first `n` bytes of a C string. -/
def CString.take (n : Nat) (s : CString) : CString := ⟨s.bytes.take n, fun h => s.noNul (List.mem_of_mem_take h)⟩

/-- A string that fits is not cut. -/
theorem CString.take_of_length_le {n : Nat} {s : CString} (h : s.length ≤ n) : s.take n = s :=
  CString.ext (List.take_of_length_le h)

/-- The ASCII bytes of a literal. -/
def bytes (s : String) : List UInt8 := s.toList.map (fun c => UInt8.ofNat c.toNat)

/-- A literal as a C string. -/
def cstring (s : String) : CString := CString.ofMem (bytes s)

/-! ## Comparison -/

/-- `strncmp`: the difference of the first bytes that differ among the first `n`, zero when a common NUL or the bound comes
first. -/
def strncmp : Nat → List UInt8 → List UInt8 → Int
  | 0, _, _ => 0
  | n + 1, a, b =>
    if a.headD 0 ≠ b.headD 0 then (a.headD 0).toNat - (b.headD 0).toNat
    else if a.headD 0 = 0 then 0
    else strncmp n a.tail b.tail

/-- `strcmp`. -/
def strcmp : List UInt8 → List UInt8 → Int
  | [], b => 0 - (b.headD 0).toNat
  | x :: a, b =>
    if x ≠ b.headD 0 then x.toNat - (b.headD 0).toNat
    else if x = 0 then 0
    else strcmp a b.tail

/-- The difference of two bytes as `strcmp` returns it. -/
theorem toNat_sub_eq_zero_iff (x y : UInt8) : (x.toNat : Int) - y.toNat = 0 ↔ x = y := by
  rw [← UInt8.toNat_inj]
  omega

/-- The first byte a memory area holds, as its string sees it. -/
theorem headD_cstr (a : List UInt8) : (cstr a).headD 0 = a.headD 0 := by
  cases a with
  | nil => rfl
  | cons x a =>
    by_cases hx : x = 0
    · subst hx; simp
    · rw [cstr_cons_of_ne hx]; rfl

/-- A string is empty when its memory begins with the terminator, or is empty. -/
theorem cstr_eq_nil_iff (a : List UInt8) : cstr a = [] ↔ a.headD 0 = 0 := by
  cases a with
  | nil => simp
  | cons x a =>
    by_cases hx : x = 0
    · subst hx; simp
    · simp [cstr_cons_of_ne hx, hx]

/-- The string of an area whose first byte is not NUL is that byte and the string of the rest. -/
theorem cstr_eq_cons {a : List UInt8} (h : a.headD 0 ≠ 0) : cstr a = a.headD 0 :: cstr a.tail := by
  cases a with
  | nil => simp at h
  | cons x a => exact cstr_cons_of_ne (by simpa using h) a

/-- The first byte is among the first `n + 1`. -/
theorem headD_take_succ (n : Nat) (a : List UInt8) : (a.take (n + 1)).headD 0 = a.headD 0 := by
  cases a <;> rfl

/-- Two areas compare equal over `n` bytes exactly when their strings agree on the first `n` bytes. -/
theorem strncmp_eq_zero_iff (n : Nat) (a b : List UInt8) : strncmp n a b = 0 ↔ (cstr a).take n = (cstr b).take n := by
  induction n generalizing a b with
  | zero => simp [strncmp]
  | succ n ih =>
    unfold strncmp
    by_cases hne : a.headD 0 = b.headD 0
    · rw [if_neg (not_not.mpr hne)]
      by_cases h0 : a.headD 0 = 0
      · have hb : b.headD 0 = 0 := hne ▸ h0
        rw [if_pos h0, (cstr_eq_nil_iff a).mpr h0, (cstr_eq_nil_iff b).mpr hb]
        simp
      · have hb : b.headD 0 ≠ 0 := hne ▸ h0
        rw [if_neg h0, ih, cstr_eq_cons h0, cstr_eq_cons hb, hne]
        simp
    · rw [if_pos hne, toNat_sub_eq_zero_iff]
      refine ⟨fun h => absurd h hne, ?_⟩
      intro h
      have hh : ((cstr a).take (n + 1)).headD 0 = ((cstr b).take (n + 1)).headD 0 := by rw [h]
      rw [headD_take_succ, headD_take_succ, headD_cstr, headD_cstr] at hh
      exact hh

/-- Two areas compare equal exactly when they hold the same string. -/
theorem strcmp_eq_zero_iff (a b : List UInt8) : strcmp a b = 0 ↔ cstr a = cstr b := by
  induction a generalizing b with
  | nil =>
    simp only [strcmp, cstr_nil]
    rw [eq_comm (a := ([] : List UInt8)), cstr_eq_nil_iff, ← UInt8.toNat_inj]
    simp only [UInt8.toNat_zero]
    omega
  | cons x a ih =>
    unfold strcmp
    by_cases hne : x = b.headD 0
    · rw [if_neg (not_not.mpr hne)]
      by_cases h0 : x = 0
      · have hb : b.headD 0 = 0 := hne ▸ h0
        rw [if_pos h0, h0, cstr_zero_cons, (cstr_eq_nil_iff b).mpr hb]
        simp
      · have hb : b.headD 0 ≠ 0 := hne ▸ h0
        rw [if_neg h0, ih, cstr_cons_of_ne h0, cstr_eq_cons hb, hne]
        simp
    · rw [if_pos hne, toNat_sub_eq_zero_iff]
      refine ⟨fun h => absurd h hne, ?_⟩
      intro h
      have hh : (cstr (x :: a)).headD 0 = (cstr b).headD 0 := by rw [h]
      rw [headD_cstr, headD_cstr] at hh
      exact hh

@[simp] theorem strcmp_self (a : List UInt8) : strcmp a a = 0 := (strcmp_eq_zero_iff a a).mpr rfl

/-! ## Char arrays -/

/-- A `char[n]`: its `n` bytes. -/
structure CharArray (n : Nat) where
  bytes : List UInt8
  size : bytes.length = n
  deriving DecidableEq

namespace CharArray

variable {k : Nat}

/-- An array is its bytes. -/
theorem ext {a b : CharArray k} (h : a.bytes = b.bytes) : a = b := by
  cases a
  cases b
  simpa using h

/-- The array `memset` to zero. -/
def zero (k : Nat) : CharArray k := ⟨List.replicate k 0, List.length_replicate⟩

/-- The string an array holds. -/
def str (a : CharArray k) : CString := CString.ofMem a.bytes

/-- `strncpy(dst, src, n)` into an array of at least `n` bytes: the first `n` bytes of the string, NULs up to `n`, and the
rest of the array as it was. -/
def strncpy (dst : CharArray k) (src : CString) (n : Nat) (h : n ≤ k) : CharArray k :=
  ⟨src.bytes.take n ++ List.replicate (n - src.length) 0 ++ dst.bytes.drop n, by
    simp only [List.length_append, List.length_take, List.length_replicate, List.length_drop, dst.size, CString.length]
    omega⟩

/-- `a[i] = x`. -/
def set (a : CharArray k) (i : Nat) (x : UInt8) : CharArray k := ⟨a.bytes.set i x, by simp [a.size]⟩

/-- An array with a terminator put into it. -/
theorem zero_mem_set (a : CharArray k) (i : Nat) (h : i < k) : 0 ∈ (a.set i 0).bytes :=
  List.mem_set (by rwa [a.size]) 0

/-- A copy of at most `n < k` bytes into an array that holds a NUL at `n` leaves the string cut to `n` bytes. -/
theorem strncpy_str {dst : CharArray k} {src : CString} {n : Nat} (h : n ≤ k) (hz : (dst.bytes.drop n).headD 0 = 0) :
    (dst.strncpy src n h).str = src.take n := by
  apply CString.ext
  simp only [str, CString.ofMem, strncpy, CString.take]
  have hs : 0 ∉ src.bytes.take n := fun hm => src.noNul (List.mem_of_mem_take hm)
  rcases Nat.lt_or_ge src.length n with hlt | hge
  · obtain ⟨d, hd⟩ : ∃ d, n - src.length = d + 1 := ⟨n - src.length - 1, by omega⟩
    rw [hd, List.replicate_succ, List.append_assoc, List.cons_append, cstr_append_zero hs]
  · rw [Nat.sub_eq_zero_of_le hge, List.replicate_zero, List.append_nil]
    cases hd : dst.bytes.drop n with
    | nil => rw [List.append_nil, cstr_of_noNul hs]
    | cons x l =>
      rw [hd] at hz
      have hx : x = 0 := by simpa using hz
      rw [hx, cstr_append_zero hs]

/-- The bytes of a zeroed array from `n` on are zero. -/
theorem zero_drop_headD (k n : Nat) : ((zero k).bytes.drop n).headD 0 = 0 := by
  simp only [zero, List.drop_replicate]
  cases k - n <;> simp [List.replicate_succ]

/-- A `memset` array filled by `strncpy` holds the string, cut to the bound. -/
@[simp] theorem zero_strncpy_str (src : CString) (n : Nat) (h : n ≤ k) :
    ((zero k).strncpy src n h).str = src.take n :=
  strncpy_str h (zero_drop_headD k n)

/-- `strncpy` up to the last byte and a NUL there leave the string, cut to the bound. -/
theorem strncpy_set_str (dst : CharArray (k + 1)) (src : CString) :
    ((dst.strncpy src k (Nat.le_succ k)).set k 0).str = src.take k := by
  have hlen : (src.bytes.take k ++ List.replicate (k - src.length) 0).length = k := by
    simp only [List.length_append, List.length_take, List.length_replicate, CString.length]
    omega
  obtain ⟨z, hz⟩ : ∃ z, dst.bytes.drop k = [z] := by
    rw [← List.length_eq_one_iff, List.length_drop, dst.size]
    omega
  have hb : ((dst.strncpy src k (Nat.le_succ k)).set k 0).bytes =
      (((zero (k + 1)).strncpy src k (Nat.le_succ k))).bytes := by
    have hdz : (zero (k + 1)).bytes.drop k = [0] := by
      simp only [zero, List.drop_replicate, Nat.add_sub_cancel_left, List.replicate_one]
    simp only [set, strncpy, hz, hdz]
    rw [List.set_append_right k 0 (by omega), hlen, Nat.sub_self, List.set_cons_zero]
  rw [str, hb]
  exact zero_strncpy_str src k (Nat.le_succ k)

end CharArray

end CLib
