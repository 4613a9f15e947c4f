import OsSecurity.Lib.CString

/-!
# `sscanf`

The conversions of `<stdio.h>` for words and rests of lines, on the bytes of a C string. A conversion takes what it converts
from the front and leaves the rest; one that takes nothing fails.
-/

namespace CLib

/-- `isspace` in the C locale. -/
def isSpace (c : UInt8) : Bool := (9 ≤ c && c ≤ 13) || c == 32

/-- `isprint` in the C locale. -/
def isPrint (c : UInt8) : Bool := 32 ≤ c && c ≤ 126

/-- `isgraph` in the C locale. -/
def isGraph (c : UInt8) : Bool := 33 ≤ c && c ≤ 126

/-- White space in a format: it skips any white space. -/
def skipSpace (s : List UInt8) : List UInt8 := s.dropWhile isSpace

/-- The longest front of at most `n` bytes that satisfy a predicate, and the rest. -/
def scanWhile (p : UInt8 → Bool) (n : Nat) (s : List UInt8) : Option (CString × List UInt8) :=
  let word := (s.take n).takeWhile p
  if word = [] then none else some (CString.ofMem word, s.drop word.length)

/-- The conversion `%<n>s`. -/
def scanWord (n : Nat) (s : List UInt8) : Option (CString × List UInt8) := scanWhile (fun c => !isSpace c) n (skipSpace s)

/-- The conversion `%<n>[^\n]`. -/
def scanLine (n : Nat) (s : List UInt8) : Option (CString × List UInt8) := scanWhile (fun c => c ≠ 10) n s

/-! ## What the conversions take -/

/-- White space is not behind the blank. -/
theorem isSpace_of_lt {c : UInt8} (h : 32 < c) : isSpace c = false := by
  rw [UInt8.lt_iff_toNat_lt] at h
  have h13 : ¬ c ≤ 13 := fun hle => absurd (UInt8.le_iff_toNat_le.mp hle) (Nat.not_le.mpr (Nat.lt_trans (by decide) h))
  have h32 : ¬ c = 32 := fun heq => by subst heq; exact absurd h (by decide)
  simp [isSpace, h13, h32]

theorem isSpace_of_isGraph {c : UInt8} (h : isGraph c = true) : isSpace c = false := by
  rw [isGraph, Bool.and_eq_true, decide_eq_true_eq] at h
  exact isSpace_of_lt (UInt8.lt_of_lt_of_le (by decide) h.1)

/-- A byte of another class than those of a list is not in it. -/
theorem notMem_of_forall {p : UInt8 → Bool} {b : Bool} {s : List UInt8} {c : UInt8} (h : ∀ x ∈ s, p x = b) (hc : p c = !b) :
    c ∉ s := by
  intro hmem
  rw [h c hmem] at hc
  cases b <;> cases hc

/-- White space is skipped up to a byte that is none. -/
theorem skipSpace_cons_of_not {c : UInt8} (h : isSpace c = false) (s : List UInt8) : skipSpace (c :: s) = c :: s := by
  rw [skipSpace, List.dropWhile_cons, h]
  rfl

theorem skipSpace_append {w : List UInt8} (hw : w ≠ []) (h : ∀ c ∈ w, isSpace c = false) (s : List UInt8) :
    skipSpace (w ++ s) = w ++ s := by
  cases w with
  | nil => exact absurd rfl hw
  | cons c w => exact skipSpace_cons_of_not (h c List.mem_cons_self) _

@[simp] theorem skipSpace_space (s : List UInt8) : skipSpace (32 :: s) = skipSpace s := by
  rw [skipSpace, List.dropWhile_cons]
  rfl

theorem takeWhile_append_of_all {p : UInt8 → Bool} {w s : List UInt8} (hw : ∀ c ∈ w, p c = true)
    (hs : ∀ c, s.head? = some c → p c = false) : (w ++ s).takeWhile p = w := by
  have hnil : s.takeWhile p = [] := by
    cases s with
    | nil => rfl
    | cons c s => rw [List.takeWhile_cons, hs c rfl]; rfl
  rw [List.takeWhile_append_of_pos hw, hnil, List.append_nil]

/-- A word is cut to the width, and what is cut off stays in front of the rest. -/
theorem scanWhile_take {p : UInt8 → Bool} {n : Nat} {w : CString} {s : List UInt8} (hne : w.bytes ≠ []) (hn : 0 < n)
    (hw : ∀ c ∈ w.bytes, p c = true) (hs : ∀ c, s.head? = some c → p c = false) :
    scanWhile p n (w.bytes ++ s) = some (w.take n, w.bytes.drop n ++ s) := by
  have htake : ((w.bytes ++ s).take n).takeWhile p = (w.take n).bytes := by
    rw [List.take_append]
    refine takeWhile_append_of_all (fun c hc => hw c (List.mem_of_mem_take hc)) ?_
    intro c hc
    cases s with
    | nil => rw [List.take_nil] at hc; nomatch hc
    | cons x s =>
      cases hk : n - w.bytes.length with
      | zero => rw [hk, List.take_zero] at hc; nomatch hc
      | succ k =>
        rw [hk, List.take_succ_cons] at hc
        exact hs c hc
  have hword : (w.take n).bytes ≠ [] := by
    intro hnil
    have hlen := congrArg List.length hnil
    have hpos := List.length_pos_iff.mpr hne
    rw [CString.take, List.length_take, List.length_nil] at hlen
    omega
  have hcut : w.bytes ++ s = (w.take n).bytes ++ (w.bytes.drop n ++ s) := by
    rw [← List.append_assoc, CString.take, List.take_append_drop]
  rw [scanWhile, htake, if_neg hword, CString.ofMem_bytes, hcut, List.drop_left]

/-- A word that fits is taken whole. -/
theorem scanWhile_append {p : UInt8 → Bool} {n : Nat} {w : CString} {s : List UInt8} (hne : w.bytes ≠ []) (hn : w.length ≤ n)
    (hw : ∀ c ∈ w.bytes, p c = true) (hs : ∀ c, s.head? = some c → p c = false) :
    scanWhile p n (w.bytes ++ s) = some (w, s) := by
  rw [scanWhile_take hne (Nat.lt_of_lt_of_le (List.length_pos_iff.mpr hne) hn) hw hs, CString.take_of_length_le hn,
    List.drop_of_length_le hn, List.nil_append]

/-- What is taken is not longer than the width. -/
theorem scanWhile_length {p : UInt8 → Bool} {n : Nat} {s r : List UInt8} {w : CString} (h : scanWhile p n s = some (w, r)) :
    w.length ≤ n := by
  rw [scanWhile] at h
  split at h
  · nomatch h
  · obtain ⟨rfl, -⟩ := Prod.mk.inj (Option.some.inj h)
    have h1 := cstr_length_le ((s.take n).takeWhile p)
    have h2 := (List.takeWhile_prefix p (l := s.take n)).length_le
    have h3 := List.length_take_le n s
    exact Nat.le_trans h1 (Nat.le_trans h2 h3)

/-- Something is taken when the first byte satisfies the predicate. -/
theorem scanWhile_cons {p : UInt8 → Bool} {n : Nat} {c : UInt8} {s : List UInt8} (hn : 0 < n) (hc : p c = true) (hzero : c ≠ 0) :
    ∃ w r, scanWhile p n (c :: s) = some (w, r) ∧ 0 < w.length := by
  obtain ⟨k, rfl⟩ := Nat.exists_eq_succ_of_ne_zero (Nat.ne_of_gt hn)
  unfold scanWhile
  rw [List.take_succ_cons, List.takeWhile_cons_of_pos hc, if_neg (List.cons_ne_nil _ _)]
  refine ⟨_, _, rfl, ?_⟩
  show 0 < (cstr (c :: (s.take k).takeWhile p)).length
  rw [cstr_cons_of_ne hzero]
  exact Nat.succ_pos _

/-- What is taken satisfies the predicate. -/
theorem scanWhile_all {p : UInt8 → Bool} {n : Nat} {s r : List UInt8} {w : CString} (h : scanWhile p n s = some (w, r)) :
    ∀ c ∈ w.bytes, p c = true := by
  rw [scanWhile] at h
  split at h
  · nomatch h
  · obtain ⟨rfl, -⟩ := Prod.mk.inj (Option.some.inj h)
    intro c hc
    exact List.mem_takeWhile_imp ((List.takeWhile_prefix _).subset hc)

end CLib
