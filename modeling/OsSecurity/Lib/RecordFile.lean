import OsSecurity.Lib.CString
import Mathlib.Algebra.Group.Int.Defs
import Mathlib.Algebra.Group.Nat.Defs
import Mathlib.Tactic.SplitIfs

/-!
# Files of records

A program that writes structures of one size with `fwrite` and reads them back with `fread` until one is not complete. A `Layout` says
which bytes stand for a structure; a file is the bytes of its records one behind the other, and what is behind the last complete one is
not read.
-/

namespace CLib

/-! ## Fields -/

/-- The next field of a structure, and the bytes behind it. A field that is not all there is filled up with NULs. -/
def takeField (n : Nat) (mem : List UInt8) : CharArray n × List UInt8 :=
  (⟨(mem.take n).rightpad n 0, by
    rw [List.rightpad, List.length_append, List.length_replicate, List.length_take]
    omega⟩, mem.drop n)

/-- A field is read as it was written. -/
@[simp] theorem takeField_append {n : Nat} (a : CharArray n) (mem : List UInt8) : takeField n (a.bytes ++ mem) = (a, mem) := by
  have htake : (a.bytes ++ mem).take n = a.bytes := List.take_left' a.size
  have hdrop : (a.bytes ++ mem).drop n = mem := List.drop_left' a.size
  rw [takeField, hdrop]
  refine Prod.ext (CharArray.ext ?_) rfl
  simp only [htake, List.rightpad, a.size, Nat.sub_self, List.replicate_zero, List.append_nil]

/-- So is the last one. -/
@[simp] theorem takeField_bytes {n : Nat} (a : CharArray n) : takeField n a.bytes = (a, []) := by
  have h := takeField_append a []
  rwa [List.append_nil] at h

/-- A field that is all there is the bytes there are. -/
theorem takeField_of_le {n : Nat} {mem : List UInt8} (h : n ≤ mem.length) : (takeField n mem).1.bytes = mem.take n := by
  have hlength : (mem.take n).length = n := List.length_take_of_le h
  show (mem.take n).rightpad n 0 = mem.take n
  rw [List.rightpad, hlength, Nat.sub_self, List.replicate_zero, List.append_nil]

/-- The four bytes of a number, the lowest first. -/
def wordBytes (n : Nat) : CharArray 4 :=
  ⟨[UInt8.ofNat n, UInt8.ofNat (n / 256), UInt8.ofNat (n / 65536), UInt8.ofNat (n / 16777216)], rfl⟩

/-- The number of four bytes. -/
def bytesWord (a : CharArray 4) : Nat :=
  let byte (i : Nat) : Nat := (a.bytes.getD i 0).toNat
  byte 0 + byte 1 * 256 + byte 2 * 65536 + byte 3 * 16777216

/-- A number of 32 bits is read as it was written. -/
theorem bytesWord_wordBytes {n : Nat} (hn : n < 2 ^ 32) : bytesWord (wordBytes n) = n := by
  simp only [bytesWord, wordBytes, List.getD_cons_zero, List.getD_cons_succ, UInt8.toNat_ofNat']
  omega

/-- The bytes of an `int`. -/
def intBytes (v : Int) : CharArray 4 := wordBytes (v % 2 ^ 32).toNat

/-- The value of four bytes as an `int`. -/
def bytesInt (a : CharArray 4) : Int := (bytesWord a : Int).bmod (2 ^ 32)

/-- A value in the range of `int` is read as it was written. -/
theorem bytesInt_intBytes {v : Int} (hlow : -2 ^ 31 ≤ v) (hhigh : v < 2 ^ 31) : bytesInt (intBytes v) = v := by
  have hword : (v % 2 ^ 32).toNat < 2 ^ 32 := by omega
  have hcast : ((v % 2 ^ 32).toNat : Int) = v % 2 ^ 32 := Int.toNat_of_nonneg (by omega)
  unfold bytesInt intBytes
  rw [bytesWord_wordBytes hword, hcast, Int.bmod_def]
  split_ifs <;> omega

/-! ## Layouts -/

/-- The bytes of a structure, which all have one size and tell the structure. -/
structure Layout (α : Type*) where
  size : Nat
  encode : α → List UInt8
  decode : List UInt8 → α
  size_pos : 0 < size
  length_encode : ∀ a, (encode a).length = size
  decode_encode : ∀ a, decode (encode a) = a

namespace Layout

variable {α : Type*} (L : Layout α)

/-- `while (fread(&a, sizeof(a), 1, fp) == 1)`, for at most so many times: the structures read. -/
def readUpTo : Nat → List UInt8 → List α
  | 0, _ => []
  | n + 1, file => if file.length < L.size then [] else L.decode (file.take L.size) :: readUpTo n (file.drop L.size)

/-- The structures that are read from a file: no more than it has bytes. -/
def records (file : List UInt8) : List α := L.readUpTo file.length file

/-- The file that `fwrite` makes of structures, one behind the other. -/
def file (as : List α) : List UInt8 := as.flatMap L.encode

/-- More times than there are bytes make no difference. -/
theorem readUpTo_eq {n m : Nat} {file : List UInt8} (hn : file.length ≤ n) (hm : file.length ≤ m) :
    L.readUpTo n file = L.readUpTo m file := by
  have hsize := L.size_pos
  induction n generalizing m file with
  | zero =>
    obtain rfl := List.eq_nil_of_length_eq_zero (Nat.le_zero.mp hn)
    cases m with
    | zero => rfl
    | succ m => rw [readUpTo, readUpTo, if_pos (by simpa using hsize)]
  | succ n ih =>
    cases m with
    | zero =>
      obtain rfl := List.eq_nil_of_length_eq_zero (Nat.le_zero.mp hm)
      rw [readUpTo, readUpTo, if_pos (by simpa using hsize)]
    | succ m =>
      rw [readUpTo, readUpTo]
      split
      · rfl
      · rw [ih (m := m) (by rw [List.length_drop]; omega) (by rw [List.length_drop]; omega)]

/-- Nothing is read from what is too short. -/
theorem records_of_lt {file : List UInt8} (h : file.length < L.size) : L.records file = [] := by
  rw [records]
  cases file.length with
  | zero => rfl
  | succ n => rw [readUpTo, if_pos h]

/-- The first structure is read, and then the rest of the file. -/
theorem records_of_le {file : List UInt8} (h : L.size ≤ file.length) :
    L.records file = L.decode (file.take L.size) :: L.records (file.drop L.size) := by
  have hsize := L.size_pos
  obtain ⟨n, hn⟩ : ∃ n, file.length = n + 1 := ⟨file.length - 1, by omega⟩
  have hrest : (file.drop L.size).length ≤ n := by
    rw [List.length_drop]
    omega
  rw [records, hn, readUpTo, if_neg (by omega), L.readUpTo_eq hrest (Nat.le_refl _), ← records]

@[simp] theorem records_nil : L.records [] = [] := rfl

/-- A structure that was written is read. -/
theorem records_encode_append (a : α) (rest : List UInt8) : L.records (L.encode a ++ rest) = a :: L.records rest := by
  have hlength := L.length_encode a
  rw [L.records_of_le (by rw [List.length_append]; omega), List.take_left' hlength, List.drop_left' hlength, L.decode_encode]

@[simp] theorem file_nil : L.file [] = [] := rfl

/-- The file of more structures is longer at its end. -/
theorem file_append (as bs : List α) : L.file (as ++ bs) = L.file as ++ L.file bs := List.flatMap_append

theorem file_concat (as : List α) (a : α) : L.file (as ++ [a]) = L.file as ++ L.encode a := by
  rw [file_append, file, file, List.flatMap_singleton]

/-- What was written is read, whatever is behind it. -/
theorem records_file_append (as : List α) (rest : List UInt8) : L.records (L.file as ++ rest) = as ++ L.records rest := by
  induction as with
  | nil => rfl
  | cons a as ih => rw [file, List.flatMap_cons, List.append_assoc, L.records_encode_append, ← file, ih, List.cons_append]

/-- What was written is read. -/
@[simp] theorem records_file (as : List α) : L.records (L.file as) = as := by
  have h := L.records_file_append as []
  rwa [List.append_nil, records_nil, List.append_nil] at h

/-- What is appended to a file does not change the structures read before. -/
theorem records_append_prefix (file rest : List UInt8) : L.records file <+: L.records (file ++ rest) := by
  have hsize := L.size_pos
  induction hn : file.length using Nat.strong_induction_on generalizing file with
  | _ n ih =>
    rcases Nat.lt_or_ge file.length L.size with hlt | hge
    · rw [L.records_of_lt hlt]
      exact List.nil_prefix
    · have hlonger : L.size ≤ (file ++ rest).length := by
        rw [List.length_append]
        omega
      rw [L.records_of_le hge, L.records_of_le hlonger, List.take_append_of_le_length hge, List.drop_append_of_le_length hge]
      exact (List.prefix_cons_inj _).mpr (ih _ (by rw [List.length_drop]; omega) _ rfl)

/-- A structure that is read stands for bytes of the file. -/
theorem mem_records {a : α} (file : List UInt8) (h : a ∈ L.records file) :
    ∃ mem, L.decode mem = a ∧ mem.length = L.size ∧ mem ⊆ file := by
  have hsize := L.size_pos
  induction hn : file.length using Nat.strong_induction_on generalizing file with
  | _ n ih =>
    rcases Nat.lt_or_ge file.length L.size with hlt | hge
    · rw [L.records_of_lt hlt] at h
      exact absurd h List.not_mem_nil
    · rw [L.records_of_le hge] at h
      rcases List.mem_cons.mp h with rfl | h
      · exact ⟨file.take L.size, rfl, List.length_take_of_le hge, List.take_subset _ _⟩
      · obtain ⟨mem, hdecode, hlength, hsub⟩ := ih _ (by rw [List.length_drop]; omega) (file.drop L.size) h rfl
        exact ⟨mem, hdecode, hlength, List.Subset.trans hsub (List.drop_subset _ _)⟩

end Layout

end CLib
