import Mathlib.Data.Nat.Prime.Basic
import Mathlib.Analysis.SpecialFunctions.Pow.NthRootLemmas

/-!
# SHA-256, as FIPS 180-4 defines it

The words of section 2, the functions of section 4.1.2, the constants of sections 4.2.2 and 5.3.3 (from the roots of the first
primes, not from a table), the padding of section 5.1.1, the message schedule and the compression of section 6.2.2. Nothing
here refers to an implementation: a message is a list of bytes, a block is a slice of the padded message, and the schedule is
the recurrence of the standard.
-/

namespace Fips180

/-- A 32-bit word. -/
abbrev Word := BitVec 32

/-! ## The functions of section 4.1.2 -/

def Ch (x y z : Word) : Word := (x &&& y) ^^^ (~~~x &&& z)

def Maj (x y z : Word) : Word := (x &&& y) ^^^ (x &&& z) ^^^ (y &&& z)

def bigSigma0 (x : Word) : Word := x.rotateRight 2 ^^^ x.rotateRight 13 ^^^ x.rotateRight 22

def bigSigma1 (x : Word) : Word := x.rotateRight 6 ^^^ x.rotateRight 11 ^^^ x.rotateRight 25

def smallSigma0 (x : Word) : Word := x.rotateRight 7 ^^^ x.rotateRight 18 ^^^ (x >>> 3)

def smallSigma1 (x : Word) : Word := x.rotateRight 17 ^^^ x.rotateRight 19 ^^^ (x >>> 10)

/-! ## The constants of sections 4.2.2 and 5.3.3 -/

/-- The primes below 312: the first sixty-four. -/
def primes : List Nat := (List.range 312).filter (fun n => decide n.Prime)

/-- The first thirty-two bits of the fractional part of the `n`-th root of `p`. -/
def rootFraction (n p : Nat) : Word := BitVec.ofNat 32 (Nat.nthRoot n (p * 2 ^ (32 * n)))

/-- (4.2.2) The constant of round `t`, from the cube root of the `t`-th prime. -/
def K (t : Nat) : Word := rootFraction 3 (primes.getD t 0)

/-- The eight working variables, and the eight words of a hash value. -/
structure Vars where
  (a b c d e f g h : Word)
  deriving DecidableEq

/-- (5.3.3) The initial hash value, from the square roots of the first eight primes. -/
def initialHash : Vars :=
  ⟨rootFraction 2 (primes.getD 0 0), rootFraction 2 (primes.getD 1 0), rootFraction 2 (primes.getD 2 0),
    rootFraction 2 (primes.getD 3 0), rootFraction 2 (primes.getD 4 0), rootFraction 2 (primes.getD 5 0),
    rootFraction 2 (primes.getD 6 0), rootFraction 2 (primes.getD 7 0)⟩

/-- Trial division up to the square root, which is below 18. -/
theorem prime_iff {n : Nat} (hn : n < 312) : n.Prime ↔ 2 ≤ n ∧ ∀ m < 18, 2 ≤ m → m * m ≤ n → ¬m ∣ n := by
  rw [Nat.prime_def_le_sqrt]
  refine and_congr_right fun _ => ⟨fun h m _ hm hle => h m hm (Nat.le_sqrt.mpr hle), ?_⟩
  intro h m hm hroot
  have hle := Nat.le_sqrt.mp hroot
  refine h m ?_ hm hle
  by_contra hbig
  have hsquare := Nat.mul_le_mul (Nat.not_lt.mp hbig) (Nat.not_lt.mp hbig)
  omega

/-- The list of primes, spelled out. -/
theorem primes_eq : primes =
    [2, 3, 5, 7, 11, 13, 17, 19, 23, 29, 31, 37, 41, 43, 47, 53, 59, 61, 67, 71, 73, 79, 83, 89, 97, 101, 103, 107, 109, 113,
      127, 131, 137, 139, 149, 151, 157, 163, 167, 173, 179, 181, 191, 193, 197, 199, 211, 223, 227, 229, 233, 239, 241, 251,
      257, 263, 269, 271, 277, 281, 283, 293, 307, 311] := by
  have h : primes = (List.range 312).filter (fun n => decide (2 ≤ n ∧ ∀ m < 18, 2 ≤ m → m * m ≤ n → ¬m ∣ n)) := by
    refine List.filter_congr ?_
    intro n hn
    exact decide_eq_decide.mpr (prime_iff (List.mem_range.mp hn))
  rw [h]
  decide +kernel

/-- A root is pinned down by the powers around it. -/
theorem rootFraction_eq {n p r : Nat} (h₁ : r ^ n ≤ p * 2 ^ (32 * n)) (h₂ : p * 2 ^ (32 * n) < (r + 1) ^ n) :
    rootFraction n p = BitVec.ofNat 32 r := by
  rw [rootFraction, Nat.nthRoot_eq_of_le_of_lt h₁ h₂]

/-! ## Bytes, most significant first -/

/-- The `n` bytes of a number, the most significant first. -/
def toBigEndian : Nat → Nat → List UInt8
  | 0, _ => []
  | n + 1, x => UInt8.ofNat (x / 256 ^ n) :: toBigEndian n x

/-- The number that bytes stand for, the most significant first. -/
def ofBigEndian (bs : List UInt8) : Nat := bs.foldl (fun acc b => acc * 256 + b.toNat) 0

@[simp] theorem toBigEndian_length (n x : Nat) : (toBigEndian n x).length = n := by
  induction n with
  | zero => rfl
  | succ n ih => simp [toBigEndian, ih]

/-! ## Padding (section 5.1.1) -/

/-- How many zero bytes follow the byte `0x80` in the padding of a message of `n` bytes. -/
def zeros (n : Nat) : Nat := (119 - n % 64) % 64

/-- The zero bytes are the fewest that leave eight bytes of the last block for the length. -/
theorem zeros_isLeast (n : Nat) : IsLeast {k | (n + 1 + k) % 64 = 56} (zeros n) := by
  refine ⟨?_, fun k hk => ?_⟩
  · simp only [zeros, Set.mem_ofPred_eq]
    omega
  · simp only [Set.mem_ofPred_eq] at hk
    simp only [zeros]
    omega

/-- The padded message: the message, a one bit, zero bits, and the length of the message in bits as a 64-bit number. -/
def pad (M : List UInt8) : List UInt8 :=
  M ++ [0x80] ++ List.replicate (zeros M.length) 0 ++ toBigEndian 8 (8 * M.length)

theorem pad_length (M : List UInt8) : (pad M).length = M.length + 9 + zeros M.length := by
  simp only [pad, List.length_append, List.length_replicate, toBigEndian_length, List.length_singleton]
  omega

/-- The padded message is a whole number of blocks. -/
theorem pad_length_mod (M : List UInt8) : (pad M).length % 64 = 0 := by
  rw [pad_length]
  simp only [zeros]
  omega

/-! ## The hash computation (section 6.2.2) -/

/-- The `t`-th word of a block. -/
def messageWord (B : List UInt8) (t : Nat) : Word := BitVec.ofNat 32 (ofBigEndian ((B.drop (4 * t)).take 4))

/-- The message schedule of a block. -/
def W (B : List UInt8) (t : Nat) : Word :=
  if t < 16 then messageWord B t
  else smallSigma1 (W B (t - 2)) + W B (t - 7) + smallSigma0 (W B (t - 15)) + W B (t - 16)
  termination_by t

theorem W_lt {t : Nat} (B : List UInt8) (h : t < 16) : W B t = messageWord B t := by
  rw [W, if_pos h]

theorem W_ge {t : Nat} (B : List UInt8) (h : 16 ≤ t) :
    W B t = smallSigma1 (W B (t - 2)) + W B (t - 7) + smallSigma0 (W B (t - 15)) + W B (t - 16) := by
  rw [W, if_neg (by omega)]

/-- Round `t` of the compression of a block. -/
def round (B : List UInt8) (v : Vars) (t : Nat) : Vars :=
  let T₁ := v.h + bigSigma1 v.e + Ch v.e v.f v.g + K t + W B t
  let T₂ := bigSigma0 v.a + Maj v.a v.b v.c
  ⟨T₁ + T₂, v.a, v.b, v.c, v.d + T₁, v.e, v.f, v.g⟩

/-- Word-by-word addition of hash values. -/
def Vars.add (x y : Vars) : Vars :=
  ⟨x.a + y.a, x.b + y.b, x.c + y.c, x.d + y.d, x.e + y.e, x.f + y.f, x.g + y.g, x.h + y.h⟩

theorem Vars.add_comm (x y : Vars) : x.add y = y.add x := by
  simp only [Vars.add, BitVec.add_comm]

/-- The compression function: the hash value after one more block. -/
def compress (H : Vars) (B : List UInt8) : Vars := ((List.range 64).foldl (round B) H).add H

/-- The `i`-th block of a padded message. -/
def block (P : List UInt8) (i : Nat) : List UInt8 := (P.drop (64 * i)).take 64

/-- The hash value after all the blocks of a padded message. -/
def hashBlocks (H : Vars) (P : List UInt8) : Vars :=
  (List.range (P.length / 64)).foldl (fun H i => compress H (block P i)) H

/-- The words of a hash value, in order. -/
def Vars.words (v : Vars) : List Word := [v.a, v.b, v.c, v.d, v.e, v.f, v.g, v.h]

/-- The SHA-256 digest of a message. -/
def digest (M : List UInt8) : List UInt8 :=
  (hashBlocks initialHash (pad M)).words.flatMap (fun w => toBigEndian 4 w.toNat)

/-! ## Block by block -/

/-- The first block of a padded message is compressed first. -/
theorem hashBlocks_append_block (H : Vars) {B : List UInt8} (hB : B.length = 64) (P : List UInt8) :
    hashBlocks H (B ++ P) = hashBlocks (compress H B) P := by
  have hlen : (B ++ P).length / 64 = P.length / 64 + 1 := by
    rw [List.length_append, hB]
    omega
  have h0 : block (B ++ P) 0 = B := by
    simp only [block, Nat.mul_zero, List.drop_zero]
    exact List.take_left' hB
  have hs : ∀ i, block (B ++ P) (i + 1) = block P i := by
    intro i
    simp only [block]
    rw [Nat.mul_succ, Nat.add_comm, ← List.drop_drop, List.drop_left' hB]
  rw [hashBlocks, hlen, List.range_succ_eq_map, List.foldl_cons, h0, List.foldl_map]
  simp only [Nat.succ_eq_add_one, hs]
  rfl

/-- The blocks of two padded messages end to end are the blocks of the first, then those of the second. -/
theorem hashBlocks_append (H : Vars) (n : Nat) {A : List UInt8} (hA : A.length = 64 * n) (P : List UInt8) :
    hashBlocks H (A ++ P) = hashBlocks (hashBlocks H A) P := by
  induction n generalizing H A with
  | zero =>
    have hnil : A = [] := List.eq_nil_of_length_eq_zero (by simpa using hA)
    subst hnil
    rfl
  | succ n ih =>
    have hB : (A.take 64).length = 64 := by
      rw [List.length_take]
      omega
    have hD : (A.drop 64).length = 64 * n := by
      rw [List.length_drop]
      omega
    rw [← List.take_append_drop 64 A, List.append_assoc, hashBlocks_append_block H hB, hashBlocks_append_block H hB, ih _ hD]

/-- A single block. -/
theorem hashBlocks_block (H : Vars) {B : List UInt8} (hB : B.length = 64) : hashBlocks H B = compress H B := by
  have := hashBlocks_append_block H hB []
  rw [List.append_nil] at this
  exact this

end Fips180
