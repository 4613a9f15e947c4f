import OsSecurity.Lib.Fips180
import OsSecurity.Fms.Crypto
import Mathlib.Data.List.GetD
import Mathlib.Tactic.IntervalCases

/-!
# The compression function of the program is that of FIPS 180-4

Words of the program are `UInt32`, words of the standard are bit vectors; `Words.toVars` reads one as the other. The functions,
the constants, the schedule and the rounds agree one by one, and so does `sha256Transform` with the compression of a block.
-/

namespace OsSecurity.Fms

open CLib Fips180

/-- The words of a state, as words of the standard. -/
def Words.toVars (s : Words) : Vars :=
  ⟨s.a.toBitVec, s.b.toBitVec, s.c.toBitVec, s.d.toBitVec, s.e.toBitVec, s.f.toBitVec, s.g.toBitVec, s.h.toBitVec⟩

namespace Sha256Aux

/-! ## Constants -/

/-- The table is made of the first thirty-two bits of the fractional parts of cube roots: each entry, under the whole part of
the root, is the root rounded down. -/
theorem k_root (t : Nat) (ht : t < 64) :
    (Nat.nthRoot 3 (primes.getD t 0) * 2 ^ 32 + (k.getD t 0).toNat) ^ 3 ≤ primes.getD t 0 * 2 ^ (32 * 3) ∧
      primes.getD t 0 * 2 ^ (32 * 3) < (Nat.nthRoot 3 (primes.getD t 0) * 2 ^ 32 + (k.getD t 0).toNat + 1) ^ 3 := by
  rw [primes_eq]
  revert t
  decide +kernel

/-- The whole part of a root is cut off by the width of a word. -/
theorem ofNat_mul_add (a : Nat) (w : UInt32) : BitVec.ofNat 32 (a * 2 ^ 32 + w.toNat) = w.toBitVec := by
  apply BitVec.eq_of_toNat_eq
  have := w.toNat_lt
  rw [BitVec.toNat_ofNat, UInt32.toNat_toBitVec, Nat.mul_comm, Nat.mul_add_mod, Nat.mod_eq_of_lt (by omega)]

/-- The table of the source holds the constants. -/
theorem k_toBitVec (t : Nat) (ht : t < 64) : (k.getD t 0).toBitVec = K t := by
  obtain ⟨h₁, h₂⟩ := k_root t ht
  rw [K, rootFraction_eq h₁ h₂, ofNat_mul_add]

/-- The initial words are the fractional parts of square roots, rounded down. -/
theorem init_root (t : Nat) (ht : t < 8) (w : Nat)
    (hw : [0x6a09e667, 0xbb67ae85, 0x3c6ef372, 0xa54ff53a, 0x510e527f, 0x9b05688c, 0x1f83d9ab, 0x5be0cd19][t]? = some w) :
    (Nat.nthRoot 2 (primes.getD t 0) * 2 ^ 32 + w) ^ 2 ≤ primes.getD t 0 * 2 ^ (32 * 2) ∧
      primes.getD t 0 * 2 ^ (32 * 2) < (Nat.nthRoot 2 (primes.getD t 0) * 2 ^ 32 + w + 1) ^ 2 := by
  rw [primes_eq]
  interval_cases t <;> (obtain rfl := Option.some.inj hw; decide +kernel)

/-- `sha256_init` sets the initial hash value. -/
theorem init_toVars (fill : CharArray 64) : (sha256Init fill).state.toVars = initialHash := by
  have h : ∀ t (ht : t < 8) (w : UInt32),
      [0x6a09e667, 0xbb67ae85, 0x3c6ef372, 0xa54ff53a, 0x510e527f, 0x9b05688c, 0x1f83d9ab, 0x5be0cd19][t]? = some w.toNat →
      w.toBitVec = rootFraction 2 (primes.getD t 0) := by
    intro t ht w hw
    obtain ⟨h₁, h₂⟩ := init_root t ht w.toNat hw
    rw [rootFraction_eq h₁ h₂, ofNat_mul_add]
  simp only [sha256Init, Words.toVars, initialHash, Vars.mk.injEq]
  exact ⟨h 0 (by decide) _ rfl, h 1 (by decide) _ rfl, h 2 (by decide) _ rfl, h 3 (by decide) _ rfl,
    h 4 (by decide) _ rfl, h 5 (by decide) _ rfl, h 6 (by decide) _ rfl, h 7 (by decide) _ rfl⟩

/-! ## Functions -/

/-- A rotation amount as a 32-bit number. -/
theorem toNat_ofNat_lt {n : Nat} (hn : n ≤ 32) : (UInt32.ofNat n).toNat = n :=
  UInt32.toNat_ofNat_of_lt' (by simp only [UInt32.size]; omega)

/-- A shift to the right by less than 32. -/
theorem toBitVec_shiftRight_ofNat (x : UInt32) {n : Nat} (hn : n < 32) :
    (x >>> UInt32.ofNat n).toBitVec = x.toBitVec >>> n := by
  apply BitVec.eq_of_toNat_eq
  rw [UInt32.toNat_toBitVec, UInt32.toNat_shiftRight, toNat_ofNat_lt (by omega), Nat.mod_eq_of_lt hn,
    BitVec.toNat_ushiftRight, UInt32.toNat_toBitVec]

/-- A shift to the left by less than 32. -/
theorem toBitVec_shiftLeft_ofNat (x : UInt32) {n : Nat} (hn : n < 32) :
    (x <<< UInt32.ofNat n).toBitVec = x.toBitVec <<< n := by
  apply BitVec.eq_of_toNat_eq
  rw [UInt32.toNat_toBitVec, UInt32.toNat_shiftLeft, toNat_ofNat_lt (by omega), Nat.mod_eq_of_lt hn,
    BitVec.toNat_shiftLeft, UInt32.toNat_toBitVec]

/-- `ROTRIGHT` is the rotation, for the amounts between 1 and 31 that the source uses. -/
theorem rotRight_toBitVec (x : UInt32) {n : Nat} (h0 : 0 < n) (hn : n < 32) :
    (rotRight x (UInt32.ofNat n)).toBitVec = x.toBitVec.rotateRight n := by
  have hsub : (32 : UInt32) - UInt32.ofNat n = UInt32.ofNat (32 - n) := by
    apply UInt32.toNat_inj.mp
    have hle : UInt32.ofNat n ≤ 32 := by
      rw [UInt32.le_iff_toNat_le, toNat_ofNat_lt (by omega)]
      exact Nat.le_of_lt hn
    rw [UInt32.toNat_sub_of_le _ _ hle, toNat_ofNat_lt (by omega), toNat_ofNat_lt (by omega)]
    rfl
  rw [BitVec.rotateRight_def, Nat.mod_eq_of_lt hn, rotRight, hsub, UInt32.toBitVec_or, toBitVec_shiftRight_ofNat x hn,
    toBitVec_shiftLeft_ofNat x (by omega)]

/-- The functions of a round are those of the standard. -/
theorem ch_toBitVec (x y z : UInt32) : (ch x y z).toBitVec = Ch x.toBitVec y.toBitVec z.toBitVec := rfl

theorem maj_toBitVec (x y z : UInt32) : (maj x y z).toBitVec = Maj x.toBitVec y.toBitVec z.toBitVec := rfl

/-- `EP0` is the first one of the upper sigmas. -/
theorem ep0_toBitVec (x : UInt32) : (ep0 x).toBitVec = bigSigma0 x.toBitVec := by
  rw [bigSigma0, ← rotRight_toBitVec x (n := 2) (by decide) (by decide),
    ← rotRight_toBitVec x (n := 13) (by decide) (by decide), ← rotRight_toBitVec x (n := 22) (by decide) (by decide)]
  rfl

/-- `EP1` is the second one of the upper sigmas. -/
theorem ep1_toBitVec (x : UInt32) : (ep1 x).toBitVec = bigSigma1 x.toBitVec := by
  rw [bigSigma1, ← rotRight_toBitVec x (n := 6) (by decide) (by decide),
    ← rotRight_toBitVec x (n := 11) (by decide) (by decide), ← rotRight_toBitVec x (n := 25) (by decide) (by decide)]
  rfl

/-- `SIG0` is the first one of the lower sigmas. -/
theorem sig0_toBitVec (x : UInt32) : (sig0 x).toBitVec = smallSigma0 x.toBitVec := by
  rw [smallSigma0, ← rotRight_toBitVec x (n := 7) (by decide) (by decide),
    ← rotRight_toBitVec x (n := 18) (by decide) (by decide), ← toBitVec_shiftRight_ofNat x (n := 3) (by decide)]
  rfl

/-- `SIG1` is the second one of the lower sigmas. -/
theorem sig1_toBitVec (x : UInt32) : (sig1 x).toBitVec = smallSigma1 x.toBitVec := by
  rw [smallSigma1, ← rotRight_toBitVec x (n := 17) (by decide) (by decide),
    ← rotRight_toBitVec x (n := 19) (by decide) (by decide), ← toBitVec_shiftRight_ofNat x (n := 10) (by decide)]
  rfl

/-! ## Words from bytes -/

/-- Bytes shifted into the four places of a word are their big-endian number. -/
theorem or_shift_bytes {b0 b1 b2 b3 : Nat} (h1 : b1 < 256) (h2 : b2 < 256) (h3 : b3 < 256) :
    b0 <<< 24 ||| b1 <<< 16 ||| b2 <<< 8 ||| b3 = ((b0 * 256 + b1) * 256 + b2) * 256 + b3 := by
  have e1 : b0 <<< 24 ||| b1 <<< 16 = (b0 * 256 + b1) <<< 16 := by
    rw [← Nat.shiftLeft_add_eq_or_of_lt (by rw [Nat.shiftLeft_eq]; omega)]
    simp only [Nat.shiftLeft_eq]
    omega
  have e2 : (b0 * 256 + b1) <<< 16 ||| b2 <<< 8 = ((b0 * 256 + b1) * 256 + b2) <<< 8 := by
    rw [← Nat.shiftLeft_add_eq_or_of_lt (by rw [Nat.shiftLeft_eq]; omega)]
    simp only [Nat.shiftLeft_eq]
    omega
  rw [e1, e2, ← Nat.shiftLeft_add_eq_or_of_lt (by omega)]
  simp only [Nat.shiftLeft_eq]

/-- A byte shifted by at most three places stays within a word. -/
theorem shiftLeft_mod (b : UInt8) {n : Nat} (hn : n ≤ 24) : b.toNat <<< n % 2 ^ 32 = b.toNat <<< n := by
  apply Nat.mod_eq_of_lt
  rw [Nat.shiftLeft_eq]
  calc b.toNat * 2 ^ n < 2 ^ 8 * 2 ^ n := Nat.mul_lt_mul_of_pos_right b.toNat_lt (Nat.two_pow_pos n)
    _ = 2 ^ (8 + n) := (Nat.pow_add 2 8 n).symm
    _ ≤ 2 ^ 32 := Nat.pow_le_pow_right (by decide) (by omega)

/-- The word of four bytes, shift by shift, is the word their big-endian number gives. -/
theorem loadWord_zero (b0 b1 b2 b3 : UInt8) (rest : List UInt8) :
    (loadWord (b0 :: b1 :: b2 :: b3 :: rest) 0).toBitVec = BitVec.ofNat 32 (ofBigEndian [b0, b1, b2, b3]) := by
  have l0 := b0.toNat_lt
  have l1 := b1.toNat_lt
  have l2 := b2.toNat_lt
  have l3 := b3.toNat_lt
  apply BitVec.eq_of_toNat_eq
  simp only [loadWord, List.getD_cons_zero, List.getD_cons_succ, UInt32.toNat_toBitVec, UInt32.toNat_or,
    UInt32.toNat_shiftLeft, UInt8.toNat_toUInt32, ofBigEndian, List.foldl_cons, List.foldl_nil, BitVec.toNat_ofNat]
  rw [show UInt32.toNat 24 % 32 = 24 from rfl, show UInt32.toNat 16 % 32 = 16 from rfl,
    show UInt32.toNat 8 % 32 = 8 from rfl, shiftLeft_mod b0 (by decide), shiftLeft_mod b1 (by decide),
    shiftLeft_mod b2 (by decide), or_shift_bytes l1 l2 l3, Nat.mod_eq_of_lt (by omega)]
  omega

/-- Four bytes are loaded with the first one as the highest. -/
theorem loadWord_toBitVec (B : List UInt8) (t : Nat) (h : 4 * t + 4 ≤ B.length) :
    (loadWord B (4 * t)).toBitVec = messageWord B t := by
  have hD : ∀ i, B.getD (4 * t + i) 0 = (B.drop (4 * t)).getD i 0 := by
    intro i
    simp [List.getD_eq_getElem?_getD, List.getElem?_drop]
  have hload : loadWord B (4 * t) = loadWord (B.drop (4 * t)) 0 := by
    simp only [loadWord, Nat.zero_add, ← hD, Nat.add_zero]
  have hlen : 4 ≤ (B.drop (4 * t)).length := by
    rw [List.length_drop]
    omega
  rw [hload, messageWord]
  match B.drop (4 * t), hlen with
  | b0 :: b1 :: b2 :: b3 :: rest, _ => exact loadWord_zero b0 b1 b2 b3 rest

/-- The bytes of a word that the output loops take are its big-endian bytes. -/
theorem wordBytes_eq (w : UInt32) : wordBytes w = toBigEndian 4 w.toNat := by
  have hb : ∀ i : Nat, i < 4 →
      ((w >>> (24 - UInt32.ofNat i * 8)) &&& 0x000000ff).toUInt8 = UInt8.ofNat (w.toNat / 256 ^ (3 - i)) := by
    intro i hi
    have hsh : (24 - UInt32.ofNat i * 8 : UInt32).toNat = 8 * (3 - i) := by
      interval_cases i <;> rfl
    apply UInt8.toNat_inj.mp
    rw [UInt32.toNat_toUInt8, UInt32.toNat_and, UInt32.toNat_shiftRight, hsh, UInt8.toNat_ofNat',
      Nat.mod_eq_of_lt (show 8 * (3 - i) < 32 by omega), show UInt32.toNat 255 = 2 ^ 8 - 1 from rfl,
      Nat.and_two_pow_sub_one_eq_mod, Nat.shiftRight_eq_div_pow, Nat.pow_mul, Nat.mod_mod]
  simp only [wordBytes, toBigEndian, show List.range 4 = [0, 1, 2, 3] from rfl, List.map_cons, List.map_nil]
  rw [hb 0 (by decide), hb 1 (by decide), hb 2 (by decide), hb 3 (by decide)]

/-! ## The schedule -/

/-- After `n` turns of the loop, the array holds the schedule up to word `16 + n`. -/
theorem extendSchedule_spec (B : List UInt8) (hB : B.length = 64) (n : Nat) :
    ((List.range' 16 n).foldl extendSchedule ((List.range 16).map (fun i => loadWord B (4 * i)))).length = 16 + n ∧
      ∀ t < 16 + n, (((List.range' 16 n).foldl extendSchedule
        ((List.range 16).map (fun i => loadWord B (4 * i)))).getD t 0).toBitVec = W B t := by
  induction n with
  | zero =>
    refine ⟨by simp, ?_⟩
    intro t ht
    rw [List.range'_zero, List.foldl_nil, List.getD_eq_getElem _ _ (by simpa using ht), List.getElem_map,
      List.getElem_range, loadWord_toBitVec B t (by omega), W_lt B ht]
  | succ n ih =>
    obtain ⟨hlen, hget⟩ := ih
    rw [List.range'_concat, List.foldl_append, Nat.one_mul, List.foldl_cons, List.foldl_nil]
    generalize (List.range' 16 n).foldl extendSchedule ((List.range 16).map (fun i => loadWord B (4 * i))) = m at hlen hget
    refine ⟨by rw [extendSchedule, List.length_append, hlen]; rfl, ?_⟩
    intro t ht
    by_cases hn : t < 16 + n
    · rw [extendSchedule, List.getD_append _ _ _ _ (by omega)]
      exact hget t hn
    · have ht' : t = 16 + n := by omega
      subst ht'
      rw [extendSchedule, List.getD_append_right _ _ _ _ (by omega), hlen, Nat.sub_self, List.getD_cons_zero,
        W_ge B (by omega), ← hget (16 + n - 2) (by omega), ← hget (16 + n - 7) (by omega),
        ← hget (16 + n - 15) (by omega), ← hget (16 + n - 16) (by omega), ← sig1_toBitVec, ← sig0_toBitVec]
      rfl

/-- `m` holds the message schedule when the rounds begin. -/
theorem schedule_toBitVec (B : List UInt8) (hB : B.length = 64) (t : Nat) (ht : t < 64) :
    ((schedule B).getD t 0).toBitVec = W B t :=
  (extendSchedule_spec B hB 48).2 t ht

/-! ## Rounds -/

/-- A round of the loop is a round of the standard. -/
theorem sha256Round_toVars (B : List UInt8) (hB : B.length = 64) (s : Words) (t : Nat) (ht : t < 64) :
    (sha256Round (schedule B) s t).toVars = Fips180.round B s.toVars t := by
  simp only [Fips180.round, ← schedule_toBitVec B hB t ht, ← k_toBitVec t ht]
  simp only [Words.toVars, ← ep0_toBitVec, ← ep1_toBitVec, ← ch_toBitVec, ← maj_toBitVec]
  rfl

/-- So are the first `n` rounds. -/
theorem rounds_toVars (B : List UInt8) (hB : B.length = 64) (s : Words) (n : Nat) (hn : n ≤ 64) :
    ((List.range n).foldl (sha256Round (schedule B)) s).toVars = (List.range n).foldl (Fips180.round B) s.toVars := by
  induction n with
  | zero => rfl
  | succ n ih =>
    rw [List.range_succ, List.foldl_append, List.foldl_append, List.foldl_cons, List.foldl_nil, List.foldl_cons,
      List.foldl_nil, sha256Round_toVars B hB _ n hn, ih (by omega)]

end Sha256Aux

open Sha256Aux

/-- `sha256_transform` compresses the block in the buffer. -/
theorem sha256Transform_toVars (s : Words) {B : List UInt8} (hB : B.length = 64) :
    (sha256Transform s B).toVars = compress s.toVars B := by
  rw [compress, ← rounds_toVars B hB s 64 (Nat.le_refl _), Vars.add_comm]
  rfl

end OsSecurity.Fms
