import OsSecurity.Lemmas.Sha256

/-!
# SHA-256 of the program is SHA-256

The buffered update keeps the message cut in two: whole blocks, already compressed into the state, and a rest shorter than a
block, in the buffer (`Fed`). The two branches of `sha256_final` write the padding of that rest, in one block or in two, so the
blocks compressed in all are those of the padded message.
-/

namespace OsSecurity.Fms

open CLib Fips180

/-! ## Writing into the buffer -/

namespace Sha256Aux

/-- Writing behind the first `n` bytes extends them by the byte written. -/
theorem take_set_succ {l : List UInt8} {n : Nat} (hn : n < l.length) (x : UInt8) :
    (l.set n x).take (n + 1) = l.take n ++ [x] := by
  have hl : (l.take n).length = n := by
    rw [List.length_take]
    omega
  rw [List.set_eq_take_append_cons_drop, if_pos hn, List.take_append, hl, List.take_of_length_le (by omega),
    Nat.add_sub_cancel_left, List.take_succ_cons, List.take_zero]

/-- `fillZero` writes zeros from `i` up to `i + m` and nothing else. -/
theorem fillZero_bytes (d : CharArray 64) (i m : Nat) (h : i + m ≤ 64) :
    (fillZero d i (i + m)).bytes = d.bytes.take i ++ List.replicate m 0 ++ d.bytes.drop (i + m) := by
  rw [fillZero, Nat.add_sub_cancel_left]
  induction m with
  | zero => simp
  | succ m ih =>
    have hi : (d.bytes.take i).length = i := by
      rw [List.length_take, d.size]
      omega
    have hlen : (d.bytes.take i ++ List.replicate m 0).length = i + m := by
      rw [List.length_append, hi, List.length_replicate]
    have hdrop : d.bytes.drop (i + m) = d.bytes.get ⟨i + m, by rw [d.size]; omega⟩ :: d.bytes.drop (i + m + 1) :=
      List.drop_eq_getElem_cons (by rw [d.size]; omega)
    rw [List.range'_concat, List.foldl_append, Nat.one_mul, List.foldl_cons, List.foldl_nil]
    simp only [CharArray.set] at ih ⊢
    rw [ih (by omega), List.set_append_right _ _ (by omega), hlen, Nat.sub_self, hdrop, List.set_cons_zero,
      List.replicate_succ', List.append_assoc, List.append_assoc, List.append_assoc, List.singleton_append, Nat.add_assoc]

/-- The byte of a bit count that lies `8 * j` bits up. -/
theorem shiftRight_toUInt8 (x : UInt64) (s : UInt64) (j : Nat) (hs : s.toNat = 8 * j) (hj : j < 8) :
    (x >>> s).toUInt8 = UInt8.ofNat (x.toNat / 256 ^ j) := by
  apply UInt8.toNat_inj.mp
  rw [UInt64.toNat_toUInt8, UInt64.toNat_shiftRight, hs, Nat.mod_eq_of_lt (show 8 * j < 64 by omega),
    Nat.shiftRight_eq_div_pow, Nat.pow_mul, UInt8.toNat_ofNat']

/-- The eight assignments leave the big-endian bytes of the bit count at the end of the buffer. -/
theorem storeBitlen_bytes (d : CharArray 64) (n : UInt64) :
    (storeBitlen d n).bytes = d.bytes.take 56 ++ toBigEndian 8 n.toNat := by
  have ht : (d.bytes.take 56).length = 56 := by
    rw [List.length_take, d.size]
    rfl
  have hset : ∀ (E : List UInt8) (j : Nat) (x : UInt8),
      (d.bytes.take 56 ++ E).set (56 + j) x = d.bytes.take 56 ++ E.set j x := by
    intro E j x
    rw [List.set_append_right _ _ (by omega), ht, Nat.add_sub_cancel_left]
  obtain ⟨e0, e1, e2, e3, e4, e5, e6, e7, hE⟩ :
      ∃ e0 e1 e2 e3 e4 e5 e6 e7, d.bytes.drop 56 = [e0, e1, e2, e3, e4, e5, e6, e7] := by
    have hl : (d.bytes.drop 56).length = 8 := by
      rw [List.length_drop, d.size]
    match d.bytes.drop 56, hl with
    | [e0, e1, e2, e3, e4, e5, e6, e7], _ => exact ⟨e0, e1, e2, e3, e4, e5, e6, e7, rfl⟩
  have h0 : n.toUInt8 = UInt8.ofNat (n.toNat / 256 ^ 0) := by
    apply UInt8.toNat_inj.mp
    rw [UInt64.toNat_toUInt8, Nat.pow_zero, Nat.div_one, UInt8.toNat_ofNat']
  simp only [storeBitlen, CharArray.set]
  rw [← List.take_append_drop 56 d.bytes, hE, hset _ 7, hset _ 6, hset _ 5, hset _ 4, hset _ 3, hset _ 2, hset _ 1,
    hset _ 0, List.take_left' ht, h0, shiftRight_toUInt8 n 8 1 rfl (by decide), shiftRight_toUInt8 n 16 2 rfl (by decide),
    shiftRight_toUInt8 n 24 3 rfl (by decide), shiftRight_toUInt8 n 32 4 rfl (by decide),
    shiftRight_toUInt8 n 40 5 rfl (by decide), shiftRight_toUInt8 n 48 6 rfl (by decide),
    shiftRight_toUInt8 n 56 7 rfl (by decide)]
  rfl

/-- The length field of the padding only sees the length modulo its width. -/
theorem toBigEndian_mod (n x : Nat) (m : Nat) (h : n ≤ m) : toBigEndian n (x % 256 ^ m) = toBigEndian n x := by
  induction n with
  | zero => rfl
  | succ n ih =>
    rw [toBigEndian, toBigEndian, ih (by omega)]
    congr 1
    apply UInt8.toNat_inj.mp
    obtain ⟨d, hd⟩ : ∃ d, m = n + (d + 1) := ⟨m - n - 1, by omega⟩
    rw [UInt8.toNat_ofNat', UInt8.toNat_ofNat', hd, Nat.pow_add, Nat.mod_mul_right_div_self, Nat.pow_succ',
      show (2 : Nat) ^ 8 = 256 from rfl, Nat.mod_mul_right_mod]

end Sha256Aux

open Sha256Aux

/-! ## The update -/

/-- A context that has been fed the whole blocks `A` and then the rest `R`. -/
structure Fed (ctx : Sha256Ctx) (A R : List UInt8) : Prop where
  blocks : A.length % 64 = 0
  rest : R.length = ctx.datalen
  short : ctx.datalen < 64
  buffered : ctx.data.bytes.take ctx.datalen = R
  state : ctx.state.toVars = hashBlocks initialHash A
  bitlen : ctx.bitlen = UInt64.ofNat (8 * A.length)

theorem sha256Init_fed (fill : CharArray 64) : Fed (sha256Init fill) [] [] where
  blocks := rfl
  rest := rfl
  short := by show 0 < 64; decide
  buffered := rfl
  state := init_toVars fill
  bitlen := rfl

/-- One more byte: it joins the rest, or completes a block with it. -/
theorem updateByte_fed {ctx : Sha256Ctx} {A R : List UInt8} (h : Fed ctx A R) (b : UInt8) :
    ∃ A' R', A' ++ R' = A ++ R ++ [b] ∧ Fed (updateByte ctx b) A' R' := by
  have hlt : ctx.datalen < ctx.data.bytes.length := by
    rw [ctx.data.size]
    exact h.short
  have htake : (ctx.data.bytes.set ctx.datalen b).take (ctx.datalen + 1) = R ++ [b] := by
    rw [take_set_succ hlt, h.buffered]
  by_cases hfull : ctx.datalen + 1 = 64
  · have hblock : (ctx.data.set ctx.datalen b).bytes = R ++ [b] := by
      rw [← htake, hfull]
      exact (List.take_of_length_le (by rw [CharArray.size])).symm
    have hlen : (R ++ [b]).length = 64 := by
      rw [List.length_append, h.rest]
      exact hfull
    refine ⟨A ++ (R ++ [b]), [], by simp, ?_⟩
    rw [updateByte, if_pos hfull]
    exact
      { blocks := by
          have := h.blocks
          rw [List.length_append, hlen]
          omega
        rest := rfl
        short := by show 0 < 64; decide
        buffered := rfl
        state := by
          simp only [hblock]
          rw [sha256Transform_toVars _ hlen, h.state,
            hashBlocks_append _ (A.length / 64) (by have := h.blocks; omega), hashBlocks_block _ hlen]
        bitlen := by
          simp only [h.bitlen]
          rw [List.length_append, hlen, Nat.mul_add, UInt64.ofNat_add]
          rfl }
  · refine ⟨A, R ++ [b], by simp, ?_⟩
    rw [updateByte, if_neg hfull]
    exact
      { blocks := h.blocks
        rest := by simp [h.rest]
        short := by have := h.short; simp only; omega
        buffered := htake
        state := h.state
        bitlen := h.bitlen }

/-- After an update the context has been fed the whole message. -/
theorem sha256Update_fed {ctx : Sha256Ctx} {A R : List UInt8} (h : Fed ctx A R) (M : List UInt8) :
    ∃ A' R', A' ++ R' = A ++ R ++ M ∧ Fed (sha256Update ctx M) A' R' := by
  induction M generalizing ctx A R with
  | nil => exact ⟨A, R, by simp, h⟩
  | cons b M ih =>
    obtain ⟨A₁, R₁, he₁, h₁⟩ := updateByte_fed h b
    obtain ⟨A₂, R₂, he₂, h₂⟩ := ih h₁
    exact ⟨A₂, R₂, by rw [he₂, he₁, List.append_assoc, List.singleton_append], h₂⟩

/-- A new context that is fed a message. -/
theorem sha256Init_update_fed (fill : CharArray 64) (M : List UInt8) :
    ∃ A R, A ++ R = M ∧ Fed (sha256Update (sha256Init fill) M) A R :=
  sha256Update_fed (sha256Init_fed fill) M

/-! ## The padding -/

/-- A rest that leaves room for the length is padded within one block. -/
theorem hashBlocks_pad_short {A R : List UInt8} (hA : A.length % 64 = 0) (hR : R.length < 56) :
    hashBlocks initialHash (pad (A ++ R)) =
      compress (hashBlocks initialHash A)
        (R ++ 0x80 :: List.replicate (55 - R.length) 0 ++ toBigEndian 8 (8 * (A ++ R).length)) := by
  have hz : zeros (A ++ R).length = 55 - R.length := by
    rw [zeros, List.length_append]
    omega
  have hB : (R ++ 0x80 :: List.replicate (55 - R.length) 0 ++ toBigEndian 8 (8 * (A ++ R).length)).length = 64 := by
    simp only [List.length_append, List.length_cons, List.length_replicate, toBigEndian_length]
    omega
  rw [← hashBlocks_block _ hB, ← hashBlocks_append _ (A.length / 64) (by omega), pad, hz]
  simp only [List.append_assoc, List.cons_append, List.nil_append]

/-- A rest that leaves no room for the length fills its block with zeros, and the length ends a block of zeros. -/
theorem hashBlocks_pad_long {A R : List UInt8} (hA : A.length % 64 = 0) (hR : 56 ≤ R.length) (hR' : R.length < 64) :
    hashBlocks initialHash (pad (A ++ R)) =
      compress (compress (hashBlocks initialHash A) (R ++ 0x80 :: List.replicate (63 - R.length) 0))
        (List.replicate 56 0 ++ toBigEndian 8 (8 * (A ++ R).length)) := by
  have hz : zeros (A ++ R).length = 63 - R.length + 56 := by
    rw [zeros, List.length_append]
    omega
  have hB : (R ++ 0x80 :: List.replicate (63 - R.length) 0).length = 64 := by
    simp only [List.length_append, List.length_cons, List.length_replicate]
    omega
  have hB' : (List.replicate 56 0 ++ toBigEndian 8 (8 * (A ++ R).length)).length = 64 := by
    simp only [List.length_append, List.length_replicate, toBigEndian_length]
  rw [← hashBlocks_block _ hB', ← hashBlocks_append_block _ hB, ← hashBlocks_append _ (A.length / 64) (by omega), pad, hz,
    ← List.replicate_append_replicate]
  simp only [List.append_assoc, List.cons_append, List.nil_append]

/-- The bytes of the output loops are those of the hash value. -/
theorem storeHash_bytes (s : Words) : (storeHash s).bytes = s.toVars.words.flatMap (fun w => toBigEndian 4 w.toNat) := by
  simp only [storeHash, Vars.words, Words.toVars, List.flatMap_cons, List.flatMap_nil, wordBytes_eq,
    UInt32.toNat_toBitVec]

/-- The bit count of a context, with that of the rest added, is the length of the message in bits. -/
theorem Fed.bitlen_final {ctx : Sha256Ctx} {A R : List UInt8} (h : Fed ctx A R) :
    toBigEndian 8 (ctx.bitlen + UInt64.ofNat ctx.datalen * 8).toNat = toBigEndian 8 (8 * (A ++ R).length) := by
  have he : ctx.bitlen + UInt64.ofNat ctx.datalen * 8 = UInt64.ofNat (8 * (A ++ R).length) := by
    rw [h.bitlen, ← h.rest, List.length_append, Nat.mul_add, UInt64.ofNat_add, Nat.mul_comm 8 R.length, UInt64.ofNat_mul R.length 8]
    rfl
  rw [he, UInt64.toNat_ofNat']
  exact toBigEndian_mod 8 _ 8 (Nat.le_refl _)

/-- `sha256_final` digests what the context has been fed. -/
theorem sha256Final_fed {ctx : Sha256Ctx} {A R : List UInt8} (h : Fed ctx A R) :
    (sha256Final ctx).bytes = digest (A ++ R) := by
  have hlt := h.short
  have hset : (ctx.data.set ctx.datalen 0x80).bytes.take (ctx.datalen + 1) = R ++ [0x80] := by
    rw [CharArray.set, take_set_succ (by rw [ctx.data.size]; exact hlt), h.buffered]
  rw [sha256Final, digest, storeHash_bytes]
  by_cases h56 : ctx.datalen < 56
  · have hfill : (fillZero (ctx.data.set ctx.datalen 0x80) (ctx.datalen + 1) 56).bytes.take 56 =
        R ++ 0x80 :: List.replicate (55 - R.length) 0 := by
      have := fillZero_bytes (ctx.data.set ctx.datalen 0x80) (ctx.datalen + 1) (55 - ctx.datalen) (by omega)
      rw [show ctx.datalen + 1 + (55 - ctx.datalen) = 56 from by omega] at this
      rw [this, hset, List.take_left' (by simp [h.rest]; omega), h.rest, List.append_assoc, List.singleton_append]
    rw [if_pos h56, hashBlocks_pad_short h.blocks (by rw [h.rest]; exact h56), ← h.state, ← h.bitlen_final, ← hfill,
      ← storeBitlen_bytes, sha256Transform_toVars _ (CharArray.size _)]
  · have hfill : (fillZero (ctx.data.set ctx.datalen 0x80) (ctx.datalen + 1) 64).bytes =
        R ++ 0x80 :: List.replicate (63 - R.length) 0 := by
      have := fillZero_bytes (ctx.data.set ctx.datalen 0x80) (ctx.datalen + 1) (63 - ctx.datalen) (by omega)
      rw [show ctx.datalen + 1 + (63 - ctx.datalen) = 64 from by omega] at this
      rw [this, hset, List.drop_of_length_le (by rw [CharArray.size]), h.rest, List.append_nil, List.append_assoc,
        List.singleton_append]
    have hzero : ∀ d : CharArray 64, (fillZero d 0 56).bytes.take 56 = List.replicate 56 0 := by
      intro d
      have := fillZero_bytes d 0 56 (by decide)
      rw [Nat.zero_add] at this
      rw [this, List.take_zero, List.nil_append, List.take_left' (List.length_replicate)]
    rw [if_neg h56, hashBlocks_pad_long h.blocks (by rw [h.rest]; omega) (by rw [h.rest]; exact hlt), ← h.state,
      ← h.bitlen_final, ← hfill, ← hzero, ← storeBitlen_bytes, sha256Transform_toVars _ (CharArray.size _),
      sha256Transform_toVars _ (CharArray.size _)]

/-- The buffered SHA-256 of the program is the SHA-256 of FIPS 180-4, whatever the buffer of its context holds at first. -/
theorem sha256_correct (fill : CharArray 64) (M : List UInt8) : (sha256On fill M).bytes = digest M := by
  obtain ⟨A, R, he, h⟩ := sha256Init_update_fed fill M
  rw [sha256On, sha256Final_fed h, he]

-- The digest of `abc`. -/
example : (sha256 [0x61, 0x62, 0x63]).bytes =
    [0xba, 0x78, 0x16, 0xbf, 0x8f, 0x01, 0xcf, 0xea, 0x41, 0x41, 0x40, 0xde, 0x5d, 0xae, 0x22, 0x23,
      0xb0, 0x03, 0x61, 0xa3, 0x96, 0x17, 0x7a, 0x9c, 0xb4, 0x10, 0xff, 0x61, 0xf2, 0x00, 0x15, 0xad] := by
  decide +kernel

theorem sha256_bytes (M : List UInt8) : (sha256 M).bytes = digest M := by
  obtain ⟨A, R, he, h⟩ := sha256Init_update_fed (CharArray.zero 64) M
  rw [sha256, sha256On, sha256Final_fed h, he]

/-- What the buffer of the context holds before the call does not matter. -/
theorem sha256On_eq_sha256 (fill : CharArray 64) (M : List UInt8) : sha256On fill M = sha256 M := by
  obtain ⟨A, R, he, h⟩ := sha256Init_update_fed fill M
  apply CharArray.ext
  rw [sha256_bytes, sha256On, sha256Final_fed h, he]

end OsSecurity.Fms
