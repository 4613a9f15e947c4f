import OsSecurity.Fms.FileOps

/-!
# Helpers about the XOR cipher
-/

namespace OsSecurity.Fms

open CLib

/-- A key byte undoes itself. -/
theorem xor_xor_self (x k : UInt8) : x ^^^ k ^^^ k = x := by
  rw [UInt8.xor_assoc, UInt8.xor_self, UInt8.xor_zero]

/-- Only the same key byte undoes a key byte. -/
theorem eq_of_xor_xor (x k k' : UInt8) (h : x ^^^ k ^^^ k' = x) : k = k' := by
  have h' := congrArg (· ^^^ k') h
  simp only [xor_xor_self] at h'
  exact UInt8.xor_right_inj x |>.mp h'

/-- The cipher undoes itself. -/
@[simp] theorem xorCipher_xorCipher (p : CString) (b : List UInt8) : xorCipher p (xorCipher p b) = b :=
  Keystream.cipher_cipher (cipherKey p) xor_xor_self 0 b

@[simp] theorem xorCipher_length (p : CString) (b : List UInt8) : (xorCipher p b).length = b.length :=
  Keystream.cipher_length _ _ _ _

/-- A prefix is deciphered as part of the whole. -/
theorem xorCipher_take (p : CString) (n : Nat) (b : List UInt8) : xorCipher p (b.take n) = (xorCipher p b).take n :=
  Keystream.cipher_take _ _ _ _ _

/-- What stands behind an enciphered buffer is deciphered with the key bytes of its own position. -/
theorem xorCipher_append (p : CString) (a b : List UInt8) :
    xorCipher p (xorCipher p a ++ b) = a ++ Keystream.cipher (· ^^^ ·) (cipherKey p) a.length b := by
  have ha : Keystream.cipher (· ^^^ ·) (cipherKey p) 0 (xorCipher p a) = a := xorCipher_xorCipher p a
  have hl : (xorCipher p a).length = a.length := xorCipher_length p a
  rw [xorCipher, Keystream.cipher_append, Nat.zero_add, ha, hl]

/-- Two buffers enciphered apart and stored one after the other decipher to the two buffers exactly when the key bytes at the
positions of the second are those at the start, as far as it reaches. -/
theorem xorCipher_append_iff (p : CString) (a b : List UInt8) :
    xorCipher p (xorCipher p a ++ xorCipher p b) = a ++ b ↔ ∀ j < b.length, cipherKey p (a.length + j) = cipherKey p j := by
  rw [xorCipher_append, List.append_cancel_left_eq, xorCipher, Keystream.cipher_cipher_iff (cipherKey p) xor_xor_self eq_of_xor_xor]
  simp only [Nat.zero_add, eq_comm]

/-- The ciphertext is the plaintext exactly when the key bytes along it are zero. -/
theorem xorCipher_eq_self_iff (p : CString) (b : List UInt8) : xorCipher p b = b ↔ ∀ j < b.length, cipherKey p j = 0 := by
  have hxor : ∀ x k : UInt8, x ^^^ k = x ↔ k = 0 := by
    intro x k
    nth_rewrite 2 [← UInt8.xor_zero (a := x)]
    exact UInt8.xor_right_inj x
  rw [xorCipher, Keystream.cipher_eq_self_iff (cipherKey p) hxor]
  simp only [Nat.zero_add]

/-! ## The cipher of a file that may not be encrypted -/

/-- What is not marked as encrypted is left as it is. -/
theorem cipherIfEncrypted_plain {m : FileMeta} (hflag : m.isEncrypted = 0) (pass : Option CString) (b : List UInt8) :
    cipherIfEncrypted m pass b = b := by
  cases pass <;> simp [cipherIfEncrypted, hflag]

/-- What is marked as encrypted is enciphered with the passphrase. -/
theorem cipherIfEncrypted_sealed {m : FileMeta} (hflag : m.isEncrypted ≠ 0) (p : CString) (b : List UInt8) :
    cipherIfEncrypted m (some p) b = xorCipher p b := by
  simp [cipherIfEncrypted, hflag]

/-- The length is kept in both cases. -/
theorem cipherIfEncrypted_length (m : FileMeta) (pass : Option CString) (b : List UInt8) :
    (cipherIfEncrypted m pass b).length = b.length := by
  by_cases hflag : m.isEncrypted = 0
  · rw [cipherIfEncrypted_plain hflag]
  · cases pass with
    | none => rfl
    | some p => rw [cipherIfEncrypted_sealed hflag, xorCipher_length]

/-- What was enciphered is deciphered with the same argument, however much of it is read. -/
theorem cipherIfEncrypted_take (m : FileMeta) (pass : Option CString) (b : List UInt8) (n : Nat) :
    cipherIfEncrypted m pass ((cipherIfEncrypted m pass b).take n) = b.take n := by
  by_cases hflag : m.isEncrypted = 0
  · rw [cipherIfEncrypted_plain hflag, cipherIfEncrypted_plain hflag]
  · cases pass with
    | none => rfl
    | some p => rw [cipherIfEncrypted_sealed hflag, cipherIfEncrypted_sealed hflag, xorCipher_take, xorCipher_xorCipher]

/-- What is read is as long as what is stored: a text is read back where its bytes are, and nothing stands behind them. -/
theorem cipherIfEncrypted_append_eq_iff (m : FileMeta) (pass : Option CString) {front text : List UInt8}
    (hlength : front.length = text.length) (tail : List UInt8) :
    cipherIfEncrypted m pass (front ++ tail) = text ↔ cipherIfEncrypted m pass front = text ∧ tail = [] := by
  constructor
  · intro h
    have hlen := congrArg List.length h
    rw [cipherIfEncrypted_length, List.length_append, hlength] at hlen
    obtain rfl : tail = [] := List.length_eq_zero_iff.mp (by omega)
    exact ⟨by rwa [List.append_nil] at h, rfl⟩
  · rintro ⟨h, rfl⟩
    rw [List.append_nil, h]

end OsSecurity.Fms
