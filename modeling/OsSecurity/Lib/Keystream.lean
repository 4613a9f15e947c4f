import Mathlib.Data.List.Basic

/-!
# Stream ciphers

A stream cipher combines the symbol at position `i` of a message with the key symbol of position `i`. Everything a program needs
of one is in how positions add up: the cipher of a message cut in two is the cipher of the parts, each at its own position, and
a cipher whose combination undoes itself undoes itself at the same position, and only there.
-/

namespace Keystream

variable {α κ : Type*} (op : α → κ → α) (key : Nat → κ)

/-- The cipher of a message whose first symbol stands at position `i`. -/
def cipher : Nat → List α → List α
  | _, [] => []
  | i, x :: xs => op x (key i) :: cipher (i + 1) xs

@[simp] theorem cipher_nil (i : Nat) : cipher op key i [] = [] := rfl

@[simp] theorem cipher_cons (i : Nat) (x : α) (xs : List α) :
    cipher op key i (x :: xs) = op x (key i) :: cipher op key (i + 1) xs := rfl

@[simp] theorem cipher_length (i : Nat) (xs : List α) : (cipher op key i xs).length = xs.length := by
  induction xs generalizing i with
  | nil => rfl
  | cons x xs ih => simp [ih]

/-- The second part of a message is enciphered at the position where the first part ends. -/
theorem cipher_append (i : Nat) (xs ys : List α) :
    cipher op key i (xs ++ ys) = cipher op key i xs ++ cipher op key (i + xs.length) ys := by
  induction xs generalizing i with
  | nil => simp
  | cons x xs ih =>
    simp only [List.cons_append, cipher_cons, ih, List.length_cons]
    rw [show i + 1 + xs.length = i + (xs.length + 1) from by omega]

/-- The cipher of a prefix is the prefix of the cipher. -/
theorem cipher_take (i n : Nat) (xs : List α) : cipher op key i (xs.take n) = (cipher op key i xs).take n := by
  induction xs generalizing i n with
  | nil => simp
  | cons x xs ih =>
    cases n with
    | zero => simp
    | succ n => simp [ih]

variable {op}

/-- When the combination undoes itself, so does the cipher at one position. -/
theorem cipher_cipher (hop : ∀ x k, op (op x k) k = x) (i : Nat) (xs : List α) :
    cipher op key i (cipher op key i xs) = xs := by
  induction xs generalizing i with
  | nil => rfl
  | cons x xs ih => simp [hop, ih]

/-- The cipher changes nothing exactly when every key symbol along the message is neutral. -/
theorem cipher_eq_self_iff {e : κ} (hop : ∀ x k, op x k = x ↔ k = e) (i : Nat) (xs : List α) :
    cipher op key i xs = xs ↔ ∀ n < xs.length, key (i + n) = e := by
  induction xs generalizing i with
  | nil => simp
  | cons x xs ih =>
    simp only [cipher_cons, List.cons.injEq, hop, ih]
    constructor
    · rintro ⟨h0, hs⟩ n hn
      cases n with
      | zero => exact h0
      | succ n =>
        rw [Nat.add_comm n 1, ← Nat.add_assoc]
        exact hs n (Nat.lt_of_succ_lt_succ hn)
    · intro h
      refine ⟨h 0 (Nat.succ_pos _), fun n hn => ?_⟩
      rw [Nat.add_assoc, Nat.add_comm 1 n]
      exact h (n + 1) (Nat.succ_lt_succ hn)

/-- Deciphering at another position gives the message back exactly when the key symbols of the two positions agree all along the
message, if the combination undoes itself and tells keys apart. -/
theorem cipher_cipher_iff (hop : ∀ x k, op (op x k) k = x) (hinj : ∀ x k k', op (op x k) k' = x → k = k') (i j : Nat)
    (xs : List α) :
    cipher op key j (cipher op key i xs) = xs ↔ ∀ n < xs.length, key (i + n) = key (j + n) := by
  induction xs generalizing i j with
  | nil => simp
  | cons x xs ih =>
    simp only [cipher_cons, List.cons.injEq, ih]
    constructor
    · rintro ⟨h0, hs⟩ n hn
      cases n with
      | zero => exact hinj x _ _ h0
      | succ n =>
        have := hs n (by simpa using hn)
        rwa [show i + 1 + n = i + (n + 1) from by omega, show j + 1 + n = j + (n + 1) from by omega] at this
    · intro h
      refine ⟨?_, fun n hn => ?_⟩
      · have h0 : key i = key j := h 0 (by simp)
        rw [← h0, hop]
      · have := h (n + 1) (by simpa using hn)
        rwa [show i + (n + 1) = i + 1 + n from by omega, show j + (n + 1) = j + 1 + n from by omega] at this

end Keystream
