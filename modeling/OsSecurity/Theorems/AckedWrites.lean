import OsSecurity.Lemmas.Requests

/-!
# Acknowledged writes

`handle_client` does not look at what `store_put` returns: it answers `OK PUT` when the store is full as well. A value that was
put with this answer is got later exactly when the store had room for its key.
-/

namespace OsSecurity.Server

open CLib SlotTable

/-- A value of 1 to 399 printable characters, the first not a blank. -/
structure IsValue (v : CString) : Prop where
  pos : 0 < v.length
  fits : v.length < maxValue
  printable : v.bytes.all isPrint = true
  first : v.bytes.head? ≠ some 32

namespace AckedAux

open RequestAux

theorem isLineValue_of_isValue {v : CString} (hv : IsValue v) : IsLineValue v where
  pos := hv.pos
  fits := hv.fits
  noNewline := notMem_of_forall (List.all_eq_true.mp hv.printable) rfl
  first c hc := by
    have hne : c ≠ 32 := fun h => hv.first (h ▸ hc)
    have hprint : isPrint c = true := List.all_eq_true.mp hv.printable c (List.mem_of_head? hc)
    rw [isPrint, Bool.and_eq_true, decide_eq_true_eq] at hprint
    exact isSpace_of_lt (UInt8.lt_of_le_of_ne hprint.1 hne.symm)
  last h := notMem_of_forall (List.all_eq_true.mp hv.printable) rfl (List.mem_of_getLast? h)

/-- A `GET` of a value that the store holds or does not hold for the key at all is answered with it when it is held. -/
theorem get_reply_iff {s : State} {t : Turn} {k v : CString} (hk : IsKey k) (hv : IsValue v)
    (hsend : (s.conn t.client).Sends (getLine k)) {held : Prop}
    (hheld : held ∧ storeGet s.store k = some v ∨ ¬ held ∧ storeGet s.store k = none) :
    (step s t).2.reply = bytes "OK GET " ++ v.bytes ++ [10] ↔ (s.conn t.client).authenticated = true ∧ held := by
  have herr : ∀ msg : List UInt8, msg.head? = some 69 → msg ≠ bytes "OK GET " ++ v.bytes ++ [10] := by
    intro msg hmsg h
    rw [h] at hmsg
    exact absurd (Option.some.inj hmsg) (by decide)
  rw [step_get hk hsend]
  cases (s.conn t.client).authenticated with
  | false => simpa using herr (bytes "ERR not_authenticated\n") rfl
  | true =>
    rcases hheld with ⟨hyes, hget⟩ | ⟨hno, hget⟩
    · rw [hget, if_pos rfl]
      exact ⟨fun _ => ⟨rfl, hyes⟩, fun _ => sendLine_value hv.fits⟩
    · rw [hget, if_pos rfl]
      exact ⟨fun h => absurd h (herr (bytes "ERR GET not_found\n") rfl), fun h => absurd h.2 hno⟩

end AckedAux

/-- One client puts, another lists and gets. -/
def sharing (i : Nat) : Stream :=
  if i = 0 then ⟨bytes "AUTH alice alicepass\nPUT k some value\n", .waiting⟩
  else ⟨bytes "AUTH bob bobpass\nLIST\nGET k\n", .waiting⟩

/-- A client that fills the store, puts one more value and gets it. -/
def filling : Stream :=
  let key (i : Nat) : List UInt8 := [UInt8.ofNat (97 + i / 16), UInt8.ofNat (97 + i % 16)]
  ⟨bytes "AUTH alice alicepass\n" ++ (List.range 128).flatMap (fun i => bytes "PUT " ++ key i ++ bytes " v\n") ++
    bytes "PUT z v\nGET z\n", .closed⟩

/-- The server before the last two lines of `filling`. -/
def filled : State := Runs.final step (State.init (fun _ => filling)) (List.replicate 129 (turn 0))

end OsSecurity.Server
