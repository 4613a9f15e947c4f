import OsSecurity.Lemmas.Listing

/-!
# What `LIST` answers

The keys go through a buffer of 512 bytes for the keys, one of 544 for the reply, one of 514 in `send_line` and one of 512 in the
client's `recv_line`. The last is the first to be too small: a line of 511 bytes is sent whole and not received. When the store
is empty nothing is written into the buffer for the keys, and the reply shows what was there before.
-/

namespace OsSecurity.Server

open CLib

/-- An answer to `LIST` shows the keys `ks` of a store: it is one line, with the number of the keys and each key once; the client's
`recv_line` returns the whole line, and split at its blanks it gives the keys back. -/
structure Shows (store : Store) (reply : List UInt8) (ks : List CString) : Prop where
  nodup : ks.Nodup
  complete : ∀ k, k ∈ ks ↔ k ∈ storedKeys store.entries
  sent : reply = listLine ks ++ [10]
  oneLine : 10 ∉ listLine ks
  received : ∀ (rest : List UInt8) (ending : Ending), Client.recvLine Client.maxLine ⟨reply ++ rest, ending⟩ =
    some ⟨(listLine ks).length, listLine ks, ⟨rest, ending⟩⟩
  words : (listLine ks).splitOn 32 = bytes "OK" :: bytes "LIST" :: bytes (toString ks.length) :: (ks.map (·.bytes) ++ [[]])

/-- In every state the server reaches whose store holds a key, an authenticated connection is answered a `LIST` with exactly the
line of the stored keys, and the client receives that line, if and only if the line has at most 510 bytes: 9 for the words and
blanks in front of the keys, the digits of their number, and for each key its length and one. -/
theorem list_complete_iff {s : State} (hs : Reachable s) (hne : storedKeys s.store.entries ≠ []) {t : Turn} {r : Request}
    (hp : (s.conn t.client).pending = some r) (hcmd : r.cmd = cstring "LIST")
    (hauth : (s.conn t.client).authenticated = true) :
    (∃ ks, Shows s.store (step s t).2.reply ks) ↔ listLength (storedKeys s.store.entries) ≤ 510 := by
  obtain ⟨hnodup, hkeys⟩ := ListAux.storedKeys_reachable hs
  constructor
  · rintro ⟨ks, hks⟩
    have hperm : ks.Perm (storedKeys s.store.entries) := (List.perm_ext_iff_of_nodup hks.nodup hnodup).mpr hks.complete
    have hlen : listLength ks = listLength (storedKeys s.store.entries) := by
      rw [listLength, listLength, hperm.length_eq, (hperm.map _).sum_eq]
    have hret := RequestAux.recvLoop_ret (hks.received [] .waiting)
    rw [ListAux.length_listLine, hlen] at hret
    have hpos : 9 ≤ listLength (storedKeys s.store.entries) := by
      rw [listLength, Nat.add_assoc]
      exact Nat.le_add_right _ _
    rw [show Client.maxLine - 1 = 511 from rfl] at hret
    dsimp only at hret
    omega
  · intro hfit
    have hline := ListAux.length_listLine (storedKeys s.store.entries)
    obtain ⟨c, hreply⟩ := ListAux.step_list (t := t) hp hcmd hauth
    have hsent := hreply.trans (ListAux.handleList_fits c t.keys hne (Nat.le_trans hfit (by decide)))
    have hnewline : 10 ∉ listLine (storedKeys s.store.entries) :=
      ListAux.notMem_listLine hkeys rfl (by decide) (by decide)
    refine ⟨storedKeys s.store.entries, hnodup, fun _ => Iff.rfl, hsent, hnewline, ?_, ListAux.splitOn_listLine hkeys⟩
    intro rest ending
    rw [hsent]
    refine RequestAux.client_recvLine ?_ hnewline ?_ rest ending
    · rw [hline, show Client.maxLine - 1 = 511 from rfl]
      exact Nat.lt_succ_of_le hfit
    · intro hlast
      exact ListAux.notMem_listLine (c := 13) hkeys rfl (by decide) (by decide) (List.mem_of_getLast? hlast)

/-- A client that puts a key before it lists. -/
def oneKey : Stream := ⟨bytes "AUTH alice alicepass\nPUT k v\nLIST\n", .waiting⟩

theorem list_complete_iff_oneKey :
    let s := Runs.final step (State.init (fun _ => oneKey)) (List.replicate 2 (turn 0))
    ∃ ks, Shows s.store (step s (turn 0)).2.reply ks :=
  (list_complete_iff ⟨_, _, rfl⟩ (by decide +kernel) (r := ⟨cstring "LIST", cstring "", cstring ""⟩) (by decide +kernel)
    (by decide) (by decide +kernel)).mpr (by decide +kernel)

/-- Eight keys of 63 bytes, and a `LIST`. -/
def crowding : Stream :=
  ⟨bytes "AUTH alice alicepass\n" ++
    (List.range 8).flatMap (fun i => bytes "PUT " ++ List.replicate 63 (UInt8.ofNat (97 + i)) ++ bytes " v\n") ++
    bytes "LIST\n", .waiting⟩

/-- The server before the last line of `crowding`. -/
def crowded : State := Runs.final step (State.init (fun _ => crowding)) (List.replicate 9 (turn 0))

/-- The eight keys need a line of 522 bytes: `send_line` drops its end, with the newline. -/
theorem list_cut :
    Reachable crowded ∧ (crowded.conn 0).authenticated = true ∧
      (crowded.conn 0).pending = some ⟨cstring "LIST", cstring "", cstring ""⟩ ∧ storedKeys crowded.store.entries ≠ [] ∧
      ∀ ks, ¬ Shows crowded.store (step crowded (turn 0)).2.reply ks := by
  have hlast : (crowded.conn 0).authenticated = true ∧
      (crowded.conn 0).pending = some ⟨cstring "LIST", cstring "", cstring ""⟩ ∧ storedKeys crowded.store.entries ≠ [] ∧
      (step crowded (turn 0)).2.reply.getLast? ≠ some 10 := by decide +kernel
  obtain ⟨hauth, hpending, hne, hcut⟩ := hlast
  refine ⟨⟨_, _, rfl⟩, hauth, hpending, hne, ?_⟩
  intro ks hks
  rw [hks.sent, List.getLast?_concat] at hcut
  exact hcut rfl

/-! ## The buffer for the keys -/

/-- What the stack holds where a password has been. -/
def residue : CharArray maxLine := (CharArray.zero maxLine).strncpy (cstring "bobpass") 8 (Nat.le_of_ble_eq_true rfl)

namespace ListAux

/-- The answers to a `LIST` with two contents of the buffer for the keys. -/
theorem reply_congr_iff {s : State} {i : Nat} {r : Request} (hp : (s.conn i).pending = some r) (hcmd : r.cmd = cstring "LIST")
    (hauth : (s.conn i).authenticated = true) :
    (∀ keys keys' : CharArray maxLine, (step s ⟨i, keys⟩).2.reply = (step s ⟨i, keys'⟩).2.reply) ↔
      storedKeys s.store.entries ≠ [] := by
  constructor
  · intro hsame hempty
    have hkept : ∀ keys : CharArray maxLine, storeList s.store keys.str.bytes (UInt64.ofNat maxLine) = (keys.str.bytes, 0) :=
      fun keys => listLoop_nil _ _ hempty
    have hreply := hsame (CharArray.zero maxLine) residue
    obtain ⟨c, hzero⟩ := step_list (t := ⟨i, CharArray.zero maxLine⟩) hp hcmd hauth
    obtain ⟨c', hresidue⟩ := step_list (t := ⟨i, residue⟩) hp hcmd hauth
    rw [hzero, hresidue, handleList_reply c (hkept _), handleList_reply c' (hkept _)] at hreply
    have hdiffer : sendLine ((bytes "OK LIST " ++ bytes (toString 0) ++ bytes " " ++ (CharArray.zero maxLine).str.bytes).take
        (maxLine + 31)) ≠
          sendLine ((bytes "OK LIST " ++ bytes (toString 0) ++ bytes " " ++ residue.str.bytes).take (maxLine + 31)) := by
      decide +kernel
    exact hdiffer hreply
  · intro hne keys keys'
    have hstep : step s ⟨i, keys⟩ = step s ⟨i, keys'⟩ := step_congr rfl (fun _ => hne)
    rw [hstep]

end ListAux

/-- After any run of the server, the answer to a `LIST` on an authenticated connection is the same for every two contents of the
buffer for the keys if and only if the store holds a key. A run with the same clients and the same order of turns, whatever its
buffers hold, gives the same answers and leads to the same state, as long as each `LIST` of the first run finds a key in the
store. -/
theorem list_reveals_iff (inputs : Nat → Stream) (ts : List Turn) :
    (∀ (i : Nat) (r : Request), ((Runs.final step (State.init inputs) ts).conn i).pending = some r → r.cmd = cstring "LIST" →
      ((Runs.final step (State.init inputs) ts).conn i).authenticated = true →
        ((∀ keys keys' : CharArray maxLine, (step (Runs.final step (State.init inputs) ts) ⟨i, keys⟩).2.reply =
            (step (Runs.final step (State.init inputs) ts) ⟨i, keys'⟩).2.reply) ↔
          storedKeys (Runs.final step (State.init inputs) ts).store.entries ≠ [])) ∧
    ∀ ts' : List Turn, List.Forall₂ (fun t t' : Turn => t.client = t'.client) ts ts' →
      (∀ before t after, ts = before ++ t :: after →
        (step (Runs.final step (State.init inputs) before) t).2.access = some .list →
          storedKeys (Runs.final step (State.init inputs) before).store.entries ≠ []) →
        (Runs.trace step (State.init inputs) ts).map (·.2) = (Runs.trace step (State.init inputs) ts').map (·.2) ∧
          Runs.final step (State.init inputs) ts = Runs.final step (State.init inputs) ts' := by
  constructor
  · intro i r hp hcmd hauth
    exact ListAux.reply_congr_iff hp hcmd hauth
  · intro ts' hturns hlist
    have hrun := Runs.run_congr hturns (fun before t after t' hts hclient =>
      ListAux.step_congr hclient (hlist before t after hts))
    exact ⟨hrun.2, hrun.1⟩

/-- The answers to the client of `oneKey` do not depend on the stack. -/
theorem list_reveals_iff_oneKey :
    let s := Runs.final step (State.init (fun _ => oneKey)) (List.replicate 2 (turn 0))
    (∀ keys keys' : CharArray maxLine, (step s ⟨0, keys⟩).2.reply = (step s ⟨0, keys'⟩).2.reply) ∧
      (Runs.trace step (State.init (fun _ => oneKey)) (List.replicate 3 (turn 0))).map (·.2) =
        (Runs.trace step (State.init (fun _ => oneKey)) (List.replicate 3 ⟨0, residue⟩)).map (·.2) := by
  refine ⟨((list_reveals_iff (fun _ => oneKey) (List.replicate 2 (turn 0))).1 0 ⟨cstring "LIST", cstring "", cstring ""⟩
    (by decide +kernel) (by decide) (by decide +kernel)).mpr (by decide +kernel), ?_⟩
  refine ((list_reveals_iff (fun _ => oneKey) (List.replicate 3 (turn 0))).2 (List.replicate 3 ⟨0, residue⟩) ?_ ?_).1
  · exact .cons rfl (.cons rfl (.cons rfl .nil))
  · intro before t after hturns haccess
    have hlen : before.length < 3 := by
      have h := congrArg List.length hturns
      rw [List.length_replicate, List.length_append, List.length_cons] at h
      omega
    have hmem : ∀ t' ∈ before ++ t :: after, t' = turn 0 := fun t' ht' => List.eq_of_mem_replicate (hturns ▸ ht')
    have hbefore : before = List.replicate before.length (turn 0) :=
      List.eq_replicate_of_mem (fun t' ht' => hmem t' (List.mem_append_left _ ht'))
    obtain rfl : t = turn 0 := hmem t (List.mem_append_right _ List.mem_cons_self)
    rw [hbefore] at haccess ⊢
    generalize before.length = n at hlen haccess ⊢
    rcases n with _ | _ | _ | n
    · exact absurd haccess (by decide +kernel)
    · exact absurd haccess (by decide +kernel)
    · decide +kernel
    · exact absurd hlen (Nat.not_lt.mpr (Nat.le_add_left 3 n))

/-- A client that lists the empty store. -/
def newcomer : Stream := ⟨bytes "AUTH alice alicepass\nLIST\n", .waiting⟩

/-- The empty store is listed with what was on the stack. -/
theorem list_reveals_residue :
    let s := Runs.final step (State.init (fun _ => newcomer)) [turn 0]
    Reachable s ∧ (s.conn 0).authenticated = true ∧
      (s.conn 0).pending = some ⟨cstring "LIST", cstring "", cstring ""⟩ ∧
      (step s ⟨0, CharArray.zero maxLine⟩).2.reply = bytes "OK LIST 0 \n" ∧
      (step s ⟨0, residue⟩).2.reply = bytes "OK LIST 0 bobpass\n" ∧
      (step s ⟨0, CharArray.zero maxLine⟩).2.reply ≠ (step s ⟨0, residue⟩).2.reply :=
  ⟨⟨_, _, rfl⟩, by decide +kernel⟩

end OsSecurity.Server
