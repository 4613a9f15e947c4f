import OsSecurity.Server.Threads
import OsSecurity.Lemmas.Framing
import OsSecurity.Lib.Runs

/-!
# The threads of the server and its turns

A thread that has the lock and goes on alone does the whole call of the store function, so the critical sections are single steps
(`CriticalSection`); and a turn is made of the steps of its thread, of which one counts: the access to the store, or the receipt
of the line where there is none.
-/

namespace OsSecurity.Server

open CLib CriticalSection Interleaving

/-! ## The store functions, from any point on -/

/-- `store_put` behind its loop. -/
def putAt (s : Store) (key value : CString) : PutSlot → Store × Bool
  | .found i => (s.modify i (·.setValue value), true)
  | .notFound none => (s, false)
  | .notFound (some i) => (s.modify i (fun e => { (e.setKey key).setValue value with used := true }), true)

/-- The store and what is returned when a store function goes on alone. -/
def Store.finish (s : Store) : StorePc → Store × Returned
  | .put key value i freeSlot =>
    let r := putAt s key value (scanPut key i freeSlot (s.entries.drop i))
    (r.1, .call (.put r.2))
  | .get key i => (s, .call (.get (((s.entries.drop i).find? (·.holds key)).map (·.value.str))))
  | .del key i =>
    match (s.entries.drop i).findIdx? (·.holds key) with
    | some j => (s.modify (i + j) (fun e => { e with used := false }), .call (.del true))
    | none => (s, .call (.del false))
  | .list i out offset count =>
    let r := listLoop (UInt64.ofNat maxLine) out offset count (s.entries.drop i)
    (s, .list r.1 r.2)
  | .write i w ws res => ((w :: ws).foldl (fun s w => s.modify i w.apply) s, res)
  | .unlock res => (s, res)

/-- The store and the thread when it has given the lock back. -/
def threadFinish (s : Store) (p : Conn × StorePc) : Store × Handler :=
  ((s.finish p.2).1, ⟨p.1, .loop [(s.finish p.2).2.line]⟩)

/-- How many steps of the thread that takes at most, but the last. -/
def StorePc.rank : StorePc → Nat
  | .put _ _ i _ | .get _ i | .del _ i | .list i _ _ _ => (maxStore - i) + 6
  | .write _ _ ws _ => ws.length + 1
  | .unlock _ => 0

/-- An access to the store as a whole. -/
def Store.access (s : Store) (keys : CharArray maxLine) : StoreAccess → Store × Returned
  | .call c => ((s.call c).1, .call (s.call c).2)
  | .list =>
    let r := storeList s keys.str.bytes (UInt64.ofNat maxLine)
    (s, .list r.1 r.2)

/-- The turn of a connection whose thread, when it has received its line, goes on as `h` says. -/
def Handler.serve (store : Store) (keys : CharArray maxLine) (h : Handler) : Served :=
  match h.pc with
  | .backlog => { store := store, conn := h.conn, reply := [], access := none }
  | .loop lines => { store := store, conn := h.conn, reply := lines.flatten, access := none }
  | .lock a =>
    { store := (store.access keys a).1, conn := h.conn, reply := (store.access keys a).2.line, access := some a }

namespace ThreadsAux

variable {s : Store} {i : Nat} {e : StoreEntry}

/-- The head of the slots from the place of a loop on. -/
theorem drop_of_some (h : s.entries[i]? = some e) : i < maxStore ∧ s.entries.drop i = e :: s.entries.drop (i + 1) := by
  obtain ⟨hlt, rfl⟩ := List.getElem?_eq_some_iff.mp h
  exact ⟨s.size ▸ hlt, List.drop_eq_getElem_cons hlt⟩

/-- Behind the last slot the loop is at its end. -/
theorem drop_of_none (h : s.entries[i]? = none) : s.entries.drop i = [] :=
  List.drop_eq_nil_of_le (List.getElem?_eq_none_iff.mp h)

/-- Assignments to one slot, one after the other. -/
theorem foldl_writes (s : Store) (i : Nat) (ws : List SlotWrite) :
    ws.foldl (fun s w => s.modify i w.apply) s = s.modify i (fun e => ws.foldl (fun e w => w.apply e) e) := by
  induction ws generalizing s with
  | nil => exact Store.ext (List.modify_id i s.entries).symm
  | cons w ws ih =>
    rw [List.foldl_cons, ih]
    exact Store.ext (List.modify_modify_eq ..)

/-- The thread goes on with the lock, and this changes nothing of what the store function comes to. -/
def GoesOn (s : Store) (c : Conn) (pc : StorePc) (r : Store × Place Handler (Conn × StorePc)) : Prop :=
  ∃ s' pc', r = (s', .inside (c, pc')) ∧ s.finish pc = s'.finish pc' ∧ pc'.rank < pc.rank

/-- A step of the loop of `store_put`, or its end: the first slot with the key, else the first free one. -/
theorem goesOn_put (s : Store) (c : Conn) (key value : CString) (i : Nat) (freeSlot : Option Nat) :
    GoesOn s c (.put key value i freeSlot) (threadInner s (c, .put key value i freeSlot)) := by
  simp only [threadInner]
  cases he : s.entries[i]? with
  | none =>
    have hend := drop_of_none he
    cases freeSlot with
    | none => exact ⟨s, _, rfl, by rw [Store.finish, hend]; rfl, Nat.succ_pos _⟩
    | some j =>
      refine ⟨s, _, rfl, ?_, by simp [StorePc.rank]⟩
      simp only [Store.finish, hend, scanPut, putAt, foldl_writes]
      rfl
  | some e =>
    obtain ⟨hlt, hdrop⟩ := drop_of_some he
    dsimp only
    by_cases hholds : e.holds key = true
    · rw [if_pos hholds]
      refine ⟨s, _, rfl, ?_, by simp only [StorePc.rank, List.length_singleton]; omega⟩
      simp only [Store.finish, hdrop, scanPut, if_pos hholds, putAt, foldl_writes]
      rfl
    · rw [if_neg hholds]
      refine ⟨s, _, rfl, ?_, by simp only [StorePc.rank]; omega⟩
      simp only [Store.finish, hdrop, scanPut, if_neg hholds]

/-- A step of the loop of `store_get`. -/
theorem goesOn_get (s : Store) (c : Conn) (key : CString) (i : Nat) :
    GoesOn s c (.get key i) (threadInner s (c, .get key i)) := by
  simp only [threadInner]
  cases he : s.entries[i]? with
  | none => exact ⟨s, _, rfl, by rw [Store.finish, drop_of_none he]; rfl, Nat.succ_pos _⟩
  | some e =>
    obtain ⟨hlt, hdrop⟩ := drop_of_some he
    dsimp only
    by_cases hholds : e.holds key = true
    · rw [if_pos hholds]
      exact ⟨s, _, rfl, by simp [Store.finish, hdrop, hholds], Nat.succ_pos _⟩
    · rw [if_neg hholds]
      exact ⟨s, _, rfl, by simp [Store.finish, hdrop, hholds], by simp only [StorePc.rank]; omega⟩

/-- A step of the loop of `store_del`. -/
theorem goesOn_del (s : Store) (c : Conn) (key : CString) (i : Nat) :
    GoesOn s c (.del key i) (threadInner s (c, .del key i)) := by
  simp only [threadInner]
  cases he : s.entries[i]? with
  | none => exact ⟨s, _, rfl, by rw [Store.finish, drop_of_none he]; rfl, Nat.succ_pos _⟩
  | some e =>
    obtain ⟨hlt, hdrop⟩ := drop_of_some he
    dsimp only
    by_cases hholds : e.holds key = true
    · rw [if_pos hholds]
      refine ⟨s, _, rfl, ?_, by simp [StorePc.rank]⟩
      simp only [Store.finish, hdrop, List.findIdx?_cons, hholds, if_true, foldl_writes]
      rfl
    · rw [if_neg hholds]
      refine ⟨s, _, rfl, ?_, by simp only [StorePc.rank]; omega⟩
      simp only [Store.finish, hdrop, List.findIdx?_cons, if_neg hholds]
      cases (s.entries.drop (i + 1)).findIdx? (·.holds key) with
      | none => rfl
      | some j => simp [Nat.add_assoc, Nat.add_comm 1]

/-- A step of the loop of `store_list`, which stops where the buffer is full. -/
theorem goesOn_list (s : Store) (c : Conn) (i : Nat) (out : List UInt8) (offset : UInt64) (count : Nat) :
    GoesOn s c (.list i out offset count) (threadInner s (c, .list i out offset count)) := by
  simp only [threadInner]
  cases he : s.entries[i]? with
  | none => exact ⟨s, _, rfl, by rw [Store.finish, drop_of_none he]; rfl, Nat.succ_pos _⟩
  | some e =>
    obtain ⟨hlt, hdrop⟩ := drop_of_some he
    dsimp only
    by_cases hused : e.used = true
    · rw [if_pos hused]
      split
      · rename_i hfull
        refine ⟨s, _, rfl, ?_, Nat.succ_pos _⟩
        simp only [Store.finish, hdrop, listLoop, if_pos hused, if_pos hfull]
      · rename_i hfull
        refine ⟨s, _, rfl, ?_, by simp only [StorePc.rank]; omega⟩
        simp only [Store.finish, hdrop, listLoop, if_pos hused, if_neg hfull]
    · rw [if_neg hused]
      refine ⟨s, _, rfl, ?_, by simp only [StorePc.rank]; omega⟩
      simp only [Store.finish, hdrop, listLoop, if_neg hused]

/-- An assignment to a slot, of those that a store function has still to make. -/
theorem goesOn_write (s : Store) (c : Conn) (i : Nat) (w : SlotWrite) (ws : List SlotWrite) (res : Returned) :
    GoesOn s c (.write i w ws res) (threadInner s (c, .write i w ws res)) := by
  cases ws with
  | nil => exact ⟨_, _, rfl, rfl, Nat.succ_pos _⟩
  | cons w' ws => exact ⟨_, _, rfl, rfl, Nat.lt_succ_self _⟩

/-- A thread with the lock goes on with it until it is before `pthread_mutex_unlock`. -/
theorem goesOn (s : Store) (c : Conn) (pc : StorePc) :
    GoesOn s c pc (threadInner s (c, pc)) ∨ ∃ res, pc = .unlock res := by
  cases pc with
  | put key value i freeSlot => exact .inl (goesOn_put s c key value i freeSlot)
  | get key i => exact .inl (goesOn_get s c key i)
  | del key i => exact .inl (goesOn_del s c key i)
  | list i out offset count => exact .inl (goesOn_list s c i out offset count)
  | write i w ws res => exact .inl (goesOn_write s c i w ws res)
  | unlock res => exact .inr ⟨res, rfl⟩

/-- So a thread with the lock comes to its end alone. -/
theorem finishes : Finishes threadProgram threadFinish (fun p => p.2.rank) where
  goto s p s' p' h := by
    rcases goesOn s p.1 p.2 with ⟨s₁, pc₁, heq, hsame, hless⟩ | ⟨res, hres⟩
    · obtain ⟨rfl, hplace⟩ := Prod.mk.inj (heq.symm.trans h)
      obtain rfl := Place.inside.inj hplace
      exact ⟨by rw [threadFinish, threadFinish, hsame], hless⟩
    · obtain ⟨c, pc⟩ := p
      obtain rfl : pc = .unlock res := hres
      exact nomatch (Prod.mk.inj h).2
  release s p s' l h := by
    rcases goesOn s p.1 p.2 with ⟨s₁, pc₁, heq, -, -⟩ | ⟨res, hres⟩
    · exact nomatch (Prod.mk.inj (heq.symm.trans h)).2
    · obtain ⟨c, pc⟩ := p
      obtain rfl : pc = .unlock res := hres
      obtain ⟨rfl, hplace⟩ := Prod.mk.inj h
      obtain rfl := Place.outside.inj hplace
      rfl

/-- And from its beginning it is the call. -/
theorem finish_start (s : Store) (keys : CharArray maxLine) (a : StoreAccess) : s.finish (a.start keys) = s.access keys a := by
  cases a with
  | list => rfl
  | call c =>
    cases c with
    | put key value =>
      simp only [StoreAccess.start, Store.finish, Store.access, Store.call, storePut, List.drop_zero]
      cases scanPut key 0 none s.entries with
      | found i => rfl
      | notFound freeSlot => cases freeSlot <;> rfl
    | get key => rfl
    | del key =>
      simp only [StoreAccess.start, Store.finish, Store.access, Store.call, storeDel, List.drop_zero, Nat.zero_add]
      cases s.entries.findIdx? (·.holds key) <;> rfl

/-! ## A turn is what its thread does -/

section

variable (store : Store) (keys : CharArray maxLine) (c : Conn) (r : Request)

/-- A thread that only sends a line. -/
theorem serve_sends (msg : String) : (Handler.sends c [msg]).serve store keys = answer store c msg := by
  simp [Handler.sends, Handler.serve, answer]

/-- The turn of an `AUTH` is what the thread does with it. -/
theorem handleAuth_eq : handleAuth store c r = (threadAuth c r).serve store keys := by
  rw [handleAuth, threadAuth]
  split
  · rw [serve_sends]
  split
  · rw [serve_sends]
  dsimp only
  split
  · simp [Handler.sends, Handler.serve]
  · rw [serve_sends]

/-- A `PUT` is answered at once, or with what `store_put` returns. -/
theorem handlePut_eq : handlePut store c r = (threadPut c r).serve store keys := by
  rw [handlePut, threadPut]
  split
  · rw [serve_sends]
  · rfl

/-- A `GET` is answered at once, or with what `store_get` returns. -/
theorem handleGet_eq : handleGet store c r = (threadGet c r).serve store keys := by
  rw [handleGet, threadGet]
  split
  · rw [serve_sends]
  · simp only [Handler.serve, Store.access, Store.call]
    cases storeGet store r.arg1 <;> rfl

/-- A `DEL` is answered at once, or with what `store_del` returns. -/
theorem handleDel_eq : handleDel store c r = (threadDel c r).serve store keys := by
  rw [handleDel, threadDel]
  split
  · rw [serve_sends]
  · rfl

/-- A turn on a request is what the thread does with it. -/
theorem handleRequest_eq : handleRequest store c keys r = (threadRequest c r).serve store keys := by
  rw [handleRequest, threadRequest]
  split
  · exact handleAuth_eq store keys c r
  split
  · rw [serve_sends]
  split
  · exact handlePut_eq store keys c r
  split
  · exact handleGet_eq store keys c r
  split
  · exact handleDel_eq store keys c r
  split
  · rfl
  split
  · rw [serve_sends]
  · rw [serve_sends]

/-- A turn on what `recv_line` gives is what the thread does with it. -/
theorem handleReceived_eq (n : Received) : handleReceived store c keys n = (threadReceived c n).serve store keys := by
  rw [handleReceived, threadReceived]
  dsimp only
  split
  · rfl
  split
  · rw [serve_sends]
  · exact handleRequest_eq store keys _ _

end

/-! ## What the receipt of a line leaves alone -/

/-- A thread that has received its line has sent nothing since, and says at most two lines before it receives the next. -/
structure Keeps (c : Conn) (h : Handler) : Prop where
  sent : h.conn.sent = c.sent
  input : h.conn.input = c.input
  accepted : h.pc ≠ .backlog
  lines : ∀ lines, h.pc = .loop lines → lines.length ≤ 2

/-- An answer of at most two lines. -/
theorem keeps_sends {c c' : Conn} {msgs : List String} (hsent : c'.sent = c.sent) (hinput : c'.input = c.input)
    (hlen : msgs.length ≤ 2) : Keeps c (.sends c' msgs) := by
  refine ⟨hsent, hinput, nofun, ?_⟩
  rintro lines h
  obtain rfl := HandlerPc.loop.inj h
  rwa [List.length_map]

/-- A thread before the lock says nothing yet. -/
theorem keeps_lock (c : Conn) (a : StoreAccess) : Keeps c ⟨c, .lock a⟩ := ⟨rfl, rfl, nofun, nofun⟩

/-- A request neither reads nor sends: it leaves the thread with an answer to send, or before the lock. -/
theorem keeps_request (c : Conn) (r : Request) : Keeps c (threadRequest c r) := by
  have hone : ∀ msg : String, [msg].length ≤ 2 := fun _ => Nat.le_succ 1
  rw [threadRequest]
  split
  · rw [threadAuth]
    split
    · exact keeps_sends rfl rfl (hone _)
    split
    · exact keeps_sends rfl rfl (hone _)
    dsimp only
    split
    · exact keeps_sends rfl rfl (Nat.le_refl 2)
    · exact keeps_sends rfl rfl (hone _)
  split
  · exact keeps_sends rfl rfl (hone _)
  split
  · rw [threadPut]
    split
    · exact keeps_sends rfl rfl (hone _)
    · exact keeps_lock c _
  split
  · rw [threadGet]
    split
    · exact keeps_sends rfl rfl (hone _)
    · exact keeps_lock c _
  split
  · rw [threadDel]
    split
    · exact keeps_sends rfl rfl (hone _)
    · exact keeps_lock c _
  split
  · exact keeps_lock c _
  split
  · exact keeps_sends rfl rfl (hone _)
  · exact keeps_sends rfl rfl (hone _)

/-- Of what a peer has sent, `recv_line` alone takes away. -/
theorem keeps_received (c : Conn) (n : Received) : Keeps { c with input := n.rest } (threadReceived c n) := by
  rw [threadReceived]
  dsimp only
  split
  · exact keeps_sends rfl rfl (Nat.zero_le 2)
  split
  · exact keeps_sends rfl rfl (Nat.le_succ 1)
  · exact keeps_request _ _

end ThreadsAux

end OsSecurity.Server
