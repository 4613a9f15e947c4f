import OsSecurity.Lib.Loops
import OsSecurity.Lib.SlotTable
import OsSecurity.Lib.Stdio

/-!
# The server: the key-value store (`server.c`)

The store is an array of slots. Each of its operations holds `store_lock` from its first access to its last, so it is one step
of the server. The keys and values of a freed slot stay in it until the slot is used again.
-/

namespace OsSecurity.Server

open CLib

abbrev maxLine : Nat := 512
abbrev maxKey : Nat := 64
abbrev maxValue : Nat := 400
abbrev maxStore : Nat := 128

/-- `StoreEntry`. -/
structure StoreEntry where
  key : CharArray maxKey
  value : CharArray maxValue
  used : Bool
  deriving DecidableEq

/-- The array `store`. -/
structure Store where
  entries : List StoreEntry
  size : entries.length = maxStore

theorem Store.ext {s t : Store} (h : s.entries = t.entries) : s = t := by
  cases s
  cases t
  simpa using h

/-- The store as the server starts: static memory is zero. -/
def Store.empty : Store := ⟨List.replicate maxStore ⟨CharArray.zero _, CharArray.zero _, false⟩, List.length_replicate⟩

/-- An assignment to the slot `i`. -/
def Store.modify (s : Store) (i : Nat) (f : StoreEntry → StoreEntry) : Store :=
  ⟨s.entries.modify i f, by rw [List.length_modify, s.size]⟩

/-- `store[i].used && strcmp(store[i].key, key) == 0`. -/
def StoreEntry.holds (e : StoreEntry) (key : CString) : Bool := e.used && strcmp e.key.bytes key.bytes == 0

/-- How the loop of `store_put` ends: in the slot of the key, or behind the last slot with the value of `free_slot`. -/
inductive PutSlot where
  | found (i : Nat)
  | notFound (freeSlot : Option Nat)
  deriving DecidableEq, Repr

/-- The loop of `store_put`, from the slot `i` on. A `free_slot` of -1 is `none`. -/
def scanPut (key : CString) (i : Nat) (freeSlot : Option Nat) : List StoreEntry → PutSlot
  | [] => .notFound freeSlot
  | e :: rest =>
    if e.holds key then .found i
    else scanPut key (i + 1) (if !e.used && freeSlot.isNone then some i else freeSlot) rest

/-- `strncpy(e.value, value, MAX_VALUE - 1); e.value[MAX_VALUE - 1] = '\0'`. -/
def StoreEntry.setValue (e : StoreEntry) (value : CString) : StoreEntry :=
  { e with value := (e.value.strncpy value (maxValue - 1) (by decide)).set (maxValue - 1) 0 }

/-- `strncpy(e.key, key, MAX_KEY - 1); e.key[MAX_KEY - 1] = '\0'`. -/
def StoreEntry.setKey (e : StoreEntry) (key : CString) : StoreEntry :=
  { e with key := (e.key.strncpy key (maxKey - 1) (by decide)).set (maxKey - 1) 0 }

/-- `store_put`: the store after the call, and the value returned. -/
def storePut (s : Store) (key value : CString) : Store × Bool :=
  match scanPut key 0 none s.entries with
  | .found i => (s.modify i (·.setValue value), true)
  | .notFound none => (s, false)
  | .notFound (some i) => (s.modify i (fun e => { (e.setKey key).setValue value with used := true }), true)

/-- `store_get`: the string copied to `out_value`, or `none` when 0 is returned. -/
def storeGet (s : Store) (key : CString) : Option CString :=
  (s.entries.find? (·.holds key)).map (·.value.str)

/-- `store_del`: the store after the call, and the value returned. -/
def storeDel (s : Store) (key : CString) : Store × Bool :=
  match s.entries.findIdx? (·.holds key) with
  | some i => (s.modify i (fun e => { e with used := false }), true)
  | none => (s, false)

/-- The loop of `store_list`. `out` is the string in `out_buf`, `snprintf` writes behind its first `offset` bytes and cuts what
does not fit; `buf_size - offset` is computed in `size_t`. -/
def listLoop (bufSize : UInt64) (out : List UInt8) (offset : UInt64) (count : Nat) : List StoreEntry → List UInt8 × Nat
  | [] => (out, count)
  | e :: rest =>
    if e.used then
      let text := e.key.str.bytes ++ bytes " "
      let room := bufSize - offset
      let out := if room = 0 then out else out.take offset.toNat ++ text.take (room.toNat - 1)
      if room ≤ UInt64.ofNat text.length then (out, count + 1)
      else listLoop bufSize out (offset + UInt64.ofNat text.length) (count + 1) rest
    else listLoop bufSize out offset count rest

/-- `store_list`: the string in `out_buf` after the call, where the buffer held the string `out` before it, and the value
returned. -/
def storeList (s : Store) (out : List UInt8) (bufSize : UInt64) : List UInt8 × Nat := listLoop bufSize out 0 0 s.entries

/-- The variables of `store_list`: the memory from `out_buf` on, `count` and `offset`. -/
structure ListVars where
  mem : List UInt8
  count : Nat
  offset : UInt64

/-- The body of the loop of `store_list`, on that memory. -/
def listBody (bufSize : UInt64) (v : ListVars) (e : StoreEntry) : ForInStep ListVars :=
  if e.used then
    let count := v.count + 1
    let (mem, n) := snprintf v.mem v.offset.toNat (bufSize - v.offset).toNat (e.key.str.bytes ++ bytes " ")
    if n < 0 ∨ bufSize - v.offset ≤ UInt64.ofInt n then .done { v with mem := mem, count := count }
    else .yield { mem := mem, count := count, offset := v.offset + UInt64.ofInt n }
  else .yield v

/-- `store_list` on that memory: its variables when it returns `count`. -/
def storeListMem (s : Store) (mem : List UInt8) (bufSize : UInt64) : ListVars :=
  Loops.final (listBody bufSize) { mem := mem, count := 0, offset := 0 } s.entries

/-- Its variables at the start of each iteration. -/
def storeListHeads (s : Store) (mem : List UInt8) (bufSize : UInt64) : List ListVars :=
  Loops.heads (listBody bufSize) { mem := mem, count := 0, offset := 0 } s.entries

/-- A call of one of the operations on a key. -/
abbrev StoreCall := BoundedMap.Op CString CString

/-- What such a call returns. -/
abbrev StoreResult := BoundedMap.Answer CString

/-- A call on the store. -/
def Store.call (s : Store) : StoreCall → Store × StoreResult
  | .put key value => ((storePut s key value).1, .put (storePut s key value).2)
  | .get key => (s, .get (storeGet s key))
  | .del key => ((storeDel s key).1, .del (storeDel s key).2)

end OsSecurity.Server
