import OsSecurity.Server.Handler
import OsSecurity.Lemmas.Framing

/-!
# What the server is for

The server keeps a map of at most 128 keys for clients that have logged in. A client sends lines, and each of them is answered with one
line. Which answers a line may get is said here in terms of the map and of what is known of the client, and lines are taken one after the
other: there is no table of slots, no lock, and nothing under way between the two. How a line is read is the server's own affair, so that
is taken from there: the text of a line (`lineText`), its limit of 510 bytes, and the words it is cut into (`scanRequest`).
-/

namespace OsSecurity.Server

open CLib

/-- The map that is kept. -/
abbrev Contents := Finmap (fun _ : CString => CString)

/-- What is known of a client. -/
structure LoginState where
  authenticated : Bool
  failures : Nat
  isOpen : Bool
  deriving DecidableEq

/-- A client that is not known yet. -/
def LoginState.fresh : LoginState := { authenticated := false, failures := 0, isOpen := true }

/-- A key that is accepted: 1 to 63 bytes, none of them a control character. -/
structure IsKeyText (k : CString) : Prop where
  pos : 0 < k.length
  fits : k.length < maxKey
  noControl : ∀ c ∈ k.bytes, ¬ c < 32 ∧ c ≠ 127

/-- A pair that is accepted. -/
def IsPair (r : Request) : Prop := IsKeyText r.arg1 ∧ 0 < r.arg2.length ∧ r.arg2.length < maxValue

/-- What a request of a client may be answered, and what it does: to the map, which takes no further key when it is full though it
answers as if it did, and to what is known of the client. -/
inductive Performs (m : Contents) (c : LoginState) (r : Request) : List UInt8 → Contents → LoginState → Prop
  | already (hcmd : r.cmd = cstring "AUTH") (hauth : c.authenticated = true) : Performs m c r (bytes "ERR already_authenticated") m c
  | passed (hcmd : r.cmd = cstring "AUTH") (hauth : c.authenticated = false) (huser : (r.arg1, r.arg2) ∈ validUsers) :
      Performs m c r (bytes "OK AUTH") m { c with authenticated := true }
  | failed (hcmd : r.cmd = cstring "AUTH") (hauth : c.authenticated = false) (huser : (r.arg1, r.arg2) ∉ validUsers)
      (hmax : c.failures + 1 < maxAuthAttempts) :
      Performs m c r (bytes "ERR AUTH invalid_credentials") m { c with failures := c.failures + 1 }
  | failedLast (hcmd : r.cmd = cstring "AUTH") (hauth : c.authenticated = false) (huser : (r.arg1, r.arg2) ∉ validUsers)
      (hmax : maxAuthAttempts ≤ c.failures + 1) :
      Performs m c r (bytes "ERR AUTH invalid_credentials") m { c with failures := c.failures + 1, isOpen := false }
  | refused (hcmd : r.cmd ≠ cstring "AUTH") (hauth : c.authenticated = false) : Performs m c r (bytes "ERR not_authenticated") m c
  | put (hcmd : r.cmd = cstring "PUT") (hauth : c.authenticated = true) (hpair : IsPair r) :
      Performs m c r (bytes "OK PUT") (BoundedMap.step maxStore m (.put r.arg1 r.arg2)).1 c
  | putInvalid (hcmd : r.cmd = cstring "PUT") (hauth : c.authenticated = true) (hpair : ¬ IsPair r) :
      Performs m c r (bytes "ERR PUT invalid_input") m c
  | got (hcmd : r.cmd = cstring "GET") (hauth : c.authenticated = true) (hkey : IsKeyText r.arg1) {v : CString}
      (hheld : m.lookup r.arg1 = some v) : Performs m c r (bytes "OK GET " ++ v.bytes) m c
  | notGot (hcmd : r.cmd = cstring "GET") (hauth : c.authenticated = true) (hkey : IsKeyText r.arg1) (hheld : r.arg1 ∉ m) :
      Performs m c r (bytes "ERR GET not_found") m c
  | getInvalid (hcmd : r.cmd = cstring "GET") (hauth : c.authenticated = true) (hkey : ¬ IsKeyText r.arg1) :
      Performs m c r (bytes "ERR GET invalid_input") m c
  | deleted (hcmd : r.cmd = cstring "DEL") (hauth : c.authenticated = true) (hkey : IsKeyText r.arg1) (hheld : r.arg1 ∈ m) :
      Performs m c r (bytes "OK DEL") (m.erase r.arg1) c
  | notDeleted (hcmd : r.cmd = cstring "DEL") (hauth : c.authenticated = true) (hkey : IsKeyText r.arg1) (hheld : r.arg1 ∉ m) :
      Performs m c r (bytes "ERR DEL not_found") m c
  | delInvalid (hcmd : r.cmd = cstring "DEL") (hauth : c.authenticated = true) (hkey : ¬ IsKeyText r.arg1) :
      Performs m c r (bytes "ERR DEL invalid_input") m c
  | listed (hcmd : r.cmd = cstring "LIST") (hauth : c.authenticated = true) {ks : List CString} (hnodup : ks.Nodup)
      (hkeys : ∀ k, k ∈ ks ↔ k ∈ m) :
      Performs m c r (bytes "OK LIST " ++ bytes (toString ks.length) ++ bytes " " ++ ks.flatMap (fun k => k.bytes ++ bytes " ")) m c
  | quit (hcmd : r.cmd = cstring "QUIT") (hauth : c.authenticated = true) : Performs m c r (bytes "OK BYE") m { c with isOpen := false }
  | unknown (hcmd : ∀ name ∈ ["AUTH", "PUT", "GET", "DEL", "LIST", "QUIT"], r.cmd ≠ cstring name) (hauth : c.authenticated = true) :
      Performs m c r (bytes "ERR unknown_command") m c

/-- What a line may be answered, by the request that the server reads in it. A carriage return at its end is not of the text, and a line
of 511 bytes is too long. -/
inductive Serves (m : Contents) (c : LoginState) (line : CString) : List UInt8 → Contents → LoginState → Prop
  | request {a : List UInt8} {m' : Contents} {c' : LoginState} (hfits : line.length < maxLine - 1)
      (h : Performs m c (scanRequest (CString.ofMem (lineText line.bytes))) a m' c') : Serves m c line a m' c'
  | tooLong (hlong : maxLine - 1 ≤ line.length) : Serves m c line (bytes "ERR protocol_violation") m { c with isOpen := false }

/-- The service: the map, and what is known of the clients. -/
structure Service where
  contents : Contents
  login : Nat → LoginState

/-- The service before the first line. -/
def Service.start : Service := { contents := ∅, login := fun _ => .fresh }

/-- A line of a client, and what it was answered. -/
structure ServiceEvent where
  client : Nat
  line : CString
  answer : List UInt8

/-- The service takes lines, each of a client that it has not closed the connection to, one after the other. -/
inductive Service.Run : Service → List ServiceEvent → Service → Prop
  | done (σ : Service) : Run σ [] σ
  | next {σ τ : Service} {e : ServiceEvent} {es : List ServiceEvent} {m : Contents} {c : LoginState} (hopen : (σ.login e.client).isOpen = true)
      (hserves : Serves σ.contents (σ.login e.client) e.line e.answer m c)
      (hrest : Run { contents := m, login := Function.update σ.login e.client c } es τ) : Run σ (e :: es) τ

end OsSecurity.Server
