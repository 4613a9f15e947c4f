import OsSecurity.Fms.Audit
import OsSecurity.Fms.Crypto

/-!
# The file manager: users (`auth.c`)

`users.dat` is the list of its records, in file order; a missing file reads as no records. The salt that `generate_salt` draws is an
argument.
-/

namespace OsSecurity.Fms

open CLib

/-- What registration and login work on: the records of `users.dat`, and the events of `audit.log`. -/
structure Accounts where
  users : List User
  audit : List AuditEvent

/-- No users yet. -/
def Accounts.empty : Accounts := { users := [], audit := [] }

/-- `log_action(username, action, username, result)`. -/
def Accounts.log (w : Accounts) (io : Io) (username : CString) (action : Action) (result : Outcome) : Accounts :=
  { w with audit := logAction io w.audit username action username result }

/-- What `log_action` writes for an argument that may be `NULL`. -/
def orDash : Option CString → CString
  | some s => s
  | none => cstring "-"

/-- `strncmp(u.username, username, MAX_USERNAME) == 0`. -/
def usernameMatches (username : CString) (u : User) : Bool := strncmp maxUsername u.username.bytes username.bytes == 0

/-- `find_user`: the first record whose username compares equal. -/
def findUser (io : Io) (db : List User) (username : CString) : Option User :=
  if io.ok .usersRead then db.find? (usernameMatches username) else none

/-- The lengths that `register_user` accepts. -/
def isAcceptable (username password group : CString) : Bool :=
  !(username.length == 0 || maxUsername ≤ username.length || password.length == 0 || maxPassword ≤ password.length ||
    maxGroup ≤ group.length)

/-- The record `register_user` appends. -/
def newUser (username group : CString) (salt : CharArray saltLen) (hash : CharArray hashLen) : User :=
  { username := (CharArray.zero maxUsername).strncpy username (maxUsername - 1) (Nat.pred_le maxUsername)
    group := (CharArray.zero maxGroup).strncpy group (maxGroup - 1) (Nat.pred_le maxGroup)
    salt := salt
    hash := hash }

section

variable (io : Io) (w : Accounts)

/-- `register_user`: the files after the call, and the value returned, `none` where `hash_password` writes behind its buffer. -/
def registerUser (salt : CharArray saltLen) (username password group : Option CString) : Accounts × Option Bool :=
  match username, password, group with
  | some username, some password, some group =>
    if !isAcceptable username password group then (w.log io username .register .invalidInput, some false)
    else if (findUser io w.users username).isSome then (w.log io username .register .alreadyExists, some false)
    else
      match hashPassword password salt with
      | none => (w, none)
      | some hash =>
        if !io.ok .usersAppend then (w.log io username .register .ioError, some false)
        else
          ({ w with users := w.users ++ [newUser username group salt hash] }.log io username .register .success, some true)
  | _, _, _ => (w.log io (orDash username) .register .invalidInput, some false)

/-- `login_user`: the files after the call, and `*out_user` where 1 is returned. -/
def loginUser (username password : CString) : Accounts × Option (Option User) :=
  match findUser io w.users username with
  | none => (w.log io username .login .unknownUser, some none)
  | some u =>
    match hashPassword password u.salt with
    | none => (w, none)
    | some attemptHash =>
      if attemptHash ≠ u.hash then (w.log io username .login .wrongPassword, some none)
      else (w.log io username .login .success, some (some u))

end

/-! ## Calls -/

/-- An operation with its arguments; those of `login_user` are not compared with `NULL`. -/
inductive AuthOp where
  | register (username password group : Option CString) (salt : CharArray saltLen)
  | login (username password : CString)

/-- A call, and the local time it is made at. -/
structure AuthCall where
  op : AuthOp
  timestr : List UInt8

/-- What the caller gets: the return value (`none` where the behaviour is undefined), and the record a login fills in. -/
structure AuthReply where
  ret : Option Bool
  user : Option User
  deriving DecidableEq

/-- A call, under what the system answers during it. -/
def authExec (io : Io) (w : Accounts) : AuthOp → Accounts × AuthReply
  | .register username password group salt =>
    let (w, ret) := registerUser io w salt username password group
    (w, { ret := ret, user := none })
  | .login username password =>
    let (w, out) := loginUser io w username password
    (w, { ret := out.map (·.isSome), user := out.join })

/-- A call in which every call to the system succeeds. -/
def authStep (w : Accounts) (c : AuthCall) : Accounts × AuthReply := authExec (Io.allOk c.timestr) w c.op

end OsSecurity.Fms
