import OsSecurity.Fms.Disk

/-!
# The file manager: the databases and the log apart from the files

Where no filename leads to a database or to the log, these might as well not be on the disk: `users.dat` is then the list of its records,
so is `files_meta.dat`, and the log is the list of its events. A `System` is a file manager of this kind. It is no model of the code by
itself: which disks stand for it is said by `Represents`, and what the calls do to both is shown to be the same.
-/

namespace OsSecurity.Fms

open CLib

/-- The records of `users.dat`, and what the file operations work on; `audit.log` is theirs. -/
structure System (Obj : Type*) where
  users : List User
  files : World Obj

/-- No databases, no log and an empty `storage/`. -/
def System.empty {Obj : Type*} : System Obj := { users := [], files := World.empty }

/-- The two databases and the log. -/
def Paths.Reserved {Obj : Type*} (paths : Paths Obj) (o : Obj) : Prop := o = paths.usersDb ∨ o = paths.filesDb ∨ o = paths.auditLog

instance {Obj : Type*} [DecidableEq Obj] (paths : Paths Obj) : DecidablePred paths.Reserved :=
  fun o => inferInstanceAs (Decidable (o = paths.usersDb ∨ o = paths.filesDb ∨ o = paths.auditLog))

/-- A disk on which the databases are whole records, those of a system, the log is what it was with the lines of the system's events behind
it, and the other files are those of the system. -/
structure Represents {Obj : Type*} (paths : Paths Obj) (base : List UInt8) (d : Disk Obj) (sys : System Obj) : Prop where
  users : (d paths.usersDb).getD [] = userLayout.file sys.users
  filesMeta : ∃ rs, (d paths.filesDb).getD [] = metaLayout.file rs ∧ rs.map MetaRecord.toFileMeta = sys.files.filesMeta
  log : (d paths.auditLog).getD [] = base ++ sys.files.audit.flatMap AuditEvent.line
  files : ∀ o, ¬paths.Reserved o → d o = sys.files.disk o

/-! ## Calls -/

/-- What the menus call, on what it works on. -/
structure Calls (σ : Type*) where
  auth : Io → σ → AuthOp → σ × AuthReply
  file : Io → σ → Call → σ × Reply
  logout : Io → σ → CString → σ

section

variable {Obj : Type*} [DecidableEq Obj]

/-- The calls on the disk. -/
def diskCalls (paths : Paths Obj) : Calls (Disk Obj) where
  auth io d op := d.authExec paths io op
  file io d c := d.exec paths io c
  logout io d username := d.logAction paths io username .logout (cstring "-") .success

/-- A call of `auth.c`. -/
def System.auth (sys : System Obj) (io : Io) (op : AuthOp) : System Obj × AuthReply :=
  let (accounts, reply) := authExec io { users := sys.users, audit := sys.files.audit } op
  ({ users := accounts.users, files := { sys.files with audit := accounts.audit } }, reply)

/-- A call of `fileops.c` or `chmod_file`. -/
def System.call (sys : System Obj) (resolve : List UInt8 → Obj) (io : Io) (c : Call) : System Obj × Reply :=
  let (files, reply) := exec resolve io sys.files c
  ({ sys with files := files }, reply)

/-- The calls on a system. -/
def systemCalls (resolve : List UInt8 → Obj) : Calls (System Obj) where
  auth io sys op := sys.auth io op
  file io sys c := sys.call resolve io c
  logout io sys username := { sys with files := sys.files.log io username .logout (cstring "-") .success }

end

/-- A call of `auth.c` or on a file, under what the system answers during it. -/
def Calls.step {σ : Type*} (calls : Calls σ) (s : σ) : Io × (AuthOp ⊕ Call) → σ × (AuthReply ⊕ Reply)
  | (io, .inl op) =>
    let (s, reply) := calls.auth io s op
    (s, .inl reply)
  | (io, .inr c) =>
    let (s, reply) := calls.file io s c
    (s, .inr reply)

end OsSecurity.Fms
