import OsSecurity.Fms.Common

/-!
# The file manager: I/O and the audit log (`audit.c`)

Every call of the C library that can fail has a site, and an operation runs under an `Io` that says which of its calls succeed.
One operation reaches a site at most once, so an `Io` can fail any one call of it. The local time of the call is part of the
`Io` as well.
-/

namespace OsSecurity.Fms

open CLib

/-- The calls of one operation that can fail. -/
inductive Site where
  /-- `fopen(USERS_DB, "rb")` in `find_user`. -/
  | usersRead
  /-- `fopen(USERS_DB, "ab")` in `register_user`. -/
  | usersAppend
  /-- `fopen(FILES_DB, "rb")` in `find_file_meta`. -/
  | findRead
  /-- `fopen(FILES_DB, "ab")` in `create_file_meta`. -/
  | createAppend
  /-- `fopen(FILES_DB, "rb")` in `rewrite_meta_matching`. -/
  | rewriteRead
  /-- `fopen(FILES_DB, "wb")` in `rewrite_meta_matching`. -/
  | rewriteWrite
  /-- The first `fopen(path, ...)` of an operation of `fileops.c`. -/
  | storageOpen
  /-- The second `fopen(path, "wb")` of `transform_file`. -/
  | storageRewrite
  /-- `remove(path)` in `fs_delete_file`. -/
  | storageRemove
  /-- `malloc`. -/
  | malloc
  /-- `fopen(AUDIT_LOG, "a")`. -/
  | auditAppend
  deriving DecidableEq, Repr

/-- What the system answers during one operation. -/
structure Io where
  /-- Whether the call at a site succeeds. -/
  ok : Site → Bool
  /-- What `strftime` makes of the local time. -/
  timestr : List UInt8

/-- Every call succeeds. -/
def Io.AllOk (io : Io) : Prop := ∀ s, io.ok s = true

/-- The run of an operation at a local time in which every call succeeds. -/
def Io.allOk (timestr : List UInt8) : Io := { ok := fun _ => true, timestr := timestr }

theorem Io.allOk_allOk (timestr : List UInt8) : (Io.allOk timestr).AllOk := fun _ => rfl

/-- The actions the program logs. -/
inductive Action where
  | register | login | logout | create | read | write | append | delete | encrypt | decrypt | chmod
  deriving DecidableEq, Repr

def Action.text : Action → List UInt8
  | .register => bytes "REGISTER"
  | .login => bytes "LOGIN"
  | .logout => bytes "LOGOUT"
  | .create => bytes "CREATE"
  | .read => bytes "READ"
  | .write => bytes "WRITE"
  | .append => bytes "APPEND"
  | .delete => bytes "DELETE"
  | .encrypt => bytes "ENCRYPT"
  | .decrypt => bytes "DECRYPT"
  | .chmod => bytes "CHMOD"

/-- The results the program logs. -/
inductive Outcome where
  | success | failed | metaExistsOrInvalid | ioError | notFound | permissionDenied | storageMissing | memoryError | wrongState
  | invalidInput | alreadyExists | unknownUser | wrongPassword
  deriving DecidableEq, Repr

def Outcome.text : Outcome → List UInt8
  | .success => bytes "SUCCESS"
  | .failed => bytes "FAILED"
  | .metaExistsOrInvalid => bytes "FAILED_META_EXISTS_OR_INVALID"
  | .ioError => bytes "FAILED_IO_ERROR"
  | .notFound => bytes "FAILED_NOT_FOUND"
  | .permissionDenied => bytes "FAILED_PERMISSION_DENIED"
  | .storageMissing => bytes "FAILED_STORAGE_MISSING"
  | .memoryError => bytes "FAILED_MEMORY_ERROR"
  | .wrongState => bytes "FAILED_WRONG_STATE"
  | .invalidInput => bytes "FAILED_INVALID_INPUT"
  | .alreadyExists => bytes "FAILED_ALREADY_EXISTS"
  | .unknownUser => bytes "FAILED_UNKNOWN_USER"
  | .wrongPassword => bytes "FAILED_WRONG_PASSWORD"

/-- An event of `audit.log`. -/
structure AuditEvent where
  timestr : List UInt8
  username : CString
  action : Action
  target : CString
  result : Outcome

/-- The line `log_action` writes for an event: an empty username is written as `-`. -/
def AuditEvent.line (e : AuditEvent) : List UInt8 :=
  bytes "[" ++ e.timestr ++ bytes "] user=" ++ (if e.username.bytes = [] then bytes "-" else e.username.bytes) ++
    bytes " action=" ++ e.action.text ++ bytes " target=" ++ e.target.bytes ++ bytes " result=" ++ e.result.text ++ [10]

/-- `log_action`, on the events of `audit.log`: nothing is written when the log cannot be opened. -/
def logAction (io : Io) (log : List AuditEvent) (username : CString) (action : Action) (target : CString)
    (result : Outcome) : List AuditEvent :=
  if io.ok .auditAppend then log ++ [⟨io.timestr, username, action, target, result⟩] else log

end OsSecurity.Fms
