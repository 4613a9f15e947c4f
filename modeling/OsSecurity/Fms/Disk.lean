import OsSecurity.Fms.Auth
import OsSecurity.Fms.FileOps
import OsSecurity.Lib.Path
import OsSecurity.Lib.RecordFile

/-!
# The file manager: the files on disk

`users.dat`, `files_meta.dat` and `audit.log` are files of the same disk as those under `storage/`, and the names that users give lead to
any of them. So every operation is here one on bytes: the databases are read record by record, written back, and appended to, and a line
of the log goes behind whatever its file holds. An operation that reads after it wrote reads what it wrote, in the order of the source.
-/

namespace OsSecurity.Fms

open CLib

/-! ## Records -/

/-- A record of `files_meta.dat` with all its bytes: two of padding stand before the flag. -/
structure MetaRecord where
  filename : CharArray maxFilename
  owner : CharArray maxUsername
  group : CharArray maxGroup
  permissions : CharArray (permStringLen + 1)
  padding : CharArray 2
  isEncrypted : CharArray 4
  deriving DecidableEq

/-- What the fields of a record say. -/
def MetaRecord.toFileMeta (r : MetaRecord) : FileMeta :=
  { filename := r.filename
    owner := r.owner
    group := r.group
    permissions := r.permissions
    isEncrypted := bytesInt r.isEncrypted }

/-- `sizeof(User)` bytes for a record of `users.dat`. -/
def userLayout : Layout User where
  size := maxUsername + maxGroup + saltLen + hashLen
  encode u := u.username.bytes ++ (u.group.bytes ++ (u.salt.bytes ++ u.hash.bytes))
  decode mem :=
    let (username, mem) := takeField maxUsername mem
    let (group, mem) := takeField maxGroup mem
    let (salt, mem) := takeField saltLen mem
    let (hash, _) := takeField hashLen mem
    { username := username, group := group, salt := salt, hash := hash }
  size_pos := by decide
  length_encode u := by simp only [List.length_append, u.username.size, u.group.size, u.salt.size, u.hash.size, Nat.add_assoc]
  decode_encode u := by simp

/-- `sizeof(FileMeta)` bytes for a record of `files_meta.dat`. -/
def metaLayout : Layout MetaRecord where
  size := maxFilename + maxUsername + maxGroup + (permStringLen + 1) + 2 + 4
  encode r := r.filename.bytes ++ (r.owner.bytes ++ (r.group.bytes ++ (r.permissions.bytes ++ (r.padding.bytes ++ r.isEncrypted.bytes))))
  decode mem :=
    let (filename, mem) := takeField maxFilename mem
    let (owner, mem) := takeField maxUsername mem
    let (group, mem) := takeField maxGroup mem
    let (permissions, mem) := takeField (permStringLen + 1) mem
    let (padding, mem) := takeField 2 mem
    let (isEncrypted, _) := takeField 4 mem
    { filename := filename, owner := owner, group := group, permissions := permissions, padding := padding,
      isEncrypted := isEncrypted }
  size_pos := by decide
  length_encode r := by
    simp only [List.length_append, r.filename.size, r.owner.size, r.group.size, r.permissions.size, r.padding.size,
      r.isEncrypted.size, Nat.add_assoc]
  decode_encode r := by simp

/-! ## The disk -/

/-- The objects that paths denote; the two databases and the log are three of them. -/
structure Paths (Obj : Type*) where
  resolve : List UInt8 → Obj
  users_ne_files : resolve (bytes "users.dat") ≠ resolve (bytes "files_meta.dat")
  users_ne_log : resolve (bytes "users.dat") ≠ resolve (bytes "audit.log")
  files_ne_log : resolve (bytes "files_meta.dat") ≠ resolve (bytes "audit.log")

namespace Paths

variable {Obj : Type*} (paths : Paths Obj)

/-- `USERS_DB`. -/
def usersDb : Obj := paths.resolve (bytes "users.dat")

/-- `FILES_DB`. -/
def filesDb : Obj := paths.resolve (bytes "files_meta.dat")

/-- `AUDIT_LOG`. -/
def auditLog : Obj := paths.resolve (bytes "audit.log")

theorem usersDb_ne_filesDb : paths.usersDb ≠ paths.filesDb := paths.users_ne_files

theorem usersDb_ne_auditLog : paths.usersDb ≠ paths.auditLog := paths.users_ne_log

theorem filesDb_ne_auditLog : paths.filesDb ≠ paths.auditLog := paths.files_ne_log

/-- The object that holds the bytes of a file. -/
def storage (filename : CString) : Obj := storageObj paths.resolve filename

end Paths

/-- The objects paths denote for a process with a working directory, given by its components, on a file system without links. -/
def fileSystem (cwd : List (List UInt8)) : List UInt8 → List (List UInt8) := Path.resolve 47 46 cwd

/-- Different plain names are different entries of the working directory. -/
theorem fileSystem_ne (cwd : List (List UInt8)) {a b : List UInt8} (ha : Path.Plain (47 : UInt8) 46 a) (hb : Path.Plain (47 : UInt8) 46 b)
    (hne : a ≠ b) : fileSystem cwd a ≠ fileSystem cwd b := by
  rw [fileSystem, Path.resolve_plain ha, Path.resolve_plain hb]
  intro h
  exact hne (List.singleton_inj.mp (List.append_cancel_left h))

/-- The paths of such a process: the databases and the log are in its working directory. -/
def processPaths (cwd : List (List UInt8)) : Paths (List (List UInt8)) where
  resolve := fileSystem cwd
  users_ne_files := fileSystem_ne cwd (by decide) (by decide) (by decide)
  users_ne_log := fileSystem_ne cwd (by decide) (by decide) (by decide)
  files_ne_log := fileSystem_ne cwd (by decide) (by decide) (by decide)

/-- The contents of all files, `none` where there is none. -/
abbrev Disk (Obj : Type*) := Obj → Option (List UInt8)

/-- No files. -/
def Disk.empty {Obj : Type*} : Disk Obj := fun _ => none

namespace Disk

section

variable {Obj : Type*} [DecidableEq Obj] (d : Disk Obj) (o : Obj)

/-- A file after `"wb"` and what is written, or removed. -/
def store (content : Option (List UInt8)) : Disk Obj := Function.update d o content

/-- A file after `"ab"` and what is written: that goes behind what is there, and a missing file is made. -/
def append (content : List UInt8) : Disk Obj := d.store o (some ((d o).getD [] ++ content))

end

section

variable {Obj : Type*} [DecidableEq Obj] (paths : Paths Obj) (io : Io) (d : Disk Obj)

/-! ## `audit.c` -/

/-- `log_action`. -/
def logAction (username : CString) (action : Action) (target : CString) (result : Outcome) : Disk Obj :=
  if io.ok .auditAppend then
    d.append paths.auditLog
      (AuditEvent.line { timestr := io.timestr, username := username, action := action, target := target, result := result })
  else d

/-! ## `perms.c` -/

/-- The records of `files_meta.dat`; where the file is missing `fopen` fails, and there are none. -/
def metaRecords : List MetaRecord := (d paths.filesDb).elim [] metaLayout.records

/-- What they say. -/
def filesMeta : List FileMeta := (metaRecords paths d).map MetaRecord.toFileMeta

/-- `find_file_meta`: the first record whose filename compares equal. -/
def findFileMeta (filename : CString) : Option FileMeta :=
  if io.ok .findRead then (filesMeta paths d).find? (nameMatches filename) else none

/-- The record `create_file_meta` appends. -/
def newMetaRecord (filename owner group permStr : CString) : MetaRecord :=
  { filename := (CharArray.zero maxFilename).strncpy filename (maxFilename - 1) (Nat.pred_le maxFilename)
    owner := (CharArray.zero maxUsername).strncpy owner (maxUsername - 1) (Nat.pred_le maxUsername)
    group := (CharArray.zero maxGroup).strncpy group (maxGroup - 1) (Nat.pred_le maxGroup)
    permissions := ((CharArray.zero (permStringLen + 1)).strncpy permStr permStringLen (Nat.le_succ permStringLen)).set permStringLen 0
    padding := .zero 2
    isEncrypted := intBytes 0 }

/-- `create_file_meta`. -/
def createFileMeta (filename owner group : CString) (permStr : Option CString) : Disk Obj × Bool :=
  match permStr with
  | none => (d, false)
  | some p =>
    if !isValidPermString (some p) then (d, false)
    else if (findFileMeta paths io d filename).isSome then (d, false)
    else if !io.ok .createAppend then (d, false)
    else (d.append paths.filesDb (metaLayout.encode (newMetaRecord filename owner group p)), true)

/-- What the writing loop of `rewrite_meta_matching` writes for a record that matches. -/
def rewriteRecord (deleteRecord : Bool) (newPermStr : Option CString) (setEncrypted : Int) (r : MetaRecord) : List MetaRecord :=
  if deleteRecord then []
  else
    let r := match newPermStr with
      | some p => { r with permissions := (r.permissions.strncpy p permStringLen (Nat.le_succ permStringLen)).set permStringLen 0 }
      | none => r
    [if setEncrypted ≠ -1 then { r with isEncrypted := intBytes setEncrypted } else r]

/-- The writing loop of `rewrite_meta_matching`: the records written, and `*found`. -/
def writeRecords (filename : CString) (deleteRecord : Bool) (newPermStr : Option CString) (setEncrypted : Int) :
    List MetaRecord → List MetaRecord × Bool
  | [] => ([], false)
  | r :: rest =>
    let (out, found) := writeRecords filename deleteRecord newPermStr setEncrypted rest
    if nameMatches filename r.toFileMeta then (rewriteRecord deleteRecord newPermStr setEncrypted r ++ out, true)
    else (r :: out, found)

/-- `rewrite_meta_matching`: the disk after the call, and `*found`. -/
def rewriteMetaMatching (filename : CString) (deleteRecord : Bool) (newPermStr : Option CString) (setEncrypted : Int) :
    Disk Obj × Bool :=
  if !io.ok .rewriteRead then (d, false)
  else
    match d paths.filesDb with
    | none => (d, false)
    | some file =>
      if !io.ok .rewriteWrite then (d, false)
      else
        let (out, found) := writeRecords filename deleteRecord newPermStr setEncrypted (readRecords 0 (metaLayout.records file))
        (d.store paths.filesDb (some (metaLayout.file out)), found)

/-- `chmod_file`. -/
def chmodFile (filename : CString) (permStr : Option CString) : Disk Obj × Bool :=
  if !isValidPermString permStr then (d, false) else rewriteMetaMatching paths io d filename false permStr (-1)

/-- `set_encrypted_flag`. -/
def setEncryptedFlag (filename : CString) (isEncrypted : Int) : Disk Obj × Bool :=
  rewriteMetaMatching paths io d filename false none isEncrypted

/-- `delete_file_meta`. -/
def deleteFileMeta (filename : CString) : Disk Obj × Bool := rewriteMetaMatching paths io d filename true none (-1)

/-! ## `fileops.c` -/

/-- `fopen(path, "rb")`: the bytes there are to read. -/
def openRead (filename : CString) : Option (List UInt8) := if io.ok .storageOpen then d (paths.storage filename) else none

/-- `fs_create_file`. -/
def fsCreateFile (username group filename : CString) (permStr : Option CString) (content : CString) : Disk Obj × Bool :=
  let (d', created) := createFileMeta paths io d filename username group permStr
  if !created then (d'.logAction paths io username .create filename .metaExistsOrInvalid, false)
  else if !io.ok .storageOpen then
    -- The record just made is rolled back.
    ((deleteFileMeta paths io d' filename).1.logAction paths io username .create filename .ioError, false)
  else ((d'.store (paths.storage filename) (some content.bytes)).logAction paths io username .create filename .success, true)

/-- `fs_read_file`: what the caller finds in `out_buffer` before the NUL, or `none` when 0 is returned. A `buf_size` of 0
wraps. -/
def fsReadFile (username userGroup filename : CString) (passphrase : Option CString) (bufSize : UInt64) :
    Disk Obj × Option (List UInt8) :=
  match findFileMeta paths io d filename with
  | none => (d.logAction paths io username .read filename .notFound, none)
  | some m =>
    if !checkPermission username userGroup m .read then (d.logAction paths io username .read filename .permissionDenied, none)
    else
      match openRead paths io d filename with
      | none => (d.logAction paths io username .read filename .storageMissing, none)
      | some file =>
        (d.logAction paths io username .read filename .success,
          some (cipherIfEncrypted m passphrase (file.take (bufSize - 1).toNat)))

/-- `fs_write_file`. -/
def fsWriteFile (username userGroup filename : CString) (passphrase : Option CString) (content : CString) (append : Bool) :
    Disk Obj × Bool :=
  match findFileMeta paths io d filename with
  | none => (d.logAction paths io username .write filename .notFound, false)
  | some m =>
    if !checkPermission username userGroup m .write then (d.logAction paths io username .write filename .permissionDenied, false)
    else if !io.ok .malloc then (d.logAction paths io username .write filename .memoryError, false)
    else
      let buf := cipherIfEncrypted m passphrase content.bytes
      if !io.ok .storageOpen then (d.logAction paths io username .write filename .ioError, false)
      else
        let d := if append then d.append (paths.storage filename) buf else d.store (paths.storage filename) (some buf)
        (d.logAction paths io username (if append then .append else .write) filename .success, true)

/-- `fs_delete_file`. What `remove` and `delete_file_meta` return is ignored. -/
def fsDeleteFile (username userGroup filename : CString) : Disk Obj × Bool :=
  match findFileMeta paths io d filename with
  | none => (d.logAction paths io username .delete filename .notFound, false)
  | some m =>
    if !checkPermission username userGroup m .write then (d.logAction paths io username .delete filename .permissionDenied, false)
    else
      let d := if io.ok .storageRemove then d.store (paths.storage filename) none else d
      ((deleteFileMeta paths io d filename).1.logAction paths io username .delete filename .success, true)

/-- `transform_file`. The second `fopen` is not checked: when it fails, `fwrite` gets a null stream and the process dies before
anything else is written (`none`). -/
def transformFile (username userGroup filename passphrase : CString) (expectEncrypted setTo : Int) (action : Action) :
    Disk Obj × Option Bool :=
  match findFileMeta paths io d filename with
  | none => (d.logAction paths io username action filename .notFound, some false)
  | some m =>
    if !checkPermission username userGroup m .write then
      (d.logAction paths io username action filename .permissionDenied, some false)
    else if m.isEncrypted ≠ expectEncrypted then (d.logAction paths io username action filename .wrongState, some false)
    else
      match openRead paths io d filename with
      | none => (d.logAction paths io username action filename .storageMissing, some false)
      | some buf =>
        if !io.ok .malloc then (d.logAction paths io username action filename .memoryError, some false)
        else if !io.ok .storageRewrite then (d, none)
        else
          let d := d.store (paths.storage filename) (some (xorCipher passphrase buf))
          ((setEncryptedFlag paths io d filename setTo).1.logAction paths io username action filename .success, some true)

/-- `fs_encrypt_file`. -/
def fsEncryptFile (username userGroup filename passphrase : CString) : Disk Obj × Option Bool :=
  transformFile paths io d username userGroup filename passphrase 0 1 .encrypt

/-- `fs_decrypt_file`. -/
def fsDecryptFile (username userGroup filename passphrase : CString) : Disk Obj × Option Bool :=
  transformFile paths io d username userGroup filename passphrase 1 0 .decrypt

/-- The branch of `session_loop` that changes permissions. -/
def sessionChmod (username filename : CString) (permStr : Option CString) : Disk Obj × Bool :=
  let (d, changed) := chmodFile paths io d filename permStr
  (d.logAction paths io username .chmod filename (if changed then .success else .failed), changed)

/-! ## `auth.c` -/

/-- The records of `users.dat`; where the file is missing there are none. -/
def users : List User := (d paths.usersDb).elim [] userLayout.records

/-- `find_user`: the first record whose username compares equal. -/
def findUser (username : CString) : Option User := if io.ok .usersRead then (users paths d).find? (usernameMatches username) else none

/-- `register_user`: the disk after the call, and the value returned, `none` where `hash_password` writes behind its buffer. -/
def registerUser (salt : CharArray saltLen) (username password group : Option CString) : Disk Obj × Option Bool :=
  match username, password, group with
  | some username, some password, some group =>
    if !isAcceptable username password group then (d.logAction paths io username .register username .invalidInput, some false)
    else if (findUser paths io d username).isSome then (d.logAction paths io username .register username .alreadyExists, some false)
    else
      match hashPassword password salt with
      | none => (d, none)
      | some hash =>
        if !io.ok .usersAppend then (d.logAction paths io username .register username .ioError, some false)
        else
          ((d.append paths.usersDb (userLayout.encode (newUser username group salt hash))).logAction paths io username .register
            username .success, some true)
  | _, _, _ => (d.logAction paths io (orDash username) .register (orDash username) .invalidInput, some false)

/-- `login_user`: the disk after the call, and `*out_user` where 1 is returned. -/
def loginUser (username password : CString) : Disk Obj × Option (Option User) :=
  match findUser paths io d username with
  | none => (d.logAction paths io username .login username .unknownUser, some none)
  | some u =>
    match hashPassword password u.salt with
    | none => (d, none)
    | some attemptHash =>
      if attemptHash ≠ u.hash then (d.logAction paths io username .login username .wrongPassword, some none)
      else (d.logAction paths io username .login username .success, some (some u))

/-! ## Calls -/

/-- A call on a file, under what the system answers during it. -/
def exec (c : Call) : Disk Obj × Reply :=
  match c.op with
  | .create permStr content =>
    let (d, ret) := fsCreateFile paths io d c.username c.group c.filename permStr content
    (d, .ofRet (some ret))
  | .read passphrase bufSize =>
    let (d, buffer) := fsReadFile paths io d c.username c.group c.filename passphrase bufSize
    (d, { ret := some buffer.isSome, buffer := buffer })
  | .write passphrase content append =>
    let (d, ret) := fsWriteFile paths io d c.username c.group c.filename passphrase content append
    (d, .ofRet (some ret))
  | .delete =>
    let (d, ret) := fsDeleteFile paths io d c.username c.group c.filename
    (d, .ofRet (some ret))
  | .encrypt passphrase =>
    let (d, ret) := fsEncryptFile paths io d c.username c.group c.filename passphrase
    (d, .ofRet ret)
  | .decrypt passphrase =>
    let (d, ret) := fsDecryptFile paths io d c.username c.group c.filename passphrase
    (d, .ofRet ret)
  | .chmod permStr =>
    let (d, ret) := sessionChmod paths io d c.username c.filename permStr
    (d, .ofRet (some ret))

/-- A call of `auth.c`, under what the system answers during it. -/
def authExec (op : AuthOp) : Disk Obj × AuthReply :=
  match op with
  | .register username password group salt =>
    let (d, ret) := registerUser paths io d salt username password group
    (d, { ret := ret, user := none })
  | .login username password =>
    let (d, out) := loginUser paths io d username password
    (d, { ret := out.map (·.isSome), user := out.join })

end

/-- A call on a file in which every call to the system succeeds. -/
def step {Obj : Type*} [DecidableEq Obj] (paths : Paths Obj) (d : Disk Obj) (c : Call) : Disk Obj × Reply :=
  exec paths (Io.allOk c.timestr) d c

end Disk

end OsSecurity.Fms
