import OsSecurity.Fms.Crypto
import OsSecurity.Fms.Perms
import Mathlib.Logic.Function.Basic

/-!
# The file manager: file operations (`fileops.c`)

The operations on stored files: each looks the record up, checks the permission, works on the bytes under `storage/`, and logs
what it did. Which object a path denotes is up to the file system, so the operations take `resolve`, and the stored bytes are
kept by object: two paths that denote one object share its bytes. The last section puts the calls a session makes into one
`step`.

Here `files_meta.dat` and `audit.log` are lists, apart from the objects that paths denote. So this is the view of calls whose filenames
lead to none of the databases; `OsSecurity.Fms.Disk` has all files on one disk, and its calls are shown to be these for such filenames.
-/

namespace OsSecurity.Fms

open CLib

/-- What the operations work on, where no path they open leads to a database or to the log: the records of `files_meta.dat`, the contents
of the objects `fileops.c` opens by path (`none` where there is no file), and the events of `audit.log`. -/
structure World (Obj : Type*) where
  filesMeta : List FileMeta
  disk : Obj → Option (List UInt8)
  audit : List AuditEvent

/-- No databases and an empty `storage/`. -/
def World.empty {Obj : Type*} : World Obj := { filesMeta := [], disk := fun _ => none, audit := [] }

/-- `storage_path`: `snprintf` into a `char[MAX_FILENAME + 32]`. -/
def storagePath (filename : CString) : List UInt8 := (bytes "storage" ++ bytes "/" ++ filename.bytes).take (maxFilename + 31)

/-- `log_action` on the world. -/
def World.log {Obj : Type*} (w : World Obj) (io : Io) (username : CString) (action : Action) (filename : CString)
    (result : Outcome) : World Obj :=
  { w with audit := logAction io w.audit username action filename result }

/-- `if (meta.is_encrypted && passphrase) xor_cipher(buffer, n, passphrase)`. -/
def cipherIfEncrypted (m : FileMeta) (passphrase : Option CString) (buffer : List UInt8) : List UInt8 :=
  match passphrase with
  | some p => if m.isEncrypted ≠ 0 then xorCipher p buffer else buffer
  | none => buffer

section

variable {Obj : Type*} [DecidableEq Obj] (resolve : List UInt8 → Obj) (io : Io) (w : World Obj)

/-- The object that holds the bytes of a file. -/
def storageObj (filename : CString) : Obj := resolve (storagePath filename)

/-- The bytes that replace those of a file, `none` when the file is removed. -/
def World.store (filename : CString) (content : Option (List UInt8)) : World Obj :=
  { w with disk := Function.update w.disk (storageObj resolve filename) content }

/-- `fopen(path, "rb")`: the bytes there are to read. -/
def openRead (filename : CString) : Option (List UInt8) :=
  if io.ok .storageOpen then w.disk (storageObj resolve filename) else none

/-- `fs_create_file`. -/
def fsCreateFile (username group filename : CString) (permStr : Option CString) (content : CString) : World Obj × Bool :=
  let (filesMeta, created) := createFileMeta io w.filesMeta filename username group permStr
  if !created then (w.log io username .create filename .metaExistsOrInvalid, false)
  else if !io.ok .storageOpen then
    -- The record just made is rolled back.
    ({ w with filesMeta := (deleteFileMeta io filesMeta filename).1 }.log io username .create filename .ioError, false)
  else
    (({ w with filesMeta := filesMeta }.store resolve filename (some content.bytes)).log io username .create filename .success,
      true)

/-- `fs_read_file`: what the caller finds in `out_buffer` before the NUL, or `none` when 0 is returned. A `buf_size` of 0
wraps. -/
def fsReadFile (username userGroup filename : CString) (passphrase : Option CString) (bufSize : UInt64) :
    World Obj × Option (List UInt8) :=
  match findFileMeta io w.filesMeta filename with
  | none => (w.log io username .read filename .notFound, none)
  | some m =>
    if !checkPermission username userGroup m .read then (w.log io username .read filename .permissionDenied, none)
    else
      match openRead resolve io w filename with
      | none => (w.log io username .read filename .storageMissing, none)
      | some file =>
        (w.log io username .read filename .success, some (cipherIfEncrypted m passphrase (file.take (bufSize - 1).toNat)))

/-- `fs_write_file`. -/
def fsWriteFile (username userGroup filename : CString) (passphrase : Option CString) (content : CString) (append : Bool) :
    World Obj × Bool :=
  match findFileMeta io w.filesMeta filename with
  | none => (w.log io username .write filename .notFound, false)
  | some m =>
    if !checkPermission username userGroup m .write then (w.log io username .write filename .permissionDenied, false)
    else if !io.ok .malloc then (w.log io username .write filename .memoryError, false)
    else
      let buf := cipherIfEncrypted m passphrase content.bytes
      if !io.ok .storageOpen then (w.log io username .write filename .ioError, false)
      else
        -- `"ab"` writes after what is there, `"wb"` truncates; both make a file that is missing.
        let old := if append then (w.disk (storageObj resolve filename)).getD [] else []
        ((w.store resolve filename (some (old ++ buf))).log io username (if append then .append else .write) filename .success,
          true)

/-- `fs_delete_file`. What `remove` and `delete_file_meta` return is ignored. -/
def fsDeleteFile (username userGroup filename : CString) : World Obj × Bool :=
  match findFileMeta io w.filesMeta filename with
  | none => (w.log io username .delete filename .notFound, false)
  | some m =>
    if !checkPermission username userGroup m .write then (w.log io username .delete filename .permissionDenied, false)
    else
      let w := if io.ok .storageRemove then w.store resolve filename none else w
      ({ w with filesMeta := (deleteFileMeta io w.filesMeta filename).1 }.log io username .delete filename .success, true)

/-- `transform_file`. The second `fopen` is not checked: when it fails, `fwrite` gets a null stream and the process dies before
anything else is written (`none`). -/
def transformFile (username userGroup filename passphrase : CString) (expectEncrypted setTo : Int) (action : Action) :
    World Obj × Option Bool :=
  match findFileMeta io w.filesMeta filename with
  | none => (w.log io username action filename .notFound, some false)
  | some m =>
    if !checkPermission username userGroup m .write then (w.log io username action filename .permissionDenied, some false)
    else if m.isEncrypted ≠ expectEncrypted then (w.log io username action filename .wrongState, some false)
    else
      match openRead resolve io w filename with
      | none => (w.log io username action filename .storageMissing, some false)
      | some buf =>
        if !io.ok .malloc then (w.log io username action filename .memoryError, some false)
        else if !io.ok .storageRewrite then (w, none)
        else
          let w := w.store resolve filename (some (xorCipher passphrase buf))
          ({ w with filesMeta := (setEncryptedFlag io w.filesMeta filename setTo).1 }.log io username action filename .success,
            some true)

/-- `fs_encrypt_file`. -/
def fsEncryptFile (username userGroup filename passphrase : CString) : World Obj × Option Bool :=
  transformFile resolve io w username userGroup filename passphrase 0 1 .encrypt

/-- `fs_decrypt_file`. -/
def fsDecryptFile (username userGroup filename passphrase : CString) : World Obj × Option Bool :=
  transformFile resolve io w username userGroup filename passphrase 1 0 .decrypt

/-- The branch of `session_loop` that changes permissions. -/
def sessionChmod (username filename : CString) (permStr : Option CString) : World Obj × Bool :=
  let (filesMeta, changed) := chmodFile io w.filesMeta filename permStr
  ({ w with filesMeta := filesMeta }.log io username .chmod filename (if changed then .success else .failed), changed)

end

/-! ## Calls -/

/-- An operation with the arguments that are its own. -/
inductive FsOp where
  | create (permStr : Option CString) (content : CString)
  | read (passphrase : Option CString) (bufSize : UInt64)
  | write (passphrase : Option CString) (content : CString) (append : Bool)
  | delete
  | encrypt (passphrase : CString)
  | decrypt (passphrase : CString)
  | chmod (permStr : Option CString)

/-- A call by a user, and the local time it is made at. -/
structure Call where
  username : CString
  group : CString
  filename : CString
  op : FsOp
  timestr : List UInt8

/-- What the caller gets: the return value (`none` when the process dies in the call), and what a read leaves in its buffer. -/
structure Reply where
  ret : Option Bool
  buffer : Option (List UInt8)
  deriving DecidableEq

/-- The reply of a call that returns a value and fills no buffer. -/
def Reply.ofRet (ret : Option Bool) : Reply := { ret := ret, buffer := none }

section

variable {Obj : Type*} [DecidableEq Obj] (resolve : List UInt8 → Obj)

/-- A call, under what the system answers during it. -/
def exec (io : Io) (w : World Obj) (c : Call) : World Obj × Reply :=
  match c.op with
  | .create permStr content =>
    let (w, ret) := fsCreateFile resolve io w c.username c.group c.filename permStr content
    (w, .ofRet (some ret))
  | .read passphrase bufSize =>
    let (w, buffer) := fsReadFile resolve io w c.username c.group c.filename passphrase bufSize
    (w, { ret := some buffer.isSome, buffer := buffer })
  | .write passphrase content append =>
    let (w, ret) := fsWriteFile resolve io w c.username c.group c.filename passphrase content append
    (w, .ofRet (some ret))
  | .delete =>
    let (w, ret) := fsDeleteFile resolve io w c.username c.group c.filename
    (w, .ofRet (some ret))
  | .encrypt passphrase =>
    let (w, ret) := fsEncryptFile resolve io w c.username c.group c.filename passphrase
    (w, .ofRet ret)
  | .decrypt passphrase =>
    let (w, ret) := fsDecryptFile resolve io w c.username c.group c.filename passphrase
    (w, .ofRet ret)
  | .chmod permStr =>
    let (w, ret) := sessionChmod io w c.username c.filename permStr
    (w, .ofRet (some ret))

/-- A call in which every call to the system succeeds. -/
def step (w : World Obj) (c : Call) : World Obj × Reply := exec resolve (Io.allOk c.timestr) w c

end

end OsSecurity.Fms
