import OsSecurity.Fms.Audit

/-!
# The file manager: metadata and permissions (`perms.c`)

`files_meta.dat` is the list of its records, in file order; a missing file reads as no records. A `const char *` that the code
compares with `NULL` is an `Option`.
-/

namespace OsSecurity.Fms

open CLib

/-- `expected_type`. -/
def expectedType : List UInt8 := bytes "rwxrwxrwx"

/-- `is_valid_perm_string`. -/
def isValidPermString : Option CString → Bool
  | none => false
  | some p =>
    p.length == permStringLen &&
      (List.range permStringLen).all (fun i =>
        p.bytes.getD i 0 == expectedType.getD i 0 || p.bytes.getD i 0 == 45)

/-- `strncmp(m.filename, filename, MAX_FILENAME) == 0`. -/
def nameMatches (filename : CString) (m : FileMeta) : Bool :=
  strncmp maxFilename m.filename.bytes filename.bytes == 0

/-- `find_file_meta`: the first record whose filename compares equal. -/
def findFileMeta (io : Io) (db : List FileMeta) (filename : CString) : Option FileMeta :=
  if io.ok .findRead then db.find? (nameMatches filename) else none

/-- The record `create_file_meta` appends. -/
def newFileMeta (filename owner group permStr : CString) : FileMeta :=
  { filename := (CharArray.zero maxFilename).strncpy filename (maxFilename - 1) (by decide)
    owner := (CharArray.zero maxUsername).strncpy owner (maxUsername - 1) (by decide)
    group := (CharArray.zero maxGroup).strncpy group (maxGroup - 1) (by decide)
    permissions := ((CharArray.zero (permStringLen + 1)).strncpy permStr permStringLen (by decide)).set permStringLen 0
    isEncrypted := 0 }

/-- `create_file_meta`: the database after the call, and the value returned. -/
def createFileMeta (io : Io) (db : List FileMeta) (filename owner group : CString) (permStr : Option CString) :
    List FileMeta × Bool :=
  match permStr with
  | none => (db, false)
  | some p =>
    if !isValidPermString (some p) then (db, false)
    else if (findFileMeta io db filename).isSome then (db, false)
    else if !io.ok .createAppend then (db, false)
    else (db ++ [newFileMeta filename owner group p], true)

/-- The size of the staging array `records`. -/
abbrev maxRecords : Nat := 1024

/-- The reading loop of `rewrite_meta_matching`: `while (fread(...) == 1 && count < 1024) records[count++] = m`. -/
def readRecords {α : Type*} (count : Nat) : List α → List α
  | [] => []
  | m :: rest => if count < maxRecords then m :: readRecords (count + 1) rest else []

/-- What the writing loop of `rewrite_meta_matching` writes for a record that matches. -/
def rewriteRecord (deleteRecord : Bool) (newPermStr : Option CString) (setEncrypted : Int) (m : FileMeta) : List FileMeta :=
  if deleteRecord then []
  else
    let m := match newPermStr with
      | some p => { m with permissions := (m.permissions.strncpy p permStringLen (by decide)).set permStringLen 0 }
      | none => m
    [if setEncrypted ≠ -1 then { m with isEncrypted := setEncrypted } else m]

/-- The writing loop of `rewrite_meta_matching`: the records written, and `*found`. -/
def writeRecords (filename : CString) (deleteRecord : Bool) (newPermStr : Option CString) (setEncrypted : Int) :
    List FileMeta → List FileMeta × Bool
  | [] => ([], false)
  | m :: rest =>
    let (out, found) := writeRecords filename deleteRecord newPermStr setEncrypted rest
    if nameMatches filename m then (rewriteRecord deleteRecord newPermStr setEncrypted m ++ out, true)
    else (m :: out, found)

/-- `rewrite_meta_matching`: the database after the call, and `*found`. The return value is not used by any caller. -/
def rewriteMetaMatching (io : Io) (db : List FileMeta) (filename : CString) (deleteRecord : Bool)
    (newPermStr : Option CString) (setEncrypted : Int) : List FileMeta × Bool :=
  if !io.ok .rewriteRead then (db, false)
  else if !io.ok .rewriteWrite then (db, false)
  else writeRecords filename deleteRecord newPermStr setEncrypted (readRecords 0 db)

/-- `chmod_file`. -/
def chmodFile (io : Io) (db : List FileMeta) (filename : CString) (permStr : Option CString) : List FileMeta × Bool :=
  if !isValidPermString permStr then (db, false) else rewriteMetaMatching io db filename false permStr (-1)

/-- `set_encrypted_flag`. -/
def setEncryptedFlag (io : Io) (db : List FileMeta) (filename : CString) (isEncrypted : Int) : List FileMeta × Bool :=
  rewriteMetaMatching io db filename false none isEncrypted

/-- `delete_file_meta`. -/
def deleteFileMeta (io : Io) (db : List FileMeta) (filename : CString) : List FileMeta × Bool :=
  rewriteMetaMatching io db filename true none (-1)

/-- `base_index` in `check_permission`: where the bits of the actor start. -/
def baseIndex (username userGroup : CString) (m : FileMeta) : Nat :=
  if strncmp maxUsername username.bytes m.owner.bytes = 0 then 0
  else if strncmp maxGroup userGroup.bytes m.group.bytes = 0 then 3
  else 6

/-- `check_permission`. -/
def checkPermission (username userGroup : CString) (m : FileMeta) (perm : PermType) : Bool :=
  m.permissions.bytes.getD (baseIndex username userGroup m + perm.index) 0 != 45

end OsSecurity.Fms
