import OsSecurity.Fms.FileOps
import OsSecurity.Lemmas.Perms
import OsSecurity.Lib.Runs
import Mathlib.Data.List.Induction
import Mathlib.Data.Set.Operations
import Mathlib.Tactic.SplitIfs

/-!
# Helpers about the file operations

What one call can do when its I/O succeeds is said once, by `Effect`: each call is refused, or did what its operation is for to
the record and the bytes of the file it names. The results about runs go by cases on it.
-/

namespace OsSecurity.Fms

open CLib

@[simp] theorem Io.allOk_ok (timestr : List UInt8) (s : Site) : (Io.allOk timestr).ok s = true := rfl

section

variable {Obj : Type*}

/-- The record the operations find under a name. -/
def World.record (w : World Obj) (f : CString) : Option FileMeta := w.filesMeta.find? (nameMatches f)

/-- The action an operation logs: a write logs an append as such once it succeeds. -/
def FsOp.action : FsOp → Outcome → Action
  | .create _ _, _ => .create
  | .read _ _, _ => .read
  | .write _ _ append, result => if append && result == .success then .append else .write
  | .delete, _ => .delete
  | .encrypt _, _ => .encrypt
  | .decrypt _, _ => .decrypt
  | .chmod _, _ => .chmod

/-- A write that fails is logged as one, though it was to append. -/
theorem FsOp.action_write_of_ne {pass : Option CString} {content : CString} {append : Bool} {result : Outcome} (h : result ≠ .success) :
    (FsOp.write pass content append).action result = .write := by
  simp [FsOp.action, h]

/-- A write that succeeds is logged as what it was. -/
theorem FsOp.action_write_success (pass : Option CString) (content : CString) (append : Bool) :
    (FsOp.write pass content append).action .success = if append then .append else .write := by
  simp [FsOp.action]

/-- A call given by literals. -/
def Call.of (username group filename : String) (op : FsOp) : Call :=
  { username := cstring username, group := cstring group, filename := cstring filename, op := op, timestr := [] }

/-- The event a call logs. -/
def Call.event (c : Call) (result : Outcome) : AuditEvent :=
  { timestr := c.timestr, username := c.username, action := c.op.action result, target := c.filename, result := result }

/-- The world after a call logged its result. -/
def World.logged (w : World Obj) (c : Call) (result : Outcome) : World Obj := { w with audit := w.audit ++ [c.event result] }

@[simp] theorem logged_filesMeta (w : World Obj) (c : Call) (o : Outcome) : (w.logged c o).filesMeta = w.filesMeta := rfl
@[simp] theorem logged_disk (w : World Obj) (c : Call) (o : Outcome) : (w.logged c o).disk = w.disk := rfl
@[simp] theorem logged_record (w : World Obj) (c : Call) (o : Outcome) : (w.logged c o).record = w.record := rfl

/-- When no I/O fails a line is logged with the action of the call. -/
theorem log_allOk (w : World Obj) (c : Call) (o : Outcome) {a : Action} (ha : c.op.action o = a) :
    w.log (Io.allOk c.timestr) c.username a c.filename o = w.logged c o := by
  subst ha
  rfl

end

section

variable {Obj : Type*} [DecidableEq Obj] (resolve : List UInt8 → Obj)

@[simp] theorem store_filesMeta (w : World Obj) (f : CString) (b : Option (List UInt8)) :
    (w.store resolve f b).filesMeta = w.filesMeta := rfl

@[simp] theorem store_audit (w : World Obj) (f : CString) (b : Option (List UInt8)) :
    (w.store resolve f b).audit = w.audit := rfl

@[simp] theorem store_disk_self (w : World Obj) (f : CString) (b : Option (List UInt8)) :
    (w.store resolve f b).disk (storageObj resolve f) = b := Function.update_self _ _ _

/-- Storing a file's bytes leaves the objects alone that do not hold them. -/
theorem store_disk_ne (w : World Obj) (f : CString) (b : Option (List UInt8)) {o : Obj} (h : o ≠ storageObj resolve f) :
    (w.store resolve f b).disk o = w.disk o := Function.update_of_ne h _ _

/-- The names of a set have less than 64 bytes, and different ones denote different objects. -/
structure Distinct (names : Set CString) : Prop where
  fits : ∀ f ∈ names, f.length < maxFilename
  injOn : Set.InjOn (storageObj resolve) names

omit [DecidableEq Obj] in
variable {resolve} in
/-- Two of the names denote two objects. -/
theorem Distinct.ne {names : Set CString} (h : Distinct resolve names) {f g : CString} (hf : f ∈ names) (hg : g ∈ names)
    (hne : f ≠ g) : storageObj resolve f ≠ storageObj resolve g :=
  fun he => hne (h.injOn hf hg he)

/-- The path of a name that fits a record is not cut. -/
theorem storagePath_eq {f : CString} (hf : f.length ≤ maxFilename) : storagePath f = bytes "storage" ++ 47 :: f.bytes := by
  rw [storagePath, List.take_of_length_le]
  · rfl
  · have hlen : (bytes "storage" ++ bytes "/").length = 8 := rfl
    have hle : f.bytes.length ≤ 64 := hf
    rw [List.length_append, hlen]
    change 8 + f.bytes.length ≤ 95
    omega

/-- On a file system without links or aliases, where a path is an object of its own, different names denote different
objects. -/
theorem distinct_id : Distinct (id : List UInt8 → List UInt8) {f | f.length < maxFilename} := by
  refine ⟨fun f hf => hf, ?_⟩
  intro f hf g hg h
  simp only [storageObj, id_eq, storagePath_eq (Nat.le_of_lt hf), storagePath_eq (Nat.le_of_lt hg)] at h
  exact CString.ext (List.cons_injective (List.append_cancel_left h))

/-! ## Each operation when its I/O succeeds -/

omit [DecidableEq Obj] in
@[simp] theorem openRead_allOk (timestr : List UInt8) (w : World Obj) (f : CString) :
    openRead resolve (Io.allOk timestr) w f = w.disk (storageObj resolve f) := rfl

omit [DecidableEq Obj] in
/-- When no I/O fails a record is found by its name. -/
theorem findFileMeta_allOk (timestr : List UInt8) (w : World Obj) (f : CString) :
    findFileMeta (Io.allOk timestr) w.filesMeta f = w.record f :=
  findFileMeta_eq _ f rfl

section

variable (w : World Obj) (c : Call)

/-- `fs_create_file`, when no I/O fails. -/
theorem step_create {permStr : Option CString} {content : CString} (hop : c.op = .create permStr content) :
    step resolve w c =
      match permStr with
      | none => (w.logged c .metaExistsOrInvalid, .ofRet (some false))
      | some p =>
        if isValidPermString (some p) = true ∧ w.record c.filename = none then
          ({ w with filesMeta := w.filesMeta ++ [newFileMeta c.filename c.username c.group p] }.store resolve c.filename
            (some content.bytes) |>.logged c .success, .ofRet (some true))
        else (w.logged c .metaExistsOrInvalid, .ofRet (some false)) := by
  have hact : ∀ o, c.op.action o = .create := fun o => by rw [hop]; rfl
  have hrefused : createFileMeta (Io.allOk c.timestr) w.filesMeta c.filename c.username c.group permStr = (w.filesMeta, false) →
      step resolve w c = (w.logged c .metaExistsOrInvalid, .ofRet (some false)) := by
    intro h
    simp [step, exec, hop, fsCreateFile, h, log_allOk w c .metaExistsOrInvalid (hact _)]
  cases permStr with
  | none => exact hrefused rfl
  | some p =>
    by_cases hp : isValidPermString (some p) = true
    · cases hm : w.record c.filename with
      | some m =>
        rw [hrefused (by simp [createFileMeta, hp, findFileMeta_allOk, hm])]
        simp
      | none =>
        have h : createFileMeta (Io.allOk c.timestr) w.filesMeta c.filename c.username c.group (some p) =
            (w.filesMeta ++ [newFileMeta c.filename c.username c.group p], true) := by
          simp [createFileMeta, hp, findFileMeta_allOk, hm]
        simp only [step, exec, hop, fsCreateFile, h, Io.allOk_ok, Bool.not_true, Bool.false_eq_true, if_false,
          log_allOk _ c _ (hact _), hp, and_self, if_true]
    · rw [hrefused (by simp [createFileMeta, hp])]
      simp [hp]

/-- `fs_read_file`, when no I/O fails. -/
theorem step_read {pass : Option CString} {bufSize : UInt64} (hop : c.op = .read pass bufSize) :
    step resolve w c =
      match w.record c.filename with
      | none => (w.logged c .notFound, .ofRet (some false))
      | some m =>
        if checkPermission c.username c.group m .read = true then
          match w.disk (storageObj resolve c.filename) with
          | none => (w.logged c .storageMissing, .ofRet (some false))
          | some file => (w.logged c .success,
              { ret := some true, buffer := some (cipherIfEncrypted m pass (file.take (bufSize - 1).toNat)) })
        else (w.logged c .permissionDenied, .ofRet (some false)) := by
  have hact : ∀ o, c.op.action o = .read := fun o => by rw [hop]; rfl
  simp only [step, exec, hop, fsReadFile, findFileMeta_allOk, openRead_allOk, log_allOk w c _ (hact _)]
  cases w.record c.filename with
  | none => rfl
  | some m =>
    by_cases hperm : checkPermission c.username c.group m .read = true
    · cases w.disk (storageObj resolve c.filename) <;> simp [hperm, Reply.ofRet]
    · simp [hperm, Reply.ofRet]

/-- `fs_write_file`, when no I/O fails: a write puts the content for what was there, an append behind it. -/
theorem step_write {pass : Option CString} {content : CString} {append : Bool} (hop : c.op = .write pass content append) :
    step resolve w c =
      match w.record c.filename with
      | none => (w.logged c .notFound, .ofRet (some false))
      | some m =>
        if checkPermission c.username c.group m .write = true then
          (w.store resolve c.filename
            (some ((if append then (w.disk (storageObj resolve c.filename)).getD [] else []) ++
              cipherIfEncrypted m pass content.bytes)) |>.logged c .success, .ofRet (some true))
        else (w.logged c .permissionDenied, .ofRet (some false)) := by
  have hact : ∀ o, o ≠ .success → c.op.action o = .write := fun o ho => hop ▸ FsOp.action_write_of_ne ho
  have hsuccess : c.op.action .success = if append then .append else .write := hop ▸ FsOp.action_write_success pass content append
  simp only [step, exec, hop, fsWriteFile, findFileMeta_allOk, Io.allOk_ok, Bool.not_true, Bool.false_eq_true, if_false]
  cases w.record c.filename with
  | none => simp only [log_allOk w c .notFound (hact _ (by decide))]
  | some m =>
    by_cases hperm : checkPermission c.username c.group m .write = true
    · simp only [hperm, Bool.not_true, Bool.false_eq_true, if_false, if_true, log_allOk _ c .success hsuccess]
    · simp only [hperm, Bool.not_false, Bool.false_eq_true, if_false, if_true, log_allOk w c .permissionDenied (hact _ (by decide))]

/-- `fs_delete_file`, when no I/O fails. -/
theorem step_delete (hop : c.op = .delete) :
    step resolve w c =
      match w.record c.filename with
      | none => (w.logged c .notFound, .ofRet (some false))
      | some m =>
        if checkPermission c.username c.group m .write = true then
          ({ w with filesMeta := (w.filesMeta.take maxRecords).filter (fun m => !nameMatches c.filename m) }.store resolve
            c.filename none |>.logged c .success, .ofRet (some true))
        else (w.logged c .permissionDenied, .ofRet (some false)) := by
  have hact : ∀ o, c.op.action o = .delete := fun o => by rw [hop]; rfl
  simp only [step, exec, hop, fsDeleteFile, findFileMeta_allOk, Io.allOk_ok, if_true, log_allOk _ c _ (hact _)]
  cases w.record c.filename with
  | none => rfl
  | some m =>
    by_cases hperm : checkPermission c.username c.group m .write = true
    · simp only [hperm, Bool.not_true, Bool.false_eq_true, if_false, if_true, deleteFileMeta_eq _ _ (Io.allOk_allOk _).rewrites,
        store_filesMeta]
      rfl
    · simp only [hperm, Bool.not_false, Bool.false_eq_true, if_false, if_true]

/-- Encryption and decryption with a passphrase, by the flag they expect and the flag they set. -/
def FsOp.IsTransform (op : FsOp) (p : CString) (expect setTo : Int) : Prop :=
  op = .encrypt p ∧ expect = 0 ∧ setTo = 1 ∨ op = .decrypt p ∧ expect = 1 ∧ setTo = 0

/-- `fs_encrypt_file` and `fs_decrypt_file`, when no I/O fails. -/
theorem step_transform {p : CString} {expect setTo : Int} (hop : c.op.IsTransform p expect setTo) :
    step resolve w c =
      match w.record c.filename with
      | none => (w.logged c .notFound, .ofRet (some false))
      | some m =>
        if checkPermission c.username c.group m .write = true then
          if m.isEncrypted = expect then
            match w.disk (storageObj resolve c.filename) with
            | none => (w.logged c .storageMissing, .ofRet (some false))
            | some file =>
              ({ w with filesMeta := mapMatching c.filename (·.setFlag setTo) (w.filesMeta.take maxRecords) }.store resolve
                c.filename (some (xorCipher p file)) |>.logged c .success, .ofRet (some true))
          else (w.logged c .wrongState, .ofRet (some false))
        else (w.logged c .permissionDenied, .ofRet (some false)) := by
  obtain ⟨a, hact, hstep⟩ : ∃ a, (∀ o, c.op.action o = a) ∧ step resolve w c =
      ((transformFile resolve (Io.allOk c.timestr) w c.username c.group c.filename p expect setTo a).1,
        .ofRet (transformFile resolve (Io.allOk c.timestr) w c.username c.group c.filename p expect setTo a).2) := by
    rcases hop with ⟨hop, rfl, rfl⟩ | ⟨hop, rfl, rfl⟩
    · exact ⟨.encrypt, fun o => by rw [hop]; rfl, by simp only [step, exec, hop, fsEncryptFile]⟩
    · exact ⟨.decrypt, fun o => by rw [hop]; rfl, by simp only [step, exec, hop, fsDecryptFile]⟩
  simp only [hstep, transformFile, findFileMeta_allOk, openRead_allOk, Io.allOk_ok, Bool.not_true, Bool.false_eq_true, if_false,
    log_allOk _ c _ (hact _)]
  cases w.record c.filename with
  | none => rfl
  | some m =>
    by_cases hperm : checkPermission c.username c.group m .write = true
    · by_cases hflag : m.isEncrypted = expect
      · cases w.disk (storageObj resolve c.filename) with
        | none => simp only [hperm, hflag, Bool.not_true, Bool.false_eq_true, if_false, if_true, ne_eq, not_true_eq_false]
        | some file =>
          simp only [hperm, hflag, Bool.not_true, Bool.false_eq_true, if_false, if_true, ne_eq, not_true_eq_false,
            setEncryptedFlag_eq _ _ (Io.allOk_allOk _).rewrites, store_filesMeta]
          rfl
      · simp only [hperm, hflag, Bool.not_true, Bool.false_eq_true, if_false, if_true, ne_eq, not_false_eq_true]
    · simp only [hperm, Bool.not_false, Bool.false_eq_true, if_false, if_true]

/-- A transformation that returns 1: what it found, and what it leaves of the file and of its record. -/
theorem step_transform_ok {p : CString} {expect setTo : Int} (hop : c.op.IsTransform p expect setTo)
    (hret : (step resolve w c).2.ret = some true) :
    ∃ m file, w.record c.filename = some m ∧ m.isEncrypted = expect ∧ w.disk (storageObj resolve c.filename) = some file ∧
      (step resolve w c).1.disk (storageObj resolve c.filename) = some (xorCipher p file) ∧
      (step resolve w c).1.record c.filename =
        ((w.filesMeta.take maxRecords).find? (nameMatches c.filename)).map (·.setFlag setTo) := by
  rw [step_transform resolve w c hop] at hret ⊢
  cases hm : w.record c.filename with
  | none =>
    rw [hm] at hret
    exact absurd (Option.some.inj hret) Bool.false_ne_true
  | some m =>
    simp only [hm] at hret ⊢
    split_ifs at hret ⊢ with hperm hflag
    · cases hfile : w.disk (storageObj resolve c.filename) with
      | none =>
        rw [hfile] at hret
        exact absurd (Option.some.inj hret) Bool.false_ne_true
      | some file =>
        refine ⟨m, file, rfl, hflag, rfl, store_disk_self resolve _ _ _, ?_⟩
        exact find_mapMatching_self c.filename (fun m => setFlag_filename m setTo) (w.filesMeta.take maxRecords)
    · exact absurd (Option.some.inj hret) Bool.false_ne_true
    · exact absurd (Option.some.inj hret) Bool.false_ne_true

/-- `chmod_file`, when no I/O fails. -/
theorem step_chmod {permStr : Option CString} (hop : c.op = .chmod permStr) :
    step resolve w c =
      match permStr with
      | none => (w.logged c .failed, .ofRet (some false))
      | some p =>
        if isValidPermString (some p) = true then
          ({ w with filesMeta := mapMatching c.filename (·.setPermissions p) (w.filesMeta.take maxRecords) }.logged c
            (if (w.filesMeta.take maxRecords).any (nameMatches c.filename) then .success else .failed),
            .ofRet (some ((w.filesMeta.take maxRecords).any (nameMatches c.filename))))
        else (w.logged c .failed, .ofRet (some false)) := by
  have hact : ∀ o, c.op.action o = .chmod := fun o => by rw [hop]; rfl
  simp only [step, exec, hop, sessionChmod, log_allOk _ c _ (hact _)]
  cases permStr with
  | none => rw [chmodFile_invalid _ _ _ rfl]; rfl
  | some p =>
    by_cases hp : isValidPermString (some p) = true
    · simp only [chmodFile_eq _ _ (Io.allOk_allOk _).rewrites hp, hp, if_true]
    · simp only [chmodFile_invalid _ _ _ (Bool.eq_false_iff.mpr hp), hp]
      rfl

end

/-! ## What a call can do -/

/-- What a call does: the world after it and its reply, with what was checked on the way. -/
inductive Effect (w : World Obj) (c : Call) : World Obj → Reply → Prop
  /-- Nothing but the log changes, and 0 is returned. -/
  | refused (result : Outcome) (hresult : result ≠ .success) : Effect w c (w.logged c result) (.ofRet (some false))
  | created (p content : CString) (hop : c.op = .create (some p) content) (hp : isValidPermString (some p) = true)
      (hnew : w.record c.filename = none) :
      Effect w c
        ({ w with filesMeta := w.filesMeta ++ [newFileMeta c.filename c.username c.group p] }.store resolve c.filename
          (some content.bytes) |>.logged c .success)
        (.ofRet (some true))
  | read (pass : Option CString) (bufSize : UInt64) (m : FileMeta) (file : List UInt8) (hop : c.op = .read pass bufSize)
      (hm : w.record c.filename = some m) (hperm : checkPermission c.username c.group m .read = true)
      (hfile : w.disk (storageObj resolve c.filename) = some file) :
      Effect w c (w.logged c .success)
        { ret := some true, buffer := some (cipherIfEncrypted m pass (file.take (bufSize - 1).toNat)) }
  | written (pass : Option CString) (content : CString) (append : Bool) (m : FileMeta)
      (hop : c.op = .write pass content append) (hm : w.record c.filename = some m)
      (hperm : checkPermission c.username c.group m .write = true) :
      Effect w c
        (w.store resolve c.filename
          (some ((if append then (w.disk (storageObj resolve c.filename)).getD [] else []) ++
            cipherIfEncrypted m pass content.bytes)) |>.logged c .success)
        (.ofRet (some true))
  | deleted (m : FileMeta) (hop : c.op = .delete) (hm : w.record c.filename = some m)
      (hperm : checkPermission c.username c.group m .write = true) :
      Effect w c
        ({ w with filesMeta := (w.filesMeta.take maxRecords).filter (fun m => !nameMatches c.filename m) }.store resolve
          c.filename none |>.logged c .success)
        (.ofRet (some true))
  | transformed (p : CString) (expect setTo : Int) (m : FileMeta) (file : List UInt8)
      (hop : c.op.IsTransform p expect setTo)
      (hm : w.record c.filename = some m) (hperm : checkPermission c.username c.group m .write = true)
      (hflag : m.isEncrypted = expect) (hfile : w.disk (storageObj resolve c.filename) = some file) :
      Effect w c
        ({ w with filesMeta := mapMatching c.filename (·.setFlag setTo) (w.filesMeta.take maxRecords) }.store resolve c.filename
          (some (xorCipher p file)) |>.logged c .success)
        (.ofRet (some true))
  | chmodded (p : CString) (hop : c.op = .chmod (some p)) (hp : isValidPermString (some p) = true) :
      Effect w c
        ({ w with filesMeta := mapMatching c.filename (·.setPermissions p) (w.filesMeta.take maxRecords) }.logged c
          (if (w.filesMeta.take maxRecords).any (nameMatches c.filename) then .success else .failed))
        (.ofRet (some ((w.filesMeta.take maxRecords).any (nameMatches c.filename))))

/-- What a call does is one of the effects. -/
theorem step_effect (w : World Obj) (c : Call) : Effect resolve w c (step resolve w c).1 (step resolve w c).2 := by
  have htransform : ∀ {p : CString} {expect setTo : Int}, c.op.IsTransform p expect setTo →
      Effect resolve w c (step resolve w c).1 (step resolve w c).2 := by
    intro p expect setTo hop
    rw [step_transform resolve w c hop]
    cases hm : w.record c.filename with
    | none => exact .refused _ nofun
    | some m =>
      dsimp only
      split_ifs with hperm hflag
      · cases hfile : w.disk (storageObj resolve c.filename) with
        | none => exact .refused _ nofun
        | some file => exact .transformed p expect setTo m file hop hm hperm hflag hfile
      · exact .refused _ nofun
      · exact .refused _ nofun
  cases hop : c.op with
  | create permStr content =>
    rw [step_create resolve w c hop]
    cases permStr with
    | none => exact .refused _ nofun
    | some p =>
      dsimp only
      split_ifs with h
      · exact .created p content hop h.1 h.2
      · exact .refused _ nofun
  | read pass bufSize =>
    rw [step_read resolve w c hop]
    cases hm : w.record c.filename with
    | none => exact .refused _ nofun
    | some m =>
      dsimp only
      split_ifs with hperm
      · cases hfile : w.disk (storageObj resolve c.filename) with
        | none => exact .refused _ nofun
        | some file => exact .read pass bufSize m file hop hm hperm hfile
      · exact .refused _ nofun
  | write pass content append =>
    rw [step_write resolve w c hop]
    cases hm : w.record c.filename with
    | none => exact .refused _ nofun
    | some m =>
      by_cases hperm : checkPermission c.username c.group m .write = true
      · simp only [if_pos hperm]
        exact .written pass content append m hop hm hperm
      · simp only [if_neg hperm]
        exact .refused _ nofun
  | delete =>
    rw [step_delete resolve w c hop]
    cases hm : w.record c.filename with
    | none => exact .refused _ nofun
    | some m =>
      dsimp only
      split_ifs with hperm
      · exact .deleted m hop hm hperm
      · exact .refused _ nofun
  | encrypt p => exact htransform (.inl ⟨hop, rfl, rfl⟩)
  | decrypt p => exact htransform (.inr ⟨hop, rfl, rfl⟩)
  | chmod permStr =>
    rw [step_chmod resolve w c hop]
    cases permStr with
    | none => exact .refused _ nofun
    | some p =>
      by_cases hp : isValidPermString (some p) = true
      · simp only [if_pos hp]
        exact .chmodded p hop hp
      · simp only [if_neg hp]
        exact .refused _ nofun

/-- A call makes at most one record. -/
theorem step_filesMeta_length_le (w : World Obj) (c : Call) : (step resolve w c).1.filesMeta.length ≤ w.filesMeta.length + 1 := by
  have htake : (w.filesMeta.take maxRecords).length ≤ w.filesMeta.length + 1 :=
    Nat.le_succ_of_le (List.length_take_le' _ _)
  have h := step_effect resolve w c
  generalize (step resolve w c).1 = w', (step resolve w c).2 = r at h
  cases h with
  | refused | read | written => exact Nat.le_succ _
  | created p => exact Nat.le_of_eq List.length_append
  | deleted => exact Nat.le_trans (List.length_filter_le _ _) htake
  | transformed | chmodded => exact Nat.le_trans (Nat.le_of_eq (List.length_map _)) htake

/-- A run has made no more records than calls. -/
theorem final_filesMeta_length_le (calls : List Call) :
    (Runs.final (step resolve) World.empty calls).filesMeta.length ≤ calls.length := by
  induction calls using List.reverseRecOn with
  | nil => exact Nat.le_refl 0
  | append_singleton calls c ih =>
    rw [Runs.final_concat, List.length_append]
    exact Nat.le_trans (step_filesMeta_length_le resolve _ c) (Nat.succ_le_succ ih)

/-! ## The files a call does not name -/

/-- What a call may change: the bytes of the object that its filename denotes, and the records, among which no name is new but its
own. -/
structure Footprint (w : World Obj) (c : Call) (w' : World Obj) : Prop where
  disk : ∀ o, o ≠ storageObj resolve c.filename → w'.disk o = w.disk o
  names : ∀ m ∈ w'.filesMeta,
    (∃ p, m.filename = (newFileMeta c.filename c.username c.group p).filename) ∨ ∃ m₀ ∈ w.filesMeta, m.filename = m₀.filename

namespace Footprint

variable {resolve} {w w' : World Obj} {c : Call}

omit [DecidableEq Obj] in
/-- Neither the files nor the records have changed. -/
theorem of_eq (hdisk : w'.disk = w.disk) (hmeta : w'.filesMeta = w.filesMeta) : Footprint resolve w c w' where
  disk o _ := congrFun hdisk o
  names m hm := .inr ⟨m, hmeta ▸ hm, rfl⟩

omit [DecidableEq Obj] in
/-- The records are rewritten. -/
theorem rewritten {io : Io} {del : Bool} {p : Option CString} {e : Int}
    (hdisk : ∀ o, o ≠ storageObj resolve c.filename → w'.disk o = w.disk o)
    (hmeta : w'.filesMeta = (rewriteMetaMatching io w.filesMeta c.filename del p e).1) : Footprint resolve w c w' where
  disk := hdisk
  names m hm := .inr (rewriteMetaMatching_filename io w.filesMeta c.filename del p e m (hmeta ▸ hm))

end Footprint

/-- An encryption or decryption changes its file and the flags. -/
theorem transformFile_footprint (io : Io) (w : World Obj) (c : Call) (p : CString) (expect setTo : Int) (a : Action) :
    Footprint resolve w c (transformFile resolve io w c.username c.group c.filename p expect setTo a).1 := by
  unfold transformFile
  cases findFileMeta io w.filesMeta c.filename with
  | none => exact .of_eq rfl rfl
  | some m =>
    cases openRead resolve io w c.filename <;> dsimp only <;> split_ifs <;>
      first
        | exact .of_eq rfl rfl
        | exact .rewritten (fun o ho => store_disk_ne resolve w c.filename _ ho) rfl

/-- A creation adds a record with the name of the call, and may take it back. -/
theorem fsCreateFile_footprint (io : Io) (w : World Obj) (c : Call) (permStr : Option CString) (content : CString) :
    Footprint resolve w c (fsCreateFile resolve io w c.username c.group c.filename permStr content).1 := by
  have hcreated := createFileMeta_mem io w.filesMeta c.filename c.username c.group permStr
  unfold fsCreateFile
  generalize createFileMeta io w.filesMeta c.filename c.username c.group permStr = r at hcreated
  have hnames : ∀ m₀ ∈ r.1, (∃ p, m₀.filename = (newFileMeta c.filename c.username c.group p).filename) ∨
      ∃ m₁ ∈ w.filesMeta, m₀.filename = m₁.filename := by
    intro m₀ hm₀
    rcases hcreated m₀ hm₀ with h | ⟨p, rfl⟩
    · exact .inr ⟨m₀, h, rfl⟩
    · exact .inl ⟨p, rfl⟩
  dsimp only
  split_ifs
  · exact .of_eq rfl rfl
  · -- the record just made is taken back by a rewriting
    refine ⟨fun _ _ => rfl, ?_⟩
    intro m hm
    obtain ⟨m₀, hm₀, he⟩ := rewriteMetaMatching_filename io r.1 c.filename true none (-1) m hm
    rw [he]
    exact hnames m₀ hm₀
  · exact ⟨fun o ho => store_disk_ne resolve _ c.filename _ ho, hnames⟩

/-- Whatever its I/O does, a call changes no more than its footprint. -/
theorem exec_footprint (io : Io) (w : World Obj) (c : Call) : Footprint resolve w c (exec resolve io w c).1 := by
  unfold exec
  cases hop : c.op with
  | create permStr content => exact fsCreateFile_footprint resolve io w c permStr content
  | read pass bufSize =>
    simp only [fsReadFile]
    cases findFileMeta io w.filesMeta c.filename with
    | none => exact .of_eq rfl rfl
    | some m => cases openRead resolve io w c.filename <;> dsimp only <;> split_ifs <;> exact .of_eq rfl rfl
  | write pass content append =>
    simp only [fsWriteFile]
    cases findFileMeta io w.filesMeta c.filename with
    | none => exact .of_eq rfl rfl
    | some m =>
      dsimp only
      split_ifs
      · exact .of_eq rfl rfl
      · exact .of_eq rfl rfl
      · exact .of_eq rfl rfl
      · exact ⟨fun o ho => store_disk_ne resolve w c.filename _ ho, fun m hm => .inr ⟨m, hm, rfl⟩⟩
      · exact ⟨fun o ho => store_disk_ne resolve w c.filename _ ho, fun m hm => .inr ⟨m, hm, rfl⟩⟩
  | delete =>
    simp only [fsDeleteFile]
    cases findFileMeta io w.filesMeta c.filename with
    | none => exact .of_eq rfl rfl
    | some m =>
      dsimp only
      split_ifs
      · exact .of_eq rfl rfl
      · exact .rewritten (fun o ho => store_disk_ne resolve w c.filename _ ho) rfl
      · exact .rewritten (fun _ _ => rfl) rfl
  | encrypt p => exact transformFile_footprint resolve io w c p 0 1 .encrypt
  | decrypt p => exact transformFile_footprint resolve io w c p 1 0 .decrypt
  | chmod permStr =>
    have hmeta : (chmodFile io w.filesMeta c.filename permStr).1 = w.filesMeta ∨
        (chmodFile io w.filesMeta c.filename permStr).1 =
          (rewriteMetaMatching io w.filesMeta c.filename false permStr (-1)).1 := by
      unfold chmodFile
      split_ifs
      · exact .inl rfl
      · exact .inr rfl
    rcases hmeta with hkept | hrewritten
    · exact .of_eq rfl hkept
    · exact .rewritten (fun _ _ => rfl) hrewritten

/-- A call leaves every object alone but the one its filename denotes. -/
theorem step_disk_ne (w : World Obj) (c : Call) {o : Obj} (ho : o ≠ storageObj resolve c.filename) :
    (step resolve w c).1.disk o = w.disk o := (exec_footprint resolve _ w c).disk o ho

/-- What is found under another name than that of the call is what was found there, or among the records that fit the staging
array. -/
theorem step_record_cases (w : World Obj) (c : Call) {f : CString} (hf : f.length < maxFilename)
    (hc : c.filename.length < maxFilename) (hne : f ≠ c.filename) :
    (step resolve w c).1.record f = w.record f ∨
      (step resolve w c).1.record f = (w.filesMeta.take maxRecords).find? (nameMatches f) := by
  have hf' := Nat.le_of_lt hf
  have hc' := Nat.le_of_lt hc
  have h := step_effect resolve w c
  generalize (step resolve w c).1 = w', (step resolve w c).2 = r at h
  cases h with
  | refused | read | written => exact .inl rfl
  | created p => exact .inl (find_append_new_ne hf hc hne _ _ p _)
  | deleted => exact .inr (find_filter_ne hf' hc' hne _)
  | transformed p expect setTo => exact .inr (find_mapMatching_ne hf' hc' hne (fun m => setFlag_filename m setTo) _)
  | chmodded p => exact .inr (find_mapMatching_ne hf' hc' hne (fun m => setPermissions_filename m p) _)

/-- A call on another file changes nothing about the record of `f` while the records fit the staging array. -/
theorem step_record_ne (w : World Obj) (c : Call) {f : CString} (hf : f.length < maxFilename)
    (hc : c.filename.length < maxFilename) (hne : f ≠ c.filename) (hbound : w.filesMeta.length ≤ maxRecords) :
    (step resolve w c).1.record f = w.record f := by
  rcases step_record_cases resolve w c hf hc hne with h | h
  · exact h
  · rw [h, List.take_of_length_le hbound]
    rfl

/-- However many records there are, a call on another file can only lose the record of `f`. -/
theorem record_of_step_ne (w : World Obj) (c : Call) {f : CString} (hf : f.length < maxFilename)
    (hc : c.filename.length < maxFilename) (hne : f ≠ c.filename) {m : FileMeta}
    (hm : (step resolve w c).1.record f = some m) : w.record f = some m := by
  rcases step_record_cases resolve w c hf hc hne with h | h
  · rw [← h]
    exact hm
  · rw [h] at hm
    exact find_of_take hm

end

end OsSecurity.Fms
