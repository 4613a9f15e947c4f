import OsSecurity.Fms.Disk
import OsSecurity.Lemmas.FileOps

/-!
# Helpers about the disk

Each operation changes the object that its path denotes, the metadata database and the log, and these may be one object. What a call does
when its I/O succeeds is said once for each operation; what the records are then is what the lists of records say.
-/

namespace OsSecurity.Fms

open CLib

/-- The paths of a process in `/srv`. -/
abbrev srv : Paths (List (List UInt8)) := processPaths [bytes "srv"]

namespace Disk

section

variable {Obj : Type*} [DecidableEq Obj] (paths : Paths Obj) (d : Disk Obj)

/-- The record the operations find under a name. -/
def record (f : CString) : Option FileMeta := (d.filesMeta paths).find? (nameMatches f)

/-- The disk after a call logged its result. -/
def logged (c : Call) (result : Outcome) : Disk Obj := d.append paths.auditLog (c.event result).line

/-- A transformation passes all its checks. -/
def TransformAccepted (io : Io) (username group f : CString) (expect : Int) : Prop :=
  ∃ m, findFileMeta paths io d f = some m ∧ checkPermission username group m .write = true ∧ m.isEncrypted = expect ∧
    (openRead paths io d f).isSome ∧ io.ok .malloc = true

variable {paths d}

/-! ## Single files -/

@[simp] theorem store_self (o : Obj) (content : Option (List UInt8)) : d.store o content o = content := Function.update_self _ _ _

/-- Another file stays as it is. -/
theorem store_ne {o o' : Obj} (h : o' ≠ o) (content : Option (List UInt8)) : d.store o content o' = d o' :=
  Function.update_of_ne h _ _

@[simp] theorem append_self (o : Obj) (content : List UInt8) : d.append o content o = some ((d o).getD [] ++ content) :=
  Function.update_self _ _ _

/-- Another file stays as it is. -/
theorem append_ne {o o' : Obj} (h : o' ≠ o) (content : List UInt8) : d.append o content o' = d o' := Function.update_of_ne h _ _

/-- Nothing but the log changes where a result is logged. -/
theorem logAction_ne {io : Io} {o : Obj} (h : o ≠ paths.auditLog) (username : CString) (action : Action) (target : CString)
    (result : Outcome) : d.logAction paths io username action target result o = d o := by
  unfold logAction
  split
  · exact append_ne h _
  · rfl

/-- Where the log can be opened, its line is there. -/
theorem logAction_log {io : Io} (h : io.ok .auditAppend = true) (username : CString) (action : Action) (target : CString)
    (result : Outcome) :
    d.logAction paths io username action target result paths.auditLog =
      some ((d paths.auditLog).getD [] ++ (AuditEvent.mk io.timestr username action target result).line) := by
  rw [logAction, if_pos h]
  exact append_self _ _

/-- Where it cannot, nothing is logged. -/
theorem logAction_failed {io : Io} (h : io.ok .auditAppend = false) (username : CString) (action : Action) (target : CString)
    (result : Outcome) : d.logAction paths io username action target result = d := by
  rw [logAction, h, if_neg Bool.false_ne_true]

/-- A call whose I/O succeeds logs its event. -/
theorem logAction_allOk (c : Call) (result : Outcome) {a : Action} (ha : c.op.action result = a) :
    d.logAction paths (Io.allOk c.timestr) c.username a c.filename result = d.logged paths c result := by
  subst ha
  rfl

theorem logged_ne {o : Obj} (h : o ≠ paths.auditLog) (c : Call) (result : Outcome) : d.logged paths c result o = d o :=
  append_ne h _

/-- A line is never empty: it begins with a bracket. -/
theorem line_eq_cons (e : AuditEvent) : ∃ rest, e.line = 91 :: rest := ⟨_, rfl⟩

/-- A file after a call logged its result: the log has the line behind what it held, and it is the only one that has. -/
theorem logged_file {o : Obj} {file : List UInt8} (hfile : d o = some file) (c : Call) (result : Outcome) :
    ∃ tail, d.logged paths c result o = some (file ++ tail) ∧ (tail = [] ↔ o ≠ paths.auditLog) := by
  by_cases ho : o = paths.auditLog
  · subst ho
    obtain ⟨rest, hline⟩ := line_eq_cons (c.event result)
    refine ⟨(c.event result).line, ?_, ?_⟩
    · rw [logged, append_self, hfile, Option.getD_some]
    · simp [hline]
  · exact ⟨[], by rw [logged_ne ho, hfile, List.append_nil], by simp [ho]⟩

/-! ## Records -/

omit [DecidableEq Obj] in
/-- The records are those of `files_meta.dat`. -/
theorem filesMeta_congr {d' : Disk Obj} (h : d' paths.filesDb = d paths.filesDb) : d'.filesMeta paths = d.filesMeta paths := by
  rw [filesMeta, filesMeta, metaRecords, metaRecords, h]

@[simp] theorem filesMeta_logAction (io : Io) (username : CString) (action : Action) (target : CString) (result : Outcome) :
    (d.logAction paths io username action target result).filesMeta paths = d.filesMeta paths :=
  filesMeta_congr (logAction_ne paths.filesDb_ne_auditLog _ _ _ _)

@[simp] theorem filesMeta_logged (c : Call) (result : Outcome) : (d.logged paths c result).filesMeta paths = d.filesMeta paths :=
  filesMeta_congr (logged_ne paths.filesDb_ne_auditLog c result)

/-- Bytes behind a file leave the records there were in front. -/
theorem filesMeta_prefix_append (o : Obj) (content : List UInt8) : d.filesMeta paths <+: (d.append o content).filesMeta paths := by
  by_cases ho : o = paths.filesDb
  · subst ho
    refine List.IsPrefix.map _ ?_
    rw [metaRecords, metaRecords, append_self]
    cases hfile : d paths.filesDb with
    | none => exact List.nil_prefix
    | some file => exact metaLayout.records_append_prefix file content
  · have hsame : (d.append o content).filesMeta paths = d.filesMeta paths := filesMeta_congr (append_ne (fun h => ho h.symm) content)
    exact ⟨[], by rw [List.append_nil, hsame]⟩

/-- So a record that is found is found after it. -/
theorem record_append {f : CString} {m : FileMeta} (hm : d.record paths f = some m) (o : Obj) (content : List UInt8) :
    (d.append o content).record paths f = some m := (filesMeta_prefix_append o content).find?_eq_some hm

/-- What is stored elsewhere leaves the records alone. -/
theorem filesMeta_store_ne {o : Obj} (h : paths.filesDb ≠ o) (content : Option (List UInt8)) :
    (d.store o content).filesMeta paths = d.filesMeta paths := filesMeta_congr (store_ne h content)

/-- A new record says what the list of records says. -/
theorem newMetaRecord_toFileMeta (f owner group p : CString) :
    (newMetaRecord f owner group p).toFileMeta = newFileMeta f owner group p := by
  simp only [newMetaRecord, MetaRecord.toFileMeta, newFileMeta, bytesInt_intBytes (v := 0) (by decide) (by decide)]

/-! ## `rewrite_meta_matching` -/

/-- What is written for a record says what the list of records says. -/
theorem rewriteRecord_toFileMeta (del : Bool) (p : Option CString) {e : Int} (hlow : -2 ^ 31 ≤ e) (hhigh : e < 2 ^ 31) (r : MetaRecord) :
    (rewriteRecord del p e r).map MetaRecord.toFileMeta = Fms.rewriteRecord del p e r.toFileMeta := by
  unfold rewriteRecord Fms.rewriteRecord
  cases del with
  | true => rfl
  | false =>
    cases p <;> by_cases he : e = -1 <;> simp [he, MetaRecord.toFileMeta, bytesInt_intBytes hlow hhigh]

theorem writeRecords_toFileMeta (f : CString) (del : Bool) (p : Option CString) {e : Int} (hlow : -2 ^ 31 ≤ e) (hhigh : e < 2 ^ 31)
    (rs : List MetaRecord) :
    (writeRecords f del p e rs).1.map MetaRecord.toFileMeta = (Fms.writeRecords f del p e (rs.map MetaRecord.toFileMeta)).1 ∧
      (writeRecords f del p e rs).2 = (Fms.writeRecords f del p e (rs.map MetaRecord.toFileMeta)).2 := by
  induction rs with
  | nil => exact ⟨rfl, rfl⟩
  | cons r rs ih =>
    obtain ⟨hout, hfound⟩ := ih
    simp only [writeRecords, List.map_cons, Fms.writeRecords]
    split
    · exact ⟨by rw [List.map_append, rewriteRecord_toFileMeta del p hlow hhigh, hout], rfl⟩
    · exact ⟨by rw [List.map_cons, hout], hfound⟩

variable (io : Io) (f : CString) (del : Bool) (p : Option CString) {e : Int}

/-- The rewriting leaves every other file alone. -/
theorem rewriteMetaMatching_ne {o : Obj} (h : o ≠ paths.filesDb) : (rewriteMetaMatching paths io d f del p e).1 o = d o := by
  unfold rewriteMetaMatching
  cases d paths.filesDb with
  | none => split <;> rfl
  | some file =>
    dsimp only
    split
    · rfl
    · split
      · rfl
      · exact store_ne h _

/-- A rewriting does nothing when one of its `fopen`s fails. -/
theorem rewriteMetaMatching_failed (hio : io.rewrites = false) : rewriteMetaMatching paths io d f del p e = (d, false) := by
  rw [Io.rewrites, Bool.and_eq_false_iff] at hio
  rw [rewriteMetaMatching]
  rcases hio with hio | hio
  · simp [hio]
  · cases d paths.filesDb <;> simp [hio]

/-- A rewriting does nothing where there is no database. -/
theorem rewriteMetaMatching_none (hfile : d paths.filesDb = none) : rewriteMetaMatching paths io d f del p e = (d, false) := by
  rw [rewriteMetaMatching, hfile]
  split <;> rfl

/-- A rewriting writes the records that it staged. -/
theorem rewriteMetaMatching_written (hio : io.rewrites = true) {file : List UInt8} (hfile : d paths.filesDb = some file) :
    (rewriteMetaMatching paths io d f del p e).1 =
      d.store paths.filesDb (some (metaLayout.file (writeRecords f del p e ((metaLayout.records file).take maxRecords)).1)) := by
  obtain ⟨hread, hwrite⟩ := Bool.and_eq_true_iff.mp hio
  simp [rewriteMetaMatching, hread, hwrite, hfile, readRecords_zero]

variable (paths d) in
/-- The records after it, and what it found, are those of the rewriting of a list. -/
theorem rewriteMetaMatching_eq (hlow : -2 ^ 31 ≤ e) (hhigh : e < 2 ^ 31) :
    (rewriteMetaMatching paths io d f del p e).1.filesMeta paths = (Fms.rewriteMetaMatching io (d.filesMeta paths) f del p e).1 ∧
      (rewriteMetaMatching paths io d f del p e).2 = (Fms.rewriteMetaMatching io (d.filesMeta paths) f del p e).2 := by
  unfold rewriteMetaMatching Fms.rewriteMetaMatching
  split
  · exact ⟨rfl, rfl⟩
  · cases hfile : d paths.filesDb with
    | none =>
      have hnone : d.filesMeta paths = [] := by
        rw [filesMeta, metaRecords, hfile]
        rfl
      simp only [hnone]
      split <;> exact ⟨rfl, rfl⟩
    | some file =>
      have hrecords : d.filesMeta paths = (metaLayout.records file).map MetaRecord.toFileMeta := by
        rw [filesMeta, metaRecords, hfile]
        rfl
      obtain ⟨hout, hfound⟩ := writeRecords_toFileMeta f del p hlow hhigh ((metaLayout.records file).take maxRecords)
      dsimp only
      split
      · exact ⟨rfl, rfl⟩
      · rw [readRecords_zero, readRecords_zero, hrecords, ← List.map_take]
        refine ⟨?_, hfound⟩
        simp only [filesMeta, metaRecords, store_self, Option.elim_some]
        exact (congrArg (List.map MetaRecord.toFileMeta) (metaLayout.records_file _)).trans hout

theorem deleteFileMeta_filesMeta : (deleteFileMeta paths io d f).1.filesMeta paths = (Fms.deleteFileMeta io (d.filesMeta paths) f).1 :=
  (rewriteMetaMatching_eq paths d io f true none (by decide) (by decide)).1

theorem setEncryptedFlag_filesMeta (hlow : -2 ^ 31 ≤ e) (hhigh : e < 2 ^ 31) :
    (setEncryptedFlag paths io d f e).1.filesMeta paths = (Fms.setEncryptedFlag io (d.filesMeta paths) f e).1 :=
  (rewriteMetaMatching_eq paths d io f false none hlow hhigh).1

/-! ## Each operation when its I/O succeeds -/

variable (paths d) (c : Call)

omit [DecidableEq Obj] in
/-- Where the database can be opened, the record is found. -/
theorem findFileMeta_allOk (timestr : List UInt8) : findFileMeta paths (Io.allOk timestr) d f = d.record paths f := rfl

/-- A read: nothing but the log changes. -/
theorem step_read {pass : Option CString} {bufSize : UInt64} (hop : c.op = .read pass bufSize) :
    step paths d c =
      match d.record paths c.filename with
      | none => (d.logged paths c .notFound, .ofRet (some false))
      | some m =>
        if checkPermission c.username c.group m .read = true then
          match d (paths.storage c.filename) with
          | none => (d.logged paths c .storageMissing, .ofRet (some false))
          | some file => (d.logged paths c .success,
              { ret := some true, buffer := some (cipherIfEncrypted m pass (file.take (bufSize - 1).toNat)) })
        else (d.logged paths c .permissionDenied, .ofRet (some false)) := by
  have hact : ∀ result, c.op.action result = .read := fun result => by rw [hop]; rfl
  simp only [step, exec, hop, fsReadFile, findFileMeta_allOk, openRead, Io.allOk_ok, if_true, logAction_allOk c _ (hact _)]
  cases d.record paths c.filename with
  | none => rfl
  | some m =>
    by_cases hperm : checkPermission c.username c.group m .read = true
    · cases d (paths.storage c.filename) <;> simp [hperm, Reply.ofRet]
    · simp [hperm, Reply.ofRet]

/-- A read of a file that is there, by a user who may read it. -/
theorem step_read_ok {pass : Option CString} {b : UInt64} (hop : c.op = .read pass b) {m : FileMeta} {file : List UInt8}
    (hm : d.record paths c.filename = some m) (hfile : d (paths.storage c.filename) = some file)
    (hread : checkPermission c.username c.group m .read = true) :
    (step paths d c).2 = { ret := some true, buffer := some (cipherIfEncrypted m pass (file.take (b - 1).toNat)) } := by
  rw [step_read paths d c hop]
  simp only [hm, hfile, if_pos hread]

/-- A write: the content goes to the object the path denotes, and the line of the log behind whatever the log holds then. -/
theorem step_write {pass : Option CString} {content : CString} {append : Bool} (hop : c.op = .write pass content append) {m : FileMeta}
    (hm : d.record paths c.filename = some m) (hwrite : checkPermission c.username c.group m .write = true) :
    step paths d c =
      ((if append then d.append (paths.storage c.filename) (cipherIfEncrypted m pass content.bytes)
        else d.store (paths.storage c.filename) (some (cipherIfEncrypted m pass content.bytes))).logged paths c .success,
        .ofRet (some true)) := by
  have hsuccess : c.op.action .success = if append then .append else .write := hop ▸ FsOp.action_write_success pass content append
  simp only [step, exec, hop, fsWriteFile, findFileMeta_allOk, hm, hwrite, Io.allOk_ok, Bool.not_true, Bool.false_eq_true, if_false,
    logAction_allOk c .success hsuccess]

/-! ## A transformation, whatever fails -/

omit [DecidableEq Obj] in
variable {paths d io f} in
/-- What a call finds is the record. -/
theorem record_of_findFileMeta {m : FileMeta} (h : findFileMeta paths io d f = some m) : d.record paths f = some m := by
  unfold findFileMeta at h
  split_ifs at h
  exact h

omit [DecidableEq Obj] in
variable {paths d io f} in
/-- What it opens are the bytes of the file. -/
theorem file_of_openRead {file : List UInt8} (h : openRead paths io d f = some file) : d (paths.storage f) = some file := by
  unfold openRead at h
  split_ifs at h
  exact h

variable (username group pass : CString) (expect setTo : Int) (action : Action) {paths d io username group f expect}

/-- A transformation that does not pass its checks returns 0, and nothing but the log changes. -/
theorem transformFile_refused (h : ¬d.TransformAccepted paths io username group f expect) :
    ∃ result, transformFile paths io d username group f pass expect setTo action =
      (d.logAction paths io username action f result, some false) := by
  unfold transformFile
  cases hm : findFileMeta paths io d f with
  | none => exact ⟨_, rfl⟩
  | some m =>
    by_cases hperm : checkPermission username group m .write = true
    · by_cases hflag : m.isEncrypted = expect
      · simp only [hperm, hflag, Bool.not_true, Bool.false_eq_true, if_false, ne_eq, not_true_eq_false]
        cases hfile : openRead paths io d f with
        | none => exact ⟨_, rfl⟩
        | some file =>
          have hmalloc : io.ok .malloc = false := by
            rw [Bool.eq_false_iff]
            intro hmalloc
            exact h ⟨m, hm, hperm, hflag, Option.isSome_iff_exists.mpr ⟨file, hfile⟩, hmalloc⟩
          simp only [hmalloc, Bool.not_false, if_true]
          exact ⟨_, rfl⟩
      · simp only [hperm, hflag, Bool.not_true, Bool.false_eq_true, if_false, if_true, ne_eq, not_false_eq_true]
        exact ⟨_, rfl⟩
    · simp only [hperm, Bool.not_false, if_true]
      exact ⟨_, rfl⟩

/-- A transformation that passes its checks dies, or writes the bytes back, then sets the flag, then logs, and returns 1. -/
theorem transformFile_accepted (h : d.TransformAccepted paths io username group f expect) :
    ∃ m file, d.record paths f = some m ∧ m.isEncrypted = expect ∧ d (paths.storage f) = some file ∧
      transformFile paths io d username group f pass expect setTo action =
        if io.ok .storageRewrite then
          ((setEncryptedFlag paths io (d.store (paths.storage f) (some (xorCipher pass file))) f setTo).1.logAction paths io username
            action f .success, some true)
        else (d, none) := by
  obtain ⟨m, hm, hperm, hflag, hfile, hmalloc⟩ := h
  obtain ⟨file, hfile⟩ := Option.isSome_iff_exists.mp hfile
  refine ⟨m, file, record_of_findFileMeta hm, hflag, file_of_openRead hfile, ?_⟩
  unfold transformFile
  simp only [hm, hperm, hflag, hfile, hmalloc, Bool.not_true, Bool.false_eq_true, if_false, ne_eq, not_true_eq_false]
  cases io.ok .storageRewrite with
  | true => rfl
  | false => rfl

/-- The process dies in a transformation that passes its checks when the file cannot be opened for writing, and nowhere else. -/
theorem transformFile_died_iff :
    (transformFile paths io d username group f pass expect setTo action).2 = none ↔
      d.TransformAccepted paths io username group f expect ∧ io.ok .storageRewrite = false := by
  by_cases h : d.TransformAccepted paths io username group f expect
  · obtain ⟨m, file, -, -, -, hout⟩ := transformFile_accepted pass setTo action h
    cases hrewrite : io.ok .storageRewrite with
    | true =>
      rw [hrewrite, if_pos rfl] at hout
      simp [hout]
    | false =>
      rw [hrewrite, if_neg Bool.false_ne_true] at hout
      simp [hout, h]
  · obtain ⟨result, hout⟩ := transformFile_refused pass setTo action h
    simp [hout, h]

end

section

variable {Obj : Type*} [DecidableEq Obj] {paths : Paths Obj} {d : Disk Obj} {io : Io} {f : CString} {e : Int}

/-- The bytes of a file whose path does not lead to the database are there after its flag is set. -/
theorem setEncryptedFlag_file (hdb : paths.storage f ≠ paths.filesDb) (content : Option (List UInt8)) :
    (setEncryptedFlag paths io (d.store (paths.storage f) content) f e).1 (paths.storage f) = content :=
  (rewriteMetaMatching_ne io f false none hdb).trans (store_self _ _)

/-- After a flag is set the records are those there were, with this flag. -/
theorem setEncryptedFlag_stored (hdb : paths.storage f ≠ paths.filesDb) (hlow : -2 ^ 31 ≤ e) (hhigh : e < 2 ^ 31)
    (content : Option (List UInt8)) :
    (setEncryptedFlag paths io (d.store (paths.storage f) content) f e).1.filesMeta paths =
      (Fms.setEncryptedFlag io (d.filesMeta paths) f e).1 := by
  rw [setEncryptedFlag_filesMeta io f hlow hhigh, filesMeta_store_ne hdb.symm]

variable {c : Call} {p : CString} {expect setTo : Int}

/-- An encryption or decryption is a transformation. -/
theorem step_transform (hop : c.op.IsTransform p expect setTo) :
    ∃ a, (∀ result, c.op.action result = a) ∧
      step paths d c = Prod.map id Reply.ofRet
        (transformFile paths (Io.allOk c.timestr) d c.username c.group c.filename p expect setTo a) := by
  rcases hop with ⟨hop, rfl, rfl⟩ | ⟨hop, rfl, rfl⟩
  · refine ⟨.encrypt, fun result => by rw [hop]; rfl, ?_⟩
    simp only [step, exec, hop]
    rfl
  · refine ⟨.decrypt, fun result => by rw [hop]; rfl, ?_⟩
    simp only [step, exec, hop]
    rfl

/-- A transformation that returns 1 found the record with the flag it expects and the bytes, and this is what it did. -/
theorem step_transform_ok (hop : c.op.IsTransform p expect setTo) (hret : (step paths d c).2.ret = some true) :
    ∃ m file, d.record paths c.filename = some m ∧ m.isEncrypted = expect ∧ d (paths.storage c.filename) = some file ∧
      (step paths d c).1 =
        (setEncryptedFlag paths (Io.allOk c.timestr) (d.store (paths.storage c.filename) (some (xorCipher p file))) c.filename
          setTo).1.logged paths c .success := by
  obtain ⟨a, ha, hstep⟩ := step_transform (d := d) hop
  by_cases h : d.TransformAccepted paths (Io.allOk c.timestr) c.username c.group c.filename expect
  · obtain ⟨m, file, hm, hflag, hfile, hout⟩ := transformFile_accepted p setTo a h
    rw [Io.allOk_ok, if_pos rfl, logAction_allOk c .success (ha _)] at hout
    exact ⟨m, file, hm, hflag, hfile, by rw [hstep, hout]; rfl⟩
  · obtain ⟨result, hout⟩ := transformFile_refused p setTo a h
    rw [hstep, hout] at hret
    cases hret

/-- The bytes and the record after it, of a file whose path leads to neither the database nor the log. -/
theorem step_transform_stored (hop : c.op.IsTransform p expect setTo) (hdb : paths.storage c.filename ≠ paths.filesDb)
    (hlog : paths.storage c.filename ≠ paths.auditLog) (hret : (step paths d c).2.ret = some true) :
    ∃ m file, d.record paths c.filename = some m ∧ m.isEncrypted = expect ∧ d (paths.storage c.filename) = some file ∧
      (step paths d c).1 (paths.storage c.filename) = some (xorCipher p file) ∧
      (step paths d c).1.record paths c.filename =
        (((d.filesMeta paths).take maxRecords).find? (nameMatches c.filename)).map (·.setFlag setTo) := by
  obtain ⟨m, file, hm, hflag, hfile, hafter⟩ := step_transform_ok hop hret
  have hrange : -2 ^ 31 ≤ setTo ∧ setTo < 2 ^ 31 := by
    rcases hop with ⟨-, -, rfl⟩ | ⟨-, -, rfl⟩ <;> decide
  refine ⟨m, file, hm, hflag, hfile, ?_, ?_⟩
  · rw [hafter, logged_ne hlog, setEncryptedFlag_file hdb]
  · rw [hafter, record, filesMeta_logged, setEncryptedFlag_stored hdb hrange.1 hrange.2,
      setEncryptedFlag_eq _ _ (Io.allOk_allOk _).rewrites]
    exact find_mapMatching_self _ (fun m => setFlag_filename m setTo) _

end

/-! ## The log -/

/-- The log with a line behind it, if it can be opened. -/
def logWith (io : Io) (e : AuditEvent) (log : Option (List UInt8)) : Option (List UInt8) :=
  if io.ok .auditAppend then some (log.getD [] ++ e.line) else log

section

variable {Obj : Type*} [DecidableEq Obj] {paths : Paths Obj} {d d' : Disk Obj} {io : Io} {c : Call}

/-- A result that is logged on a disk with the log of another. -/
theorem logAction_logWith (h : d' paths.auditLog = d paths.auditLog) (username : CString) (action : Action) (target : CString)
    (result : Outcome) :
    d'.logAction paths io username action target result paths.auditLog =
      logWith io ⟨io.timestr, username, action, target, result⟩ (d paths.auditLog) := by
  rw [← h, logWith]
  cases hok : io.ok .auditAppend with
  | true => rw [logAction_log hok, if_pos rfl]
  | false => rw [logAction_failed hok, if_neg Bool.false_ne_true]

/-- The result of a call that is logged so. -/
theorem logAction_event (htime : c.timestr = io.timestr) {action : Action} {result : Outcome} (ha : c.op.action result = action)
    (h : d' paths.auditLog = d paths.auditLog) :
    d'.logAction paths io c.username action c.filename result paths.auditLog = logWith io (c.event result) (d paths.auditLog) := by
  subst ha
  rw [logAction_logWith h, Call.event, htime]

/-- The rewriting of the records leaves the log alone. -/
theorem rewriteMetaMatching_log (h : d' paths.auditLog = d paths.auditLog) (f : CString) (del : Bool) (p : Option CString) (e : Int) :
    (rewriteMetaMatching paths io d' f del p e).1 paths.auditLog = d paths.auditLog :=
  (rewriteMetaMatching_ne io f del p paths.filesDb_ne_auditLog.symm).trans h

theorem chmodFile_log (f : CString) (permStr : Option CString) :
    (chmodFile paths io d f permStr).1 paths.auditLog = d paths.auditLog := by
  unfold chmodFile
  split_ifs
  · rfl
  · exact rewriteMetaMatching_log rfl _ _ _ _

/-- A new record leaves the log alone. -/
theorem createFileMeta_log (f owner group : CString) (permStr : Option CString) :
    (createFileMeta paths io d f owner group permStr).1 paths.auditLog = d paths.auditLog := by
  unfold createFileMeta
  cases permStr with
  | none => rfl
  | some p =>
    dsimp only
    split_ifs
    · rfl
    · rfl
    · rfl
    · exact append_ne paths.filesDb_ne_auditLog.symm _

/-- What is stored in another file leaves the log alone. -/
theorem store_log (h : d' paths.auditLog = d paths.auditLog) {f : CString} (hf : paths.storage f ≠ paths.auditLog)
    (content : Option (List UInt8)) : d'.store (paths.storage f) content paths.auditLog = d paths.auditLog :=
  (store_ne hf.symm content).trans h

/-- A transformation of another file logs one event, unless the process dies in it. -/
theorem transformFile_log (htime : c.timestr = io.timestr) (hf : paths.storage c.filename ≠ paths.auditLog) (p : CString)
    (expect setTo : Int) {a : Action} (ha : ∀ result, c.op.action result = a) :
    let out := transformFile paths io d c.username c.group c.filename p expect setTo a
    (out.2 = none ∧ out.1 paths.auditLog = d paths.auditLog) ∨
      ∃ result, out.1 paths.auditLog = logWith io (c.event result) (d paths.auditLog) := by
  unfold transformFile
  cases findFileMeta paths io d c.filename with
  | none => exact .inr ⟨_, logAction_event htime (ha _) rfl⟩
  | some m =>
    cases openRead paths io d c.filename with
    | none =>
      dsimp only
      split_ifs <;> exact .inr ⟨_, logAction_event htime (ha _) rfl⟩
    | some file =>
      dsimp only
      split_ifs
      · exact .inr ⟨_, logAction_event htime (ha _) rfl⟩
      · exact .inr ⟨_, logAction_event htime (ha _) rfl⟩
      · exact .inr ⟨_, logAction_event htime (ha _) rfl⟩
      · exact .inl ⟨rfl, rfl⟩
      · exact .inr ⟨_, logAction_event htime (ha _) (rewriteMetaMatching_log (store_log rfl hf _) _ _ _ _)⟩

/-- A call on a file that is not the log logs one event, unless the process dies in it. -/
theorem exec_log (htime : c.timestr = io.timestr) (hf : paths.storage c.filename ≠ paths.auditLog) :
    ((exec paths io d c).2.ret = none ∧ (exec paths io d c).1 paths.auditLog = d paths.auditLog) ∨
      ∃ result, (exec paths io d c).1 paths.auditLog = logWith io (c.event result) (d paths.auditLog) := by
  unfold exec
  cases hop : c.op with
  | create permStr content =>
    have ha : ∀ result, c.op.action result = .create := fun _ => by rw [hop]; rfl
    have hcreated : (createFileMeta paths io d c.filename c.username c.group permStr).1 paths.auditLog = d paths.auditLog :=
      createFileMeta_log _ _ _ _
    refine .inr ?_
    simp only [fsCreateFile]
    split_ifs
    · exact ⟨_, logAction_event htime (ha _) hcreated⟩
    · exact ⟨_, logAction_event htime (ha _) (rewriteMetaMatching_log hcreated _ _ _ _)⟩
    · exact ⟨_, logAction_event htime (ha _) (store_log hcreated hf _)⟩
  | read pass bufSize =>
    have ha : ∀ result, c.op.action result = .read := fun _ => by rw [hop]; rfl
    refine .inr ?_
    simp only [fsReadFile]
    cases findFileMeta paths io d c.filename with
    | none => exact ⟨_, logAction_event htime (ha _) rfl⟩
    | some m =>
      cases openRead paths io d c.filename with
      | none =>
        dsimp only
        split_ifs <;> exact ⟨_, logAction_event htime (ha _) rfl⟩
      | some file =>
        dsimp only
        split_ifs <;> exact ⟨_, logAction_event htime (ha _) rfl⟩
  | write pass content append =>
    have ha : ∀ result, result ≠ .success → c.op.action result = .write := fun _ h => hop ▸ FsOp.action_write_of_ne h
    have hsuccess : c.op.action .success = if append then .append else .write := hop ▸ FsOp.action_write_success pass content append
    refine .inr ?_
    simp only [fsWriteFile]
    cases findFileMeta paths io d c.filename with
    | none => exact ⟨.notFound, logAction_event htime (ha _ (by decide)) rfl⟩
    | some m =>
      dsimp only
      split
      · exact ⟨.permissionDenied, logAction_event htime (ha _ (by decide)) rfl⟩
      · split
        · exact ⟨.memoryError, logAction_event htime (ha _ (by decide)) rfl⟩
        · split
          · exact ⟨.ioError, logAction_event htime (ha _ (by decide)) rfl⟩
          · refine ⟨.success, logAction_event htime hsuccess ?_⟩
            cases append with
            | true => exact append_ne hf.symm _
            | false => exact store_log rfl hf _
  | delete =>
    have ha : ∀ result, c.op.action result = .delete := fun _ => by rw [hop]; rfl
    refine .inr ?_
    simp only [fsDeleteFile]
    cases findFileMeta paths io d c.filename with
    | none => exact ⟨_, logAction_event htime (ha _) rfl⟩
    | some m =>
      dsimp only
      split_ifs
      · exact ⟨_, logAction_event htime (ha _) rfl⟩
      · exact ⟨_, logAction_event htime (ha _) (rewriteMetaMatching_log (store_log rfl hf _) _ _ _ _)⟩
      · exact ⟨_, logAction_event htime (ha _) (rewriteMetaMatching_log rfl _ _ _ _)⟩
  | encrypt p => exact transformFile_log htime hf p 0 1 (fun _ => by rw [hop]; rfl)
  | decrypt p => exact transformFile_log htime hf p 1 0 (fun _ => by rw [hop]; rfl)
  | chmod permStr => exact .inr ⟨_, logAction_event htime (by rw [hop]; rfl) (chmodFile_log c.filename permStr)⟩

end

end Disk

end OsSecurity.Fms
