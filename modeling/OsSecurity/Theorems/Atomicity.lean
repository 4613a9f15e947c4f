import OsSecurity.Lemmas.Disk

/-!
# Deletion and transformation under a failing call

A deletion ignores what `remove` and `delete_file_meta` return, a transformation does not check its second `fopen` nor what
`set_encrypted_flag` returns. So each of them is all or nothing exactly where nothing fails once its checks have passed, for the files
under `storage/`. The log gets a line from every call, and what a transformation makes of the metadata database is no database.
-/

namespace OsSecurity.Fms

open CLib

/-- The operations that work on the bytes and on the record of one file. -/
inductive Change where
  | delete
  | encrypt (passphrase : CString)
  | decrypt (passphrase : CString)

section

variable {Obj : Type*} [DecidableEq Obj] (paths : Paths Obj) (io : Io) (d : Disk Obj) (username group f : CString)

/-- The operation, on a file. -/
def Change.run : Change → Disk Obj × Option Bool
  | .delete =>
    let (d, ret) := d.fsDeleteFile paths io username group f
    (d, some ret)
  | .encrypt p => d.fsEncryptFile paths io username group f p
  | .decrypt p => d.fsDecryptFile paths io username group f p

/-! ## What is expected -/

/-- The bytes and the record of the file were transformed. -/
def Transformed (d' : Disk Obj) (p : CString) (setTo : Int) : Prop :=
  ∃ m file, d.record paths f = some m ∧ d (paths.storage f) = some file ∧
    d' (paths.storage f) = some (xorCipher p file) ∧ d'.record paths f = some (m.setFlag setTo)

/-- The bytes and the record of the file are as the operation is to leave them. -/
def Change.Updated (d' : Disk Obj) : Change → Prop
  | .delete => d' (paths.storage f) = none ∧ d'.record paths f = none
  | .encrypt p => Transformed paths d f d' p 1
  | .decrypt p => Transformed paths d f d' p 0

/-- The name of a record denotes the log. -/
def LogStored : Prop := ∃ m ∈ d.filesMeta paths, paths.storage m.name = paths.auditLog

/-- 1 is returned and both stores are updated, or 0 is returned and the records are as they were, and so are the bytes of every file:
those of the log count if a record has it for its file. -/
def Change.AllOrNothing (ch : Change) (out : Disk Obj × Option Bool) : Prop :=
  out.2 = some true ∧ ch.Updated paths d f out.1 ∨
    out.2 = some false ∧ (∀ o, o ≠ paths.auditLog ∨ LogStored paths d → out.1 o = d o) ∧ out.1.filesMeta paths = d.filesMeta paths

/-! ## When it is met -/

/-- The operation passes its checks. -/
def Change.Accepted : Change → Prop
  | .delete => ∃ m, d.findFileMeta paths io f = some m ∧ checkPermission username group m .write = true
  | .encrypt _ => d.TransformAccepted paths io username group f 0
  | .decrypt _ => d.TransformAccepted paths io username group f 1

/-- A database of whole records, no more than are staged, with the flag set in those of the file. -/
def Settled (setTo : Int) (file : List UInt8) : Prop :=
  ∃ rs : List MetaRecord, file = metaLayout.file rs ∧ rs.length ≤ maxRecords ∧
    ∀ r ∈ rs, nameMatches f r.toFileMeta = true → r.isEncrypted = intBytes setTo

/-- The calls that follow the checks of a transformation succeed, on a record that is staged, and the bytes are not those of the log, or
are not logged behind. Where they are those of the database, their cipher is a database with the record and its flag. -/
def TransformCompletes (p : CString) (setTo : Int) : Prop :=
  io.ok .storageRewrite = true ∧
    if paths.storage f = paths.filesDb then
      let file := xorCipher p ((d paths.filesDb).getD [])
      (io.rewrites = true → Settled f setTo file) ∧
        (d.store paths.filesDb (some file)).record paths f = (d.record paths f).map (·.setFlag setTo)
    else
      io.rewrites = true ∧ (((d.filesMeta paths).take maxRecords).find? (nameMatches f)).isSome ∧
        (paths.storage f = paths.auditLog → io.ok .auditAppend = false)

/-- The calls that follow the checks succeed, or there are no bytes to remove; and nothing makes the file again. -/
def Change.Completes : Change → Prop
  | .delete =>
    (io.ok .storageRemove = true ∨ d (paths.storage f) = none) ∧ (paths.storage f = paths.filesDb ∨ io.rewrites = true) ∧
      (paths.storage f = paths.auditLog → io.ok .auditAppend = false)
  | .encrypt p => TransformCompletes paths io d f p 1
  | .decrypt p => TransformCompletes paths io d f p 0

end

namespace AtomicityAux

variable {Obj : Type*} [DecidableEq Obj] {paths : Paths Obj} {io : Io} {d : Disk Obj} {username group f : CString} {ch : Change}

/-! ## The log -/

/-- A file is missing after a result was logged if it was, and is not the log that was made. -/
theorem logAction_eq_none_iff {o : Obj} (action : Action) (target : CString) (result : Outcome) :
    d.logAction paths io username action target result o = none ↔
      d o = none ∧ (o = paths.auditLog → io.ok .auditAppend = false) := by
  by_cases ho : o = paths.auditLog
  · subst ho
    cases hio : io.ok .auditAppend with
    | true => simp [Disk.logAction_log hio]
    | false => simp [Disk.logAction_failed hio]
  · simp [Disk.logAction_ne ho, ho]

/-- What a file holds is there after a result was logged, unless it is the log and has the line behind it. -/
theorem logAction_eq_some_iff {o : Obj} {file : List UInt8} (hfile : d o = some file) (action : Action) (target : CString)
    (result : Outcome) :
    d.logAction paths io username action target result o = some file ↔ (o = paths.auditLog → io.ok .auditAppend = false) := by
  by_cases ho : o = paths.auditLog
  · subst ho
    cases hio : io.ok .auditAppend with
    | true =>
      obtain ⟨rest, hline⟩ := Disk.line_eq_cons ⟨io.timestr, username, action, target, result⟩
      simp [Disk.logAction_log hio, hfile, hline]
    | false => simp [Disk.logAction_failed hio, hfile]
  · simp [Disk.logAction_ne ho, hfile, ho]

omit [DecidableEq Obj] in
/-- A call that returns 1 is all or nothing if it updated both stores. -/
theorem returned_iff (d' : Disk Obj) : ch.AllOrNothing paths d f (d', some true) ↔ ch.Updated paths d f d' := by
  simp [Change.AllOrNothing]

/-- A call that does nothing but log a failure leaves all as it is if the log fails, or no record has it for its file. -/
theorem refused_iff (action : Action) (result : Outcome) :
    ch.AllOrNothing paths d f (d.logAction paths io username action f result, some false) ↔
      (io.ok .auditAppend = false ∨ ¬LogStored paths d) := by
  simp only [Change.AllOrNothing, Disk.filesMeta_logAction, and_true, true_and, Option.some.injEq, Bool.false_eq_true, false_and,
    false_or]
  cases hio : io.ok .auditAppend with
  | false => simp [Disk.logAction_failed hio]
  | true =>
    refine ⟨fun h => .inr (fun hstored => ?_), ?_⟩
    · -- the log is longer than it was
      have hlog := h paths.auditLog (.inr hstored)
      rw [Disk.logAction_log hio] at hlog
      obtain ⟨rest, hline⟩ := Disk.line_eq_cons ⟨io.timestr, username, action, f, result⟩
      cases hd : d paths.auditLog with
      | none =>
        rw [hd] at hlog
        cases hlog
      | some log =>
        rw [hd, Option.getD_some, Option.some.injEq, List.append_right_eq_self, hline] at hlog
        cases hlog
    · rintro (hfailed | hunstored) o ho
      · cases hfailed
      · exact Disk.logAction_ne (ho.resolve_right hunstored) _ _ _ _

/-! ## Deletion -/

/-- The disk when the record of a deletion is deleted. -/
def removed (paths : Paths Obj) (io : Io) (d : Disk Obj) (f : CString) : Disk Obj :=
  if io.ok .storageRemove then d.store (paths.storage f) none else d

theorem removed_eq_none_iff :
    removed paths io d f (paths.storage f) = none ↔ io.ok .storageRemove = true ∨ d (paths.storage f) = none := by
  unfold removed
  cases io.ok .storageRemove with
  | true => simp
  | false => simp

theorem delete_refused (h : ¬Change.delete.Accepted paths io d username group f) :
    ∃ result, d.fsDeleteFile paths io username group f = (d.logAction paths io username .delete f result, false) := by
  unfold Disk.fsDeleteFile
  cases hm : d.findFileMeta paths io f with
  | none => exact ⟨_, rfl⟩
  | some m =>
    have hperm : checkPermission username group m .write = false := by
      rw [Bool.eq_false_iff]
      exact fun hperm => h ⟨m, hm, hperm⟩
    simp only [hperm, Bool.not_false, if_true]
    exact ⟨_, rfl⟩

/-- A deletion that passes its checks returns 1, whatever became of the two stores. -/
theorem delete_accepted (h : Change.delete.Accepted paths io d username group f) :
    d.fsDeleteFile paths io username group f =
      (((removed paths io d f).deleteFileMeta paths io f).1.logAction paths io username .delete f .success, true) := by
  obtain ⟨m, hm, hperm⟩ := h
  unfold Disk.fsDeleteFile
  simp only [hm, hperm, Bool.not_true, Bool.false_eq_true, if_false]
  rfl

/-- The rewriting makes no file and removes none. -/
theorem rewriteMetaMatching_eq_none_iff (o : Obj) (del : Bool) (p : Option CString) (e : Int) :
    (d.rewriteMetaMatching paths io f del p e).1 o = none ↔ d o = none := by
  by_cases ho : o = paths.filesDb
  · subst ho
    cases hio : io.rewrites with
    | false => rw [Disk.rewriteMetaMatching_failed _ _ _ _ hio]
    | true =>
      cases hfile : d paths.filesDb with
      | none => simp [Disk.rewriteMetaMatching_none, hfile]
      | some file => simp [Disk.rewriteMetaMatching_written _ _ _ _ hio hfile]
  · rw [Disk.rewriteMetaMatching_ne io f del p ho]

/-- The record that a deletion found is gone, once its bytes are, if the rewriting took place, or the bytes were those of the
database. -/
theorem unrecorded_iff {m : FileMeta} (hm : d.record paths f = some m)
    (hremoved : io.ok .storageRemove = true ∨ d (paths.storage f) = none) :
    ((removed paths io d f).deleteFileMeta paths io f).1.record paths f = none ↔
      (paths.storage f = paths.filesDb ∨ io.rewrites = true) := by
  by_cases hdb : paths.storage f = paths.filesDb
  · have hnone : removed paths io d f paths.filesDb = none := hdb ▸ removed_eq_none_iff.mpr hremoved
    have hdelete : (removed paths io d f).deleteFileMeta paths io f = _ := Disk.rewriteMetaMatching_none io f true none hnone
    have hempty : (removed paths io d f).record paths f = none := by
      rw [Disk.record, Disk.filesMeta, Disk.metaRecords, hnone]
      rfl
    rw [hdelete]
    exact iff_of_true hempty (.inl hdb)
  · have hmeta : (removed paths io d f).filesMeta paths = d.filesMeta paths := by
      unfold removed
      split
      · exact Disk.filesMeta_store_ne (Ne.symm hdb) none
      · rfl
    rw [Disk.record, Disk.deleteFileMeta_filesMeta, hmeta]
    cases hio : io.rewrites with
    | true => simp only [deleteFileMeta_eq _ _ hio, find_filter_self, or_true]
    | false =>
      unfold Disk.record at hm
      simp [deleteFileMeta, rewriteMetaMatching_failed _ _ hio, hm, hdb]

theorem delete_iff :
    Change.delete.AllOrNothing paths d f (Change.delete.run paths io d username group f) ↔
      (Change.delete.Accepted paths io d username group f → Change.delete.Completes paths io d f) ∧
        (¬Change.delete.Accepted paths io d username group f → io.ok .auditAppend = false ∨ ¬LogStored paths d) := by
  by_cases h : Change.delete.Accepted paths io d username group f
  · obtain ⟨m, hfind, -⟩ := id h
    have hm := Disk.record_of_findFileMeta hfind
    have hgone : ((removed paths io d f).deleteFileMeta paths io f).1 (paths.storage f) = none ↔
        io.ok .storageRemove = true ∨ d (paths.storage f) = none :=
      (rewriteMetaMatching_eq_none_iff _ _ _ _).trans removed_eq_none_iff
    simp only [Change.run, delete_accepted h, returned_iff, Change.Updated, logAction_eq_none_iff, Disk.record,
      Disk.filesMeta_logAction, h, not_true_eq_false, false_imp_iff, true_imp_iff, and_true, Change.Completes]
    rw [hgone, and_assoc]
    refine and_congr_right (fun hremoved => ?_)
    rw [and_comm]
    exact and_congr_left' (unrecorded_iff hm hremoved)
  · obtain ⟨result, hout⟩ := delete_refused h
    simp only [Change.run, hout, refused_iff, h, not_false_eq_true, false_imp_iff, true_imp_iff, true_and]

/-! ## Transformation -/

variable {p : CString} {expect setTo : Int} {action : Action}

/-- The record that a transformation of another file than the database found gets its flag if and only if the rewriting took place and
it was staged. -/
theorem flagged_iff (io : Io) (hdb : paths.storage f ≠ paths.filesDb) {m : FileMeta} (hm : d.record paths f = some m)
    (hflag : m.isEncrypted ≠ setTo) (hset : setTo = 0 ∨ setTo = 1) (file : List UInt8) :
    ((d.store (paths.storage f) (some file)).setEncryptedFlag paths io f setTo).1.record paths f = some (m.setFlag setTo) ↔
      io.rewrites = true ∧ (((d.filesMeta paths).take maxRecords).find? (nameMatches f)).isSome := by
  have hlow : -2 ^ 31 ≤ setTo := by rcases hset with rfl | rfl <;> decide
  have hhigh : setTo < 2 ^ 31 := by rcases hset with rfl | rfl <;> decide
  rw [Disk.record, Disk.setEncryptedFlag_stored hdb hlow hhigh]
  cases hio : io.rewrites with
  | true =>
    rw [setEncryptedFlag_eq _ _ hio, find_mapMatching_self f (fun m => setFlag_filename m setTo)]
    cases hstaged : ((d.filesMeta paths).take maxRecords).find? (nameMatches f) with
    | none => simp
    | some m' =>
      have hmm : some m' = some m := (find_of_take hstaged).symm.trans hm
      simp [Option.some.inj hmm]
  | false =>
    have hne : m ≠ m.setFlag setTo := by
      intro heq
      apply hflag
      have hminus : setTo ≠ -1 := by rcases hset with rfl | rfl <;> decide
      rw [heq, FileMeta.setFlag, if_pos hminus]
    unfold Disk.record at hm
    simp [setEncryptedFlag, rewriteMetaMatching_failed _ _ hio, hm, hne]

/-- A flag is written into every record of the file, and into no other. -/
theorem writeRecords_flag (hset : setTo ≠ -1) (rs : List MetaRecord) :
    (Disk.writeRecords f false none setTo rs).1 =
      rs.map (fun r => if nameMatches f r.toFileMeta then { r with isEncrypted := intBytes setTo } else r) := by
  induction rs with
  | nil => rfl
  | cons r rs ih =>
    simp only [Disk.writeRecords, List.map_cons]
    split
    · simp [Disk.rewriteRecord, hset, ih]
    · simp [ih]

/-- A database is as it was after a flag is written if and only if it is whole, is staged in full, and has the flag. -/
theorem settled_iff (hset : setTo ≠ -1) (file : List UInt8) :
    metaLayout.file (Disk.writeRecords f false none setTo ((metaLayout.records file).take maxRecords)).1 = file ↔
      Settled f setTo file := by
  rw [writeRecords_flag hset]
  constructor
  · intro h
    refine ⟨_, h.symm, by rw [List.length_map]; exact List.length_take_le _ _, ?_⟩
    intro r hr hmatch
    obtain ⟨r₀, -, rfl⟩ := List.mem_map.mp hr
    split_ifs at hmatch ⊢ with hname
    · rfl
    · exact absurd hmatch hname
  · rintro ⟨rs, rfl, hlength, hflags⟩
    rw [metaLayout.records_file, List.take_of_length_le hlength]
    congr 1
    refine (List.map_congr_left fun r hr => ?_).trans (List.map_id rs)
    split_ifs with hname
    · rw [← hflags r hr hname]
      rfl
    · rfl

/-- The bytes of the database are transformed and stay so, with the flag in the record of its name. -/
theorem settled_stored_iff (hset : setTo ≠ -1) (m : FileMeta) (file : List UInt8) :
    let d' := ((d.store paths.filesDb (some file)).setEncryptedFlag paths io f setTo).1
    d' paths.filesDb = some file ∧ d'.record paths f = some m ↔
      (io.rewrites = true → Settled f setTo file) ∧ (d.store paths.filesDb (some file)).record paths f = some m := by
  have hsame : ∀ d' : Disk Obj, d' paths.filesDb = some file → d'.record paths f = (d.store paths.filesDb (some file)).record paths f := by
    intro d' hd'
    exact congrArg (List.find? (nameMatches f)) (Disk.filesMeta_congr (hd'.trans (Disk.store_self _ _).symm))
  have hstored : ((d.store paths.filesDb (some file)).setEncryptedFlag paths io f setTo).1 paths.filesDb = some file ↔
      (io.rewrites = true → Settled f setTo file) := by
    cases hio : io.rewrites with
    | false => simp [Disk.setEncryptedFlag, Disk.rewriteMetaMatching_failed _ _ _ _ hio]
    | true =>
      have hfile : d.store paths.filesDb (some file) paths.filesDb = some file := Disk.store_self _ _
      rw [Disk.setEncryptedFlag, Disk.rewriteMetaMatching_written io f false none hio hfile, Disk.store_self, Option.some.injEq, settled_iff hset]
      simp
  intro d'
  constructor
  · rintro ⟨hfile, hrecord⟩
    exact ⟨hstored.mp hfile, (hsame d' hfile).symm.trans hrecord⟩
  · rintro ⟨hsettled, hrecord⟩
    have hfile := hstored.mpr hsettled
    exact ⟨hfile, (hsame d' hfile).trans hrecord⟩

theorem transform_iff (hne : expect ≠ setTo) (hset : setTo = 0 ∨ setTo = 1)
    (hupdated : ∀ d', ch.Updated paths d f d' ↔ Transformed paths d f d' p setTo) :
    ch.AllOrNothing paths d f (d.transformFile paths io username group f p expect setTo action) ↔
      (d.TransformAccepted paths io username group f expect → TransformCompletes paths io d f p setTo) ∧
        (¬d.TransformAccepted paths io username group f expect → io.ok .auditAppend = false ∨ ¬LogStored paths d) := by
  by_cases h : d.TransformAccepted paths io username group f expect
  · obtain ⟨m, file, hm, hflag, hfile, hout⟩ := Disk.transformFile_accepted p setTo action h
    simp only [hout, h, not_true_eq_false, false_imp_iff, true_imp_iff, and_true]
    cases hrewrite : io.ok .storageRewrite with
    | true =>
      rw [if_pos rfl, returned_iff, hupdated, TransformCompletes, hrewrite, and_iff_right rfl]
      have hsides : ∀ d', Transformed paths d f d' p setTo ↔
          d' (paths.storage f) = some (xorCipher p file) ∧ d'.record paths f = some (m.setFlag setTo) := by
        intro d'
        simp [Transformed, hm, hfile]
      have hminus : setTo ≠ -1 := by rcases hset with rfl | rfl <;> decide
      rw [hsides, Disk.record, Disk.filesMeta_logAction]
      by_cases hdb : paths.storage f = paths.filesDb
      · rw [if_pos hdb, hdb, Disk.logAction_ne paths.filesDb_ne_auditLog]
        rw [hdb] at hfile
        rw [hfile, Option.getD_some, hm, Option.map_some]
        exact settled_stored_iff hminus _ _
      · rw [if_neg hdb, logAction_eq_some_iff (Disk.setEncryptedFlag_file hdb _), and_comm, ← and_assoc]
        exact and_congr_left' (flagged_iff io hdb hm (hflag ▸ hne) hset _)
    | false =>
      -- the process dies in `fwrite`, after the file may have been cut
      simp [Change.AllOrNothing, TransformCompletes, hrewrite]
  · obtain ⟨result, hout⟩ := Disk.transformFile_refused p setTo action h
    simp only [hout, refused_iff, h, not_false_eq_true, false_imp_iff, true_imp_iff, true_and]

end AtomicityAux

open AtomicityAux

/-- Whatever fails: a deletion, encryption or decryption is all or nothing if and only if nothing fails after its checks have passed (the
bytes are removed or written back, and the records are rewritten, with the file's own among the 1024 that are staged where it is to be
kept), its line does not go into the file, and what it makes of the database is one; and where they do not pass, its line is not written,
or into no file of a record. -/
theorem allOrNothing_iff {Obj : Type*} [DecidableEq Obj] (paths : Paths Obj) (io : Io) (d : Disk Obj)
    (username group f : CString) (ch : Change) :
    ch.AllOrNothing paths d f (ch.run paths io d username group f) ↔
      (ch.Accepted paths io d username group f → ch.Completes paths io d f) ∧
        (¬ch.Accepted paths io d username group f → io.ok .auditAppend = false ∨ ¬LogStored paths d) := by
  cases ch with
  | delete => exact delete_iff
  | encrypt p => exact transform_iff (by decide) (by decide) (fun d' => Iff.rfl)
  | decrypt p => exact transform_iff (by decide) (by decide) (fun d' => Iff.rfl)

/-- A plain file of alice's. -/
def keptDisk : Disk (List (List UInt8)) :=
  ((Disk.empty : Disk (List (List UInt8))).step srv
    (.of "alice" "staff" "notes" (.create (some (cstring "rw-------")) (cstring "text")))).1

/-- `remove` fails and nothing else: the record goes, the bytes stay, and the deletion returns 1. -/
theorem delete_not_allOrNothing :
    ¬Change.delete.AllOrNothing srv keptDisk (cstring "notes")
      (Change.delete.run srv { ok := fun s => s != .storageRemove, timestr := [] } keptDisk (cstring "alice") (cstring "staff")
        (cstring "notes")) := by
  rw [delete_iff]
  rintro ⟨h, -⟩
  have haccepted : Change.delete.Accepted srv { ok := fun s => s != .storageRemove, timestr := [] } keptDisk (cstring "alice")
      (cstring "staff") (cstring "notes") :=
    ⟨newFileMeta (cstring "notes") (cstring "alice") (cstring "staff") (cstring "rw-------"), by decide +kernel, by decide +kernel⟩
  obtain ⟨hremoved | habsent, -⟩ := h haccepted
  · exact absurd hremoved (by decide)
  · exact absurd habsent (by decide +kernel)

end OsSecurity.Fms
