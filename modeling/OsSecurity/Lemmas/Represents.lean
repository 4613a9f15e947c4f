import OsSecurity.Fms.System
import OsSecurity.Lemmas.Disk
import OsSecurity.Lib.Runs

/-!
# Helpers about disks that stand for systems

A file operation that names no database and not the log does to the disk what it does to the system, step by step: the record it looks up
and the bytes it opens are the same, and each of its writes keeps the two in step.
-/

namespace OsSecurity.Fms

open CLib

namespace Represents

variable {Obj : Type*} {paths : Paths Obj} {base : List UInt8} {d : Disk Obj} {sys : System Obj}

/-! ## What is looked up -/

/-- The records of both databases are those of the system. -/
theorem filesMeta_eq (h : Represents paths base d sys) : d.filesMeta paths = sys.files.filesMeta := by
  obtain ⟨rs, hfile, hrs⟩ := h.filesMeta
  rw [← hrs, Disk.filesMeta, Disk.metaRecords]
  cases hdisk : d paths.filesDb with
  | none =>
    rw [hdisk, Option.getD_none] at hfile
    rw [← metaLayout.records_file rs, ← hfile]
    rfl
  | some file =>
    rw [hdisk, Option.getD_some] at hfile
    rw [hfile, Option.elim_some, metaLayout.records_file]

/-- The accounts that the code reads are those of the system. -/
theorem users_eq (h : Represents paths base d sys) : d.users paths = sys.users := by
  have hfile := h.users
  rw [Disk.users]
  cases hdisk : d paths.usersDb with
  | none =>
    rw [hdisk, Option.getD_none] at hfile
    rw [← userLayout.records_file sys.users, ← hfile]
    rfl
  | some file =>
    rw [hdisk, Option.getD_some] at hfile
    rw [hfile, Option.elim_some, userLayout.records_file]

/-- A call finds the same record on the disk and in the system. -/
theorem findFileMeta_eq (h : Represents paths base d sys) (io : Io) (f : CString) :
    d.findFileMeta paths io f = findFileMeta io sys.files.filesMeta f := by
  rw [Disk.findFileMeta, findFileMeta, h.filesMeta_eq]

/-- A call finds the same account. -/
theorem findUser_eq (h : Represents paths base d sys) (io : Io) (username : CString) :
    d.findUser paths io username = findUser io sys.users username := by
  rw [Disk.findUser, findUser, h.users_eq]

/-- A call reads the same bytes. -/
theorem openRead_eq (h : Represents paths base d sys) (io : Io) {f : CString} (hf : ¬paths.Reserved (paths.storage f)) :
    d.openRead paths io f = openRead paths.resolve io sys.files f := by
  rw [Disk.openRead, openRead, h.files _ hf]
  rfl

/-! ## What is written -/

variable [DecidableEq Obj]

/-- A line of the log. -/
theorem logAction (h : Represents paths base d sys) (io : Io) (username : CString) (action : Action) (target : CString) (result : Outcome) :
    Represents paths base (d.logAction paths io username action target result)
      { sys with files := sys.files.log io username action target result } := by
  have hother : ∀ o, o ≠ paths.auditLog → d.logAction paths io username action target result o = d o :=
    fun o ho => Disk.logAction_ne ho _ _ _ _
  refine ⟨?_, ?_, ?_, ?_⟩
  · rw [hother _ paths.usersDb_ne_auditLog]
    exact h.users
  · rw [hother _ paths.filesDb_ne_auditLog]
    exact h.filesMeta
  · show _ = base ++ (Fms.logAction io sys.files.audit username action target result).flatMap AuditEvent.line
    cases hok : io.ok .auditAppend with
    | true =>
      rw [Disk.logAction_log hok, Fms.logAction, if_pos hok, Option.getD_some, h.log, List.flatMap_append, List.flatMap_singleton,
        List.append_assoc]
    | false => rw [Disk.logAction_failed hok, Fms.logAction, hok, if_neg Bool.false_ne_true, h.log]
  · intro o ho
    rw [hother o (fun heq => ho (.inr (.inr heq)))]
    exact h.files o ho

/-- The bytes of a file. -/
theorem store (h : Represents paths base d sys) {f : CString} (hf : ¬paths.Reserved (paths.storage f)) (content : Option (List UInt8)) :
    Represents paths base (d.store (paths.storage f) content) { sys with files := sys.files.store paths.resolve f content } := by
  have hreserved : ∀ o, paths.Reserved o → d.store (paths.storage f) content o = d o :=
    fun o ho => Disk.store_ne (fun heq : o = paths.storage f => hf (heq ▸ ho)) _
  refine ⟨?_, ?_, ?_, ?_⟩
  · rw [hreserved _ (.inl rfl)]
    exact h.users
  · rw [hreserved _ (.inr (.inl rfl))]
    exact h.filesMeta
  · rw [hreserved _ (.inr (.inr rfl))]
    exact h.log
  · intro o ho
    by_cases heq : o = paths.storage f
    · subst heq
      rw [Disk.store_self]
      exact (store_disk_self paths.resolve sys.files f content).symm
    · rw [Disk.store_ne heq, h.files o ho]
      exact (store_disk_ne paths.resolve sys.files f content heq).symm

/-- Bytes behind those of a file. -/
theorem append (h : Represents paths base d sys) {f : CString} (hf : ¬paths.Reserved (paths.storage f)) (content : List UInt8) :
    Represents paths base (d.append (paths.storage f) content)
      { sys with
        files := sys.files.store paths.resolve f (some ((sys.files.disk (storageObj paths.resolve f)).getD [] ++ content)) } := by
  have hold := h.files _ hf
  rw [Disk.append, hold]
  exact h.store hf _

/-- Another file of records. -/
theorem storeMeta (h : Represents paths base d sys) {content : Option (List UInt8)} (rs : List MetaRecord)
    (hrs : content.getD [] = metaLayout.file rs) {db : List FileMeta} (hdb : rs.map MetaRecord.toFileMeta = db) :
    Represents paths base (d.store paths.filesDb content) { sys with files := { sys.files with filesMeta := db } } := by
  refine ⟨?_, ⟨rs, by rw [Disk.store_self, hrs], hdb⟩, ?_, ?_⟩
  · rw [Disk.store_ne paths.usersDb_ne_filesDb]
    exact h.users
  · rw [Disk.store_ne paths.filesDb_ne_auditLog.symm]
    exact h.log
  · intro o ho
    rw [Disk.store_ne (fun heq => ho (.inr (.inl heq)))]
    exact h.files o ho

/-- Another file of accounts. -/
theorem storeUsers (h : Represents paths base d sys) {content : Option (List UInt8)} {us : List User}
    (hus : content.getD [] = userLayout.file us) : Represents paths base (d.store paths.usersDb content) { sys with users := us } := by
  refine ⟨by rw [Disk.store_self, hus], ?_, ?_, ?_⟩
  · rw [Disk.store_ne paths.usersDb_ne_filesDb.symm]
    exact h.filesMeta
  · rw [Disk.store_ne paths.usersDb_ne_auditLog.symm]
    exact h.log
  · intro o ho
    rw [Disk.store_ne (fun heq => ho (.inl heq))]
    exact h.files o ho

/-! ## `perms.c` -/

/-- The rewriting of the records. -/
theorem rewriteMetaMatching (h : Represents paths base d sys) (io : Io) (f : CString) (del : Bool) (p : Option CString) {e : Int}
    (hlow : -2 ^ 31 ≤ e) (hhigh : e < 2 ^ 31) :
    (d.rewriteMetaMatching paths io f del p e).2 = (Fms.rewriteMetaMatching io sys.files.filesMeta f del p e).2 ∧
      Represents paths base (d.rewriteMetaMatching paths io f del p e).1
        { sys with files := { sys.files with filesMeta := (Fms.rewriteMetaMatching io sys.files.filesMeta f del p e).1 } } := by
  obtain ⟨hmeta, hfound⟩ := Disk.rewriteMetaMatching_eq paths d io f del p hlow hhigh
  rw [h.filesMeta_eq] at hmeta hfound
  refine ⟨hfound, ?_⟩
  unfold Disk.rewriteMetaMatching at hmeta ⊢
  cases hdisk : d paths.filesDb with
  | none =>
    have hdb : (Fms.rewriteMetaMatching io sys.files.filesMeta f del p e).1 = sys.files.filesMeta := by
      rw [← hmeta, hdisk, ← h.filesMeta_eq]
      split <;> rfl
    rw [hdb]
    split <;> exact h
  | some file =>
    rw [hdisk] at hmeta
    dsimp only at hmeta ⊢
    split_ifs at hmeta ⊢
    · rw [← hmeta, h.filesMeta_eq]
      exact h
    · rw [← hmeta, h.filesMeta_eq]
      exact h
    · refine h.storeMeta _ rfl ?_
      simp only [← hmeta, Disk.filesMeta, Disk.metaRecords, Disk.store_self, Option.elim_some, metaLayout.records_file]

/-- A new record. -/
theorem createFileMeta (h : Represents paths base d sys) (io : Io) (f owner group : CString) (permStr : Option CString) :
    (d.createFileMeta paths io f owner group permStr).2 = (Fms.createFileMeta io sys.files.filesMeta f owner group permStr).2 ∧
      Represents paths base (d.createFileMeta paths io f owner group permStr).1
        { sys with files := { sys.files with
            filesMeta := (Fms.createFileMeta io sys.files.filesMeta f owner group permStr).1 } } := by
  unfold Disk.createFileMeta Fms.createFileMeta
  cases permStr with
  | none => exact ⟨rfl, h⟩
  | some p =>
    rw [h.findFileMeta_eq]
    dsimp only
    split_ifs
    · exact ⟨rfl, h⟩
    · exact ⟨rfl, h⟩
    · exact ⟨rfl, h⟩
    · obtain ⟨rs, hfile, hrs⟩ := h.filesMeta
      refine ⟨rfl, h.storeMeta (rs ++ [Disk.newMetaRecord f owner group p]) ?_ ?_⟩
      · exact (congrArg (· ++ _) hfile).trans (metaLayout.file_concat rs _).symm
      · rw [List.map_append, hrs, List.map_singleton, Disk.newMetaRecord_toFileMeta]

/-! ## `fileops.c` -/

/-- A call answers alike on the disk and on the system, and leaves a disk that stands for the system. -/
def FilesAlike {α : Type*} (paths : Paths Obj) (base : List UInt8) (users : List User) (out : Disk Obj × α) (out' : World Obj × α) : Prop :=
  out.2 = out'.2 ∧ Represents paths base out.1 { users := users, files := out'.1 }

omit [DecidableEq Obj] in
/-- Answers that are alike are alike in any form. -/
theorem FilesAlike.map {α β : Type*} {users : List User} {out : Disk Obj × α} {out' : World Obj × α} (h : FilesAlike paths base users out out')
    (g : α → β) : FilesAlike paths base users (out.1, g out.2) (out'.1, g out'.2) := ⟨congrArg g h.1, h.2⟩

/-- `fs_create_file`, of a name that denotes neither a database nor the log. -/
theorem fsCreateFile (h : Represents paths base d sys) (io : Io) (username group : CString) {f : CString}
    (hf : ¬paths.Reserved (paths.storage f)) (permStr : Option CString) (content : CString) :
    FilesAlike paths base sys.users (d.fsCreateFile paths io username group f permStr content)
      (Fms.fsCreateFile paths.resolve io sys.files username group f permStr content) := by
  obtain ⟨hcreated, hstep⟩ := h.createFileMeta io f username group permStr
  unfold Disk.fsCreateFile Fms.fsCreateFile
  dsimp only
  rw [hcreated]
  split_ifs with hrefused hopen
  · -- a refused creation has changed no record
    have hsame : (Fms.createFileMeta io sys.files.filesMeta f username group permStr).1 = sys.files.filesMeta :=
      createFileMeta_refused io sys.files.filesMeta f username group permStr (by simpa using hrefused)
    rw [hsame] at hstep
    exact ⟨rfl, hstep.logAction io username .create f .metaExistsOrInvalid⟩
  · exact ⟨rfl, (hstep.rewriteMetaMatching io f true none (by decide) (by decide)).2.logAction io username .create f .ioError⟩
  · exact ⟨rfl, (hstep.store hf (some content.bytes)).logAction io username .create f .success⟩

/-- `fs_read_file`, of such a name. -/
theorem fsReadFile (h : Represents paths base d sys) (io : Io) (username group : CString) {f : CString}
    (hf : ¬paths.Reserved (paths.storage f)) (pass : Option CString) (bufSize : UInt64) :
    FilesAlike paths base sys.users (d.fsReadFile paths io username group f pass bufSize)
      (Fms.fsReadFile paths.resolve io sys.files username group f pass bufSize) := by
  have hlog := h.logAction io username .read f
  unfold Disk.fsReadFile Fms.fsReadFile
  rw [h.findFileMeta_eq, h.openRead_eq io hf]
  cases findFileMeta io sys.files.filesMeta f with
  | none => exact ⟨rfl, hlog _⟩
  | some m =>
    dsimp only
    split_ifs
    · exact ⟨rfl, hlog _⟩
    · cases openRead paths.resolve io sys.files f with
      | none => exact ⟨rfl, hlog _⟩
      | some file => exact ⟨rfl, hlog _⟩

/-- `fs_write_file`, of such a name. -/
theorem fsWriteFile (h : Represents paths base d sys) (io : Io) (username group : CString) {f : CString}
    (hf : ¬paths.Reserved (paths.storage f)) (pass : Option CString) (content : CString) (append : Bool) :
    FilesAlike paths base sys.users (d.fsWriteFile paths io username group f pass content append)
      (Fms.fsWriteFile paths.resolve io sys.files username group f pass content append) := by
  have hlog := h.logAction io username .write f
  unfold Disk.fsWriteFile Fms.fsWriteFile
  rw [h.findFileMeta_eq]
  cases findFileMeta io sys.files.filesMeta f with
  | none => exact ⟨rfl, hlog _⟩
  | some m =>
    dsimp only
    split_ifs
    · exact ⟨rfl, hlog _⟩
    · exact ⟨rfl, hlog _⟩
    · exact ⟨rfl, hlog _⟩
    · exact ⟨rfl, (h.append hf _).logAction io username _ f .success⟩
    · exact ⟨rfl, (h.store hf _).logAction io username _ f .success⟩

/-- `fs_delete_file`, of such a name. -/
theorem fsDeleteFile (h : Represents paths base d sys) (io : Io) (username group : CString) {f : CString}
    (hf : ¬paths.Reserved (paths.storage f)) :
    FilesAlike paths base sys.users (d.fsDeleteFile paths io username group f)
      (Fms.fsDeleteFile paths.resolve io sys.files username group f) := by
  have hlog := h.logAction io username .delete f
  unfold Disk.fsDeleteFile Fms.fsDeleteFile
  rw [h.findFileMeta_eq]
  cases findFileMeta io sys.files.filesMeta f with
  | none => exact ⟨rfl, hlog _⟩
  | some m =>
    dsimp only
    split_ifs
    · exact ⟨rfl, hlog _⟩
    · exact ⟨rfl, ((h.store hf none).rewriteMetaMatching io f true none (by decide) (by decide)).2.logAction io username _ f .success⟩
    · exact ⟨rfl, (h.rewriteMetaMatching io f true none (by decide) (by decide)).2.logAction io username _ f .success⟩

/-- `transform_file`, of such a name. -/
theorem transformFile (h : Represents paths base d sys) (io : Io) (username group : CString) {f : CString}
    (hf : ¬paths.Reserved (paths.storage f)) (pass : CString) (expect : Int) {setTo : Int} (hlow : -2 ^ 31 ≤ setTo)
    (hhigh : setTo < 2 ^ 31) (action : Action) :
    FilesAlike paths base sys.users (d.transformFile paths io username group f pass expect setTo action)
      (Fms.transformFile paths.resolve io sys.files username group f pass expect setTo action) := by
  have hlog := h.logAction io username action f
  unfold Disk.transformFile Fms.transformFile
  rw [h.findFileMeta_eq, h.openRead_eq io hf]
  cases findFileMeta io sys.files.filesMeta f with
  | none => exact ⟨rfl, hlog _⟩
  | some m =>
    cases openRead paths.resolve io sys.files f with
    | none =>
      dsimp only
      split_ifs <;> exact ⟨rfl, hlog _⟩
    | some file =>
      dsimp only
      split_ifs
      · exact ⟨rfl, hlog _⟩
      · exact ⟨rfl, hlog _⟩
      · exact ⟨rfl, hlog _⟩
      · exact ⟨rfl, h⟩
      · exact ⟨rfl, ((h.store hf _).rewriteMetaMatching io f false none hlow hhigh).2.logAction io username action f .success⟩

/-- The change of permissions, which opens no file under `storage/`. -/
theorem sessionChmod (h : Represents paths base d sys) (io : Io) (username f : CString) (permStr : Option CString) :
    FilesAlike paths base sys.users (d.sessionChmod paths io username f permStr) (Fms.sessionChmod io sys.files username f permStr) := by
  have hchmod : (d.chmodFile paths io f permStr).2 = (chmodFile io sys.files.filesMeta f permStr).2 ∧
      Represents paths base (d.chmodFile paths io f permStr).1
        { sys with files := { sys.files with filesMeta := (chmodFile io sys.files.filesMeta f permStr).1 } } := by
    unfold Disk.chmodFile chmodFile
    split_ifs
    · exact ⟨rfl, h⟩
    · exact h.rewriteMetaMatching io f false permStr (by decide) (by decide)
  obtain ⟨hchanged, hstep⟩ := hchmod
  unfold Disk.sessionChmod Fms.sessionChmod
  dsimp only
  rw [hchanged]
  exact ⟨rfl, hstep.logAction io username .chmod f _⟩

/-- So does any call on a file whose name denotes no database and not the log. -/
theorem exec (h : Represents paths base d sys) (io : Io) {c : Call} (hf : ¬paths.Reserved (paths.storage c.filename)) :
    FilesAlike paths base sys.users (d.exec paths io c) (Fms.exec paths.resolve io sys.files c) := by
  unfold Disk.exec Fms.exec
  cases c.op with
  | create permStr content => exact (h.fsCreateFile io c.username c.group hf permStr content).map (fun ret => Reply.ofRet (some ret))
  | read pass bufSize => exact (h.fsReadFile io c.username c.group hf pass bufSize).map (fun buffer => Reply.mk (some buffer.isSome) buffer)
  | write pass content append => exact (h.fsWriteFile io c.username c.group hf pass content append).map (fun ret => Reply.ofRet (some ret))
  | delete => exact (h.fsDeleteFile io c.username c.group hf).map (fun ret => Reply.ofRet (some ret))
  | encrypt p => exact (h.transformFile io c.username c.group hf p 0 (by decide) (by decide) .encrypt).map Reply.ofRet
  | decrypt p => exact (h.transformFile io c.username c.group hf p 1 (by decide) (by decide) .decrypt).map Reply.ofRet
  | chmod permStr => exact (h.sessionChmod io c.username c.filename permStr).map (fun ret => Reply.ofRet (some ret))

/-! ## `auth.c` -/

/-- A call of `auth.c` answers alike, and leaves a disk that stands for the system. -/
def AuthAlike {α : Type*} (paths : Paths Obj) (base : List UInt8) (files : World Obj) (out : Disk Obj × α) (out' : Accounts × α) : Prop :=
  out.2 = out'.2 ∧ Represents paths base out.1 { users := out'.1.users, files := { files with audit := out'.1.audit } }

/-- `register_user`. -/
theorem registerUser (h : Represents paths base d sys) (io : Io) (salt : CharArray saltLen) (username password group : Option CString) :
    AuthAlike paths base sys.files (d.registerUser paths io salt username password group)
      (Fms.registerUser io { users := sys.users, audit := sys.files.audit } salt username password group) := by
  have hlog := h.logAction io
  cases username with
  | none => exact ⟨rfl, hlog _ _ _ _⟩
  | some username =>
    cases password with
    | none => exact ⟨rfl, hlog _ _ _ _⟩
    | some password =>
      cases group with
      | none => exact ⟨rfl, hlog _ _ _ _⟩
      | some group =>
        unfold Disk.registerUser Fms.registerUser
        dsimp only
        rw [h.findUser_eq]
        cases hashPassword password salt with
        | none =>
          dsimp only
          split_ifs
          · exact ⟨rfl, hlog _ _ _ _⟩
          · exact ⟨rfl, hlog _ _ _ _⟩
          · exact ⟨rfl, h⟩
        | some hash =>
          have hfile : (some ((d paths.usersDb).getD [] ++ userLayout.encode (newUser username group salt hash))).getD [] =
              userLayout.file (sys.users ++ [newUser username group salt hash]) :=
            (congrArg (· ++ _) h.users).trans (userLayout.file_concat sys.users _).symm
          dsimp only
          split_ifs
          · exact ⟨rfl, hlog _ _ _ _⟩
          · exact ⟨rfl, hlog _ _ _ _⟩
          · exact ⟨rfl, hlog _ _ _ _⟩
          · exact ⟨rfl, (h.storeUsers hfile).logAction io username .register username .success⟩

/-- `login_user`. -/
theorem loginUser (h : Represents paths base d sys) (io : Io) (username password : CString) :
    AuthAlike paths base sys.files (d.loginUser paths io username password)
      (Fms.loginUser io { users := sys.users, audit := sys.files.audit } username password) := by
  have hlog := h.logAction io username .login username
  unfold Disk.loginUser Fms.loginUser
  rw [h.findUser_eq]
  cases findUser io sys.users username with
  | none => exact ⟨rfl, hlog _⟩
  | some u =>
    dsimp only
    cases hashPassword password u.salt with
    | none => exact ⟨rfl, h⟩
    | some hash =>
      dsimp only
      split_ifs
      · exact ⟨rfl, hlog _⟩
      · exact ⟨rfl, hlog _⟩

/-- A call of the accounts module, with its reply. -/
theorem authExec (h : Represents paths base d sys) (io : Io) (op : AuthOp) :
    (d.authExec paths io op).2 = (sys.auth io op).2 ∧ Represents paths base (d.authExec paths io op).1 (sys.auth io op).1 := by
  cases op with
  | register username password group salt =>
    obtain ⟨hret, hstep⟩ := h.registerUser io salt username password group
    exact ⟨congrArg (fun ret => AuthReply.mk ret none) hret, hstep⟩
  | login username password =>
    obtain ⟨hout, hstep⟩ := h.loginUser io username password
    exact ⟨congrArg (fun out => AuthReply.mk (out.map (·.isSome)) out.join) hout, hstep⟩

/-! ## Runs -/

omit [DecidableEq Obj] in
/-- The disk without files stands for the system without any. -/
theorem empty : Represents paths [] Disk.empty System.empty := ⟨rfl, ⟨[], rfl, rfl⟩, rfl, fun _ _ => rfl⟩

/-- A run of calls on files whose I/O succeeds answers alike, and leaves a disk that stands for what it leaves of the system. -/
theorem run (h : Represents paths base d sys) {calls : List Call} (hnames : ∀ c ∈ calls, ¬paths.Reserved (paths.storage c.filename)) :
    Represents paths base (Runs.final (Disk.step paths) d calls)
        { sys with files := Runs.final (Fms.step paths.resolve) sys.files calls } ∧
      Runs.trace (Disk.step paths) d calls = Runs.trace (Fms.step paths.resolve) sys.files calls := by
  have hstep : ∀ (d : Disk Obj) files c, ¬paths.Reserved (paths.storage c.filename) → Represents paths base d { sys with files := files } →
      Represents paths base (Disk.step paths d c).1 { sys with files := (Fms.step paths.resolve files c).1 } ∧
        id (Disk.step paths d c).2 = (Fms.step paths.resolve files (id c)).2 := by
    intro d files c hc hrep
    obtain ⟨hreply, hnext⟩ := hrep.exec (Io.allOk c.timestr) hc
    exact ⟨hnext, hreply⟩
  obtain ⟨hlast, htrace⟩ := Runs.simulation id id hstep h hnames
  rw [List.map_id] at hlast htrace
  exact ⟨hlast, (List.map_id _).symm.trans htrace⟩

end Represents

end OsSecurity.Fms
