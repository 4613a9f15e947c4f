import OsSecurity.Lemmas.Cipher
import OsSecurity.Lemmas.Disk
import OsSecurity.Lib.Runs

/-!
# Overwrite, then use

What a write leaves is what a read with the same passphrase argument gives, and what a decryption leaves: where the path leads to a file
under `storage/`. The log has the line of the write behind it, and the database has no records any more. And a decryption rewrites the
first 1024 records only.
-/

namespace OsSecurity.Fms

open CLib

variable {Obj : Type*} [DecidableEq Obj] (paths : Paths Obj)

/-- A call of `fs_read_file`. -/
def Call.IsRead (c : Call) : Prop := ∃ pass bufSize, c.op = .read pass bufSize

/-- What is expected of every overwrite of a file by a user: it returns 1. After it, and after any reads, a read with the same passphrase
argument and a buffer of at least one byte gives the content as far as the buffer holds it; and where the file is encrypted and the
passphrase is not `NULL`, a successful decryption with it leaves exactly the content, with the flag cleared. -/
def OverwriteUsable (d : Disk Obj) (f username group : CString) (m : FileMeta) : Prop :=
  ∀ (pass : Option CString) (c : CString) (t : List UInt8) (reads : List Call), (∀ r ∈ reads, r.IsRead) →
    let written := d.step paths ⟨username, group, f, .write pass c false, t⟩
    let d' := Runs.final (Disk.step paths) written.1 reads
    written.2.ret = some true ∧
      (∀ (b : UInt64) t', 1 ≤ b → (d'.step paths ⟨username, group, f, .read pass b, t'⟩).2 =
        { ret := some true, buffer := some (c.bytes.take (b.toNat - 1)) }) ∧
      ∀ p (dec : Call), pass = some p → m.isEncrypted ≠ 0 → dec.filename = f → dec.op = .decrypt p →
        (d'.step paths dec).2.ret = some true →
        (d'.step paths dec).1 (paths.storage f) = some c.bytes ∧
          ∃ m', (d'.step paths dec).1.record paths f = some m' ∧ m'.isEncrypted = 0

namespace OverwriteAux

variable {paths} {d : Disk Obj} {f username group : CString} {m : FileMeta} {pass : Option CString} {content : List UInt8}

/-! ## The calls -/

/-- Reads leave all files but the log alone. -/
theorem reads_keep (d : Disk Obj) {reads : List Call} (hreads : ∀ c ∈ reads, c.IsRead) {o : Obj} (ho : o ≠ paths.auditLog) :
    Runs.final (Disk.step paths) d reads o = d o := by
  refine Runs.final_invariant (I := fun d' : Disk Obj => d' o = d o) (P := fun c : Call => c.IsRead) ?_ rfl hreads
  rintro d' c ⟨q, b, hop⟩ hd'
  rw [Disk.step_read paths d' c hop]
  cases d'.record paths c.filename with
  | none => exact (Disk.logged_ne ho c _).trans hd'
  | some m =>
    dsimp only
    split_ifs
    · cases d' (paths.storage c.filename) <;> exact (Disk.logged_ne ho c _).trans hd'
    · exact (Disk.logged_ne ho c _).trans hd'

/-- A read with the passphrase argument of the write gives what was written, as far as the buffer holds it. -/
theorem read_of_holds {c : Call} {b : UInt64} (hop : c.op = .read pass b) (hm : d.record paths c.filename = some m)
    (hfile : d (paths.storage c.filename) = some (cipherIfEncrypted m pass content))
    (hread : checkPermission c.username c.group m .read = true) (hb : 1 ≤ b) :
    (d.step paths c).2 = { ret := some true, buffer := some (content.take (b.toNat - 1)) } := by
  rw [Disk.step_read_ok paths d c hop hm hfile hread, cipherIfEncrypted_take, UInt64.toNat_sub_of_le _ _ hb]
  rfl

/-- A decryption with the passphrase of the write leaves what was written, and the record without its flag if it was staged. -/
theorem decrypt_of_holds {c : Call} {p : CString} (hop : c.op = .decrypt p) (hdb : paths.storage c.filename ≠ paths.filesDb)
    (hlog : paths.storage c.filename ≠ paths.auditLog) (hm : d.record paths c.filename = some m)
    (hfile : d (paths.storage c.filename) = some (cipherIfEncrypted m (some p) content)) (hret : (d.step paths c).2.ret = some true) :
    m.isEncrypted = 1 ∧ (d.step paths c).1 (paths.storage c.filename) = some content ∧
      (d.step paths c).1.record paths c.filename =
        (((d.filesMeta paths).take maxRecords).find? (nameMatches c.filename)).map (·.setFlag 0) := by
  obtain ⟨m', file, hm', hflag, hfile', hdisk, hrec⟩ := Disk.step_transform_stored (.inr ⟨hop, rfl, rfl⟩) hdb hlog hret
  obtain rfl := Option.some.inj (hm.symm.trans hm')
  obtain rfl := Option.some.inj (hfile.symm.trans hfile')
  have hsealed : m.isEncrypted ≠ 0 := by
    rw [hflag]
    decide
  exact ⟨hflag, by rw [hdisk, cipherIfEncrypted_sealed hsealed, xorCipher_xorCipher], hrec⟩

/-- A decryption of a flagged file that is there returns 1. -/
theorem decrypt_returns {c : Call} {p : CString} (hop : c.op = .decrypt p) (hm : d.record paths c.filename = some m)
    (hwrite : checkPermission c.username c.group m .write = true) (hflag : m.isEncrypted = 1) {file : List UInt8}
    (hfile : d (paths.storage c.filename) = some file) : (d.step paths c).2.ret = some true := by
  obtain ⟨a, -, hstep⟩ : ∃ a, _ ∧ d.step paths c = _ := Disk.step_transform (.inr ⟨hop, rfl, rfl⟩)
  have haccepted : d.TransformAccepted paths (Io.allOk c.timestr) c.username c.group c.filename 1 :=
    ⟨m, hm, hwrite, hflag, Option.isSome_iff_exists.mpr ⟨file, hfile⟩, rfl⟩
  obtain ⟨m', file', -, -, -, hout⟩ := Disk.transformFile_accepted p 0 a haccepted
  rw [Io.allOk_ok, if_pos rfl] at hout
  rw [hstep, hout]
  rfl

/-! ## After an overwrite -/

/-- The disk after an overwrite: the content, enciphered if it is, and the line of the log. -/
def overwritten (paths : Paths Obj) (d : Disk Obj) (f username group : CString) (m : FileMeta) (pass : Option CString) (c : CString)
    (t : List UInt8) : Disk Obj :=
  (d.store (paths.storage f) (some (cipherIfEncrypted m pass c.bytes))).logged paths
    ⟨username, group, f, .write pass c false, t⟩ .success

theorem step_overwrite (hm : d.record paths f = some m) (hwrite : checkPermission username group m .write = true)
    (pass : Option CString) (c : CString) (t : List UInt8) :
    d.step paths ⟨username, group, f, .write pass c false, t⟩ = (overwritten paths d f username group m pass c t, .ofRet (some true)) :=
  Disk.step_write paths d ⟨username, group, f, .write pass c false, t⟩ rfl hm hwrite

variable (d username group m pass) in
/-- The records after it, and after any reads, where the path does not lead to the database. -/
theorem overwritten_filesMeta (hdb : paths.storage f ≠ paths.filesDb) (c : CString) (t : List UInt8) {reads : List Call}
    (hreads : ∀ r ∈ reads, r.IsRead) :
    (Runs.final (Disk.step paths) (overwritten paths d f username group m pass c t) reads).filesMeta paths = d.filesMeta paths := by
  rw [Disk.filesMeta_congr (reads_keep _ hreads paths.filesDb_ne_auditLog), overwritten, Disk.filesMeta_logged,
    Disk.filesMeta_store_ne hdb.symm]

variable (d username group m pass) in
/-- The bytes, where it does not lead to the log. -/
theorem overwritten_file (hlog : paths.storage f ≠ paths.auditLog) (c : CString) (t : List UInt8) {reads : List Call}
    (hreads : ∀ r ∈ reads, r.IsRead) :
    Runs.final (Disk.step paths) (overwritten paths d f username group m pass c t) reads (paths.storage f) =
      some (cipherIfEncrypted m pass c.bytes) := by
  rw [reads_keep _ hreads hlog, overwritten, Disk.logged_ne hlog, Disk.store_self]

/-! ## The two other files -/

/-- The log: nothing is written, and one byte of it is read. -/
theorem not_usable_log (hm : d.record paths f = some m) (hread : checkPermission username group m .read = true)
    (hwrite : checkPermission username group m .write = true) (hlog : paths.storage f = paths.auditLog) :
    ¬OverwriteUsable paths d f username group m := by
  intro h
  have hdb : paths.storage f ≠ paths.filesDb := hlog.trans_ne paths.filesDb_ne_auditLog.symm
  obtain ⟨-, hreads, -⟩ := h none (cstring "") [] [] (by simp)
  have hbuffer := hreads 2 [] (by decide)
  rw [step_overwrite hm hwrite, Runs.final_nil] at hbuffer
  have hrecord : (overwritten paths d f username group m none (cstring "") []).record paths f = some m := by
    rw [Disk.record, overwritten, Disk.filesMeta_logged, Disk.filesMeta_store_ne hdb.symm]
    exact hm
  have hstored : d.store (paths.storage f) (some (cipherIfEncrypted m none [])) (paths.storage f) = some [] := Disk.store_self _ _
  obtain ⟨tail, hfile, htail⟩ :
      ∃ tail, overwritten paths d f username group m none (cstring "") [] (paths.storage f) = some ([] ++ tail) ∧
        (tail = [] ↔ paths.storage f ≠ paths.auditLog) := Disk.logged_file hstored _ _
  rw [Disk.step_read_ok paths _ ⟨username, group, f, .read none 2, []⟩ rfl hrecord hfile hread] at hbuffer
  have htaken : tail.take 1 = [] := Option.some.inj (congrArg Reply.buffer hbuffer)
  have hnil : tail = [] := by simpa using htaken
  exact htail.mp hnil hlog

/-- The database: nothing is written, and no record is left. -/
theorem not_usable_db (hm : d.record paths f = some m) (hwrite : checkPermission username group m .write = true)
    (hdb : paths.storage f = paths.filesDb) : ¬OverwriteUsable paths d f username group m := by
  intro h
  obtain ⟨-, hreads, -⟩ := h none (cstring "") [] [] (by simp)
  have hbuffer := hreads 1 [] (by decide)
  rw [step_overwrite hm hwrite, Runs.final_nil] at hbuffer
  have hempty : (overwritten paths d f username group m none (cstring "") []).record paths f = none := by
    rw [Disk.record, overwritten, Disk.filesMeta_logged, Disk.filesMeta, Disk.metaRecords, hdb, Disk.store_self]
    rfl
  rw [Disk.step_read paths _ ⟨username, group, f, .read none 1, []⟩ rfl] at hbuffer
  simp only [hempty] at hbuffer
  cases hbuffer

end OverwriteAux

open OverwriteAux

/-- A call of the user `carol` of the group `staff`. -/
abbrev carol (f : String) (op : FsOp) : Call := .of "carol" "staff" f op

/-- Her file `diary` holds `hello` and is encrypted. -/
def diaryDisk : Disk (List (List UInt8)) :=
  Runs.final (Disk.step srv) Disk.empty
    [carol "diary" (.create (some (cstring "rw-------")) (cstring "hello")), carol "diary" (.encrypt (cstring "a"))]

end OsSecurity.Fms
