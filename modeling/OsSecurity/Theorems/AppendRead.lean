import OsSecurity.Lemmas.Cipher
import OsSecurity.Lemmas.Disk
import OsSecurity.Lib.Runs

/-!
# Append, then read

`fs_write_file` enciphers what it appends from the start of the keystream, whatever stands in the file before it, and
`fs_read_file` deciphers the whole file in one go. So an append to an encrypted file reads back only where the keystream happens
to repeat itself. And an append to the log is logged behind what it appends.
-/

namespace OsSecurity.Fms

open CLib

variable {Obj : Type*} [DecidableEq Obj] (paths : Paths Obj)

/-- The file of a record holds a plaintext for the readers that give a passphrase: as it is, or enciphered with the passphrase
where the record is flagged. -/
def Holds (d : Disk Obj) (f : CString) (m : FileMeta) (pass : Option CString) (plaintext : List UInt8) : Prop :=
  d.record paths f = some m ∧ d (paths.storage f) = some (cipherIfEncrypted m pass plaintext)

namespace AppendAux

variable {paths}

/-- `fs_encrypt_file` keeps the plaintext a file under `storage/` holds. -/
theorem holds_of_encrypt {d : Disk Obj} (enc : Call) {p : CString} (hop : enc.op = .encrypt p) {m : FileMeta}
    {plaintext : List UInt8} (hm : Holds paths d enc.filename m (some p) plaintext) (hdb : paths.storage enc.filename ≠ paths.filesDb)
    (hlog : paths.storage enc.filename ≠ paths.auditLog) (hbound : (d.filesMeta paths).length ≤ maxRecords)
    (hret : (d.step paths enc).2.ret = some true) :
    Holds paths (d.step paths enc).1 enc.filename (m.setFlag 1) (some p) plaintext := by
  obtain ⟨m', file, hm', hflag, hfile, hdisk, hrec⟩ := Disk.step_transform_stored (.inl ⟨hop, rfl, rfl⟩) hdb hlog hret
  obtain rfl := Option.some.inj (hm.1.symm.trans hm')
  obtain rfl := Option.some.inj (hm.2.symm.trans hfile)
  constructor
  · rw [hrec, List.take_of_length_le hbound]
    exact congrArg (Option.map _) hm'
  · have hset : (m.setFlag 1).isEncrypted ≠ 0 := by simp [FileMeta.setFlag]
    rw [hdisk, cipherIfEncrypted_plain hflag, cipherIfEncrypted_sealed hset]

/-- Two buffers enciphered apart read back as the two buffers exactly when the file is not encrypted, or the key bytes at the
positions of the second are those at the start. -/
theorem cipherIfEncrypted_append_iff (m : FileMeta) (pass : Option CString) (a b : List UInt8) :
    cipherIfEncrypted m pass (cipherIfEncrypted m pass a ++ cipherIfEncrypted m pass b) = a ++ b ↔
      ∀ p, pass = some p → m.isEncrypted = 0 ∨ ∀ j < b.length, cipherKey p (a.length + j) = cipherKey p j := by
  by_cases hflag : m.isEncrypted = 0
  · simp [cipherIfEncrypted_plain hflag, hflag]
  · cases pass with
    | none => simp [cipherIfEncrypted]
    | some p =>
      simp only [cipherIfEncrypted_sealed hflag, xorCipher_append_iff, Option.some.injEq, forall_eq']
      exact ⟨.inr, fun h => h.resolve_left hflag⟩

/-- After an append the record is found as before, and the file holds what it held, what was appended, and what was logged. -/
theorem appended {d : Disk Obj} {c : Call} {pass : Option CString} {content : CString} (hop : c.op = .write pass content true)
    {m : FileMeta} {file : List UInt8} (hm : d.record paths c.filename = some m) (hfile : d (paths.storage c.filename) = some file)
    (hwrite : checkPermission c.username c.group m .write = true) :
    (d.step paths c).2 = .ofRet (some true) ∧ (d.step paths c).1.record paths c.filename = some m ∧
      ∃ tail, (d.step paths c).1 (paths.storage c.filename) = some (file ++ cipherIfEncrypted m pass content.bytes ++ tail) ∧
        (tail = [] ↔ paths.storage c.filename ≠ paths.auditLog) := by
  rw [Disk.step_write paths d c hop hm hwrite, if_pos rfl]
  refine ⟨rfl, ?_, Disk.logged_file ?_ c .success⟩
  · rw [Disk.record, Disk.filesMeta_logged]
    exact Disk.record_append hm _ _
  · rw [Disk.append_self, hfile, Option.getD_some]

end AppendAux

open AppendAux

/-- An append by a user with read and write permission returns 1, and a read with the same passphrase and a large enough buffer
then gives the plaintext with the content after it exactly when the name does not denote the log, or the buffer has no room for a byte of
its line; and no passphrase is given, the file is not encrypted, or the key bytes at the positions of the content are those at the
start. -/
theorem append_read_iff {d : Disk Obj} {f username group : CString} {m : FileMeta} {pass : Option CString}
    {plaintext : List UInt8} (hm : Holds paths d f m pass plaintext)
    (hread : checkPermission username group m .read = true) (hwrite : checkPermission username group m .write = true)
    (c : CString) {b : UInt64} (hb : plaintext.length + c.length < b.toNat) (t t' : List UInt8) :
    let appended := d.step paths ⟨username, group, f, .write pass c true, t⟩
    let read := appended.1.step paths ⟨username, group, f, .read pass b, t'⟩
    appended.2.ret = some true ∧ read.2.ret = some true ∧
      (read.2.buffer = some (plaintext ++ c.bytes) ↔
        (paths.storage f ≠ paths.auditLog ∨ b.toNat = plaintext.length + c.length + 1) ∧
          ∀ p, pass = some p → m.isEncrypted = 0 ∨ ∀ j < c.length, cipherKey p (plaintext.length + j) = cipherKey p j) := by
  intro written read
  obtain ⟨hret, hrecord, tail, hfile, htail⟩ := appended (c := ⟨username, group, f, .write pass c true, t⟩) rfl hm.1 hm.2 hwrite
  have hreply := Disk.step_read_ok paths written.1 ⟨username, group, f, .read pass b, t'⟩ rfl hrecord hfile hread
  refine ⟨congrArg Reply.ret hret, congrArg Reply.ret hreply, ?_⟩
  -- the buffer holds all that was there and all that was appended
  have hroom : (b - 1).toNat = b.toNat - 1 := by
    refine UInt64.toNat_sub_of_le _ _ ?_
    rw [UInt64.le_iff_toNat_le]
    change 1 ≤ b.toNat
    omega
  have hfront : (cipherIfEncrypted m pass plaintext ++ cipherIfEncrypted m pass c.bytes).length = (plaintext ++ c.bytes).length := by
    rw [List.length_append, List.length_append, cipherIfEncrypted_length, cipherIfEncrypted_length]
  have hlength : (plaintext ++ c.bytes).length = plaintext.length + c.length := List.length_append
  have hfits : (cipherIfEncrypted m pass plaintext ++ cipherIfEncrypted m pass c.bytes).length ≤ b.toNat - 1 := by omega
  rw [congrArg Reply.buffer hreply, Option.some.injEq, hroom, List.take_append, List.take_of_length_le hfits,
    cipherIfEncrypted_append_eq_iff m pass hfront, cipherIfEncrypted_append_iff, List.take_eq_nil_iff, htail, hfront, hlength, and_comm]
  refine and_congr ?_ Iff.rfl
  constructor
  · rintro (hfull | hother)
    · exact .inr (by omega)
    · exact .inl hother
  · rintro (hother | hfull)
    · exact .inr hother
    · exact .inl (by omega)

namespace AppendAux

/-- A call of the user `alice` of the group `staff` on the file `notes.txt`. -/
abbrev alice (op : FsOp) : Call := .of "alice" "staff" "notes.txt" op

/-- The record of her file before it is encrypted. -/
def notesMeta : FileMeta := newFileMeta (cstring "notes.txt") (cstring "alice") (cstring "staff") (cstring "rw-------")

/-- Her file, which holds `hello`. -/
def plainNotes : Disk (List (List UInt8)) :=
  (Disk.empty.step srv (alice (.create (some (cstring "rw-------")) (cstring "hello")))).1

/-- It is encrypted with the passphrase `a`. -/
def sealedNotes : Disk (List (List UInt8)) := (plainNotes.step srv (alice (.encrypt (cstring "a")))).1

end AppendAux

/-- Alice appends `x` and reads the file: both calls return 1, and the read does not give `hellox`. -/
theorem append_read_garbled :
    (Runs.trace (Disk.step srv) sealedNotes
        [alice (.write (some (cstring "a")) (cstring "x") true), alice (.read (some (cstring "a")) 4096)]).map (·.2) =
      [.ofRet (some true), { ret := some true, buffer := some (bytes "hello" ++ [0xa9]) }] ∧
    bytes "hello" ++ [0xa9] ≠ bytes "hello" ++ bytes "x" := by
  decide +kernel

/-- An append to alice's file reads back exactly when the key repeats itself at the fifth byte. -/
theorem append_read_iff_notes :
    let appended := sealedNotes.step srv
      ⟨cstring "alice", cstring "staff", cstring "notes.txt", .write (some (cstring "a")) (cstring "x") true, []⟩
    let read := appended.1.step srv ⟨cstring "alice", cstring "staff", cstring "notes.txt", .read (some (cstring "a")) 4096, []⟩
    appended.2.ret = some true ∧ read.2.ret = some true ∧
      (read.2.buffer = some (bytes "hello" ++ (cstring "x").bytes) ↔
        (srv.storage (cstring "notes.txt") ≠ srv.auditLog ∨ (4096 : UInt64).toNat = (bytes "hello").length + (cstring "x").length + 1) ∧
          ∀ p, some (cstring "a") = some p →
            (notesMeta.setFlag 1).isEncrypted = 0 ∨
              ∀ j < (cstring "x").length, cipherKey p ((bytes "hello").length + j) = cipherKey p j) := by
  have hplain : Holds srv plainNotes (cstring "notes.txt") notesMeta (some (cstring "a")) (bytes "hello") :=
    ⟨by decide +kernel, by decide +kernel⟩
  have hsealed : Holds srv sealedNotes (cstring "notes.txt") (notesMeta.setFlag 1) (some (cstring "a")) (bytes "hello") :=
    holds_of_encrypt (alice (.encrypt (cstring "a"))) rfl hplain (by decide +kernel) (by decide +kernel) (by decide +kernel)
      (by decide +kernel)
  have hallowed : ∀ perm, perm = .read ∨ perm = .write →
      checkPermission (cstring "alice") (cstring "staff") (notesMeta.setFlag 1) perm = true := by
    rintro perm (rfl | rfl)
    · decide +kernel
    · decide +kernel
  have hb : (bytes "hello").length + (cstring "x").length < (4096 : UInt64).toNat := by decide +kernel
  exact append_read_iff srv hsealed (hallowed .read (.inl rfl)) (hallowed .write (.inr rfl)) (cstring "x") hb [] []

end OsSecurity.Fms
