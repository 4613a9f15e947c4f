import OsSecurity.Lemmas.FileOps

/-!
# Write gating and all-or-nothing refusal

A call changes a file that has a record only if it names the file, is of the write class and passed the permission check; it
changes nothing else about a record than the flag; and a call that returns 0 changes nothing at all but the log.
-/

namespace OsSecurity.Fms

open CLib

variable {Obj : Type*} [DecidableEq Obj] (resolve : List UInt8 → Obj)

/-- The operations that need write permission. -/
def FsOp.isWriteClass : FsOp → Bool
  | .write _ _ _ => true
  | .delete => true
  | .encrypt _ => true
  | .decrypt _ => true
  | _ => false

/-- Whether the operation is `fs_delete_file`. -/
def FsOp.isDelete : FsOp → Bool
  | .delete => true
  | _ => false

/-- What no operation but `chmod_file` may change about a record. -/
def FileMeta.identity (m : FileMeta) : CharArray maxFilename × CharArray maxUsername × CharArray maxGroup ×
    CharArray (permStringLen + 1) := (m.filename, m.owner, m.group, m.permissions)

/-- The stored bytes of a file, its existence or its flag differ between two worlds. -/
def Changed (f : CString) (w w' : World Obj) : Prop :=
  w'.disk (storageObj resolve f) ≠ w.disk (storageObj resolve f) ∨ (w'.record f).isSome ≠ (w.record f).isSome ∨
    (w'.record f).map (·.isEncrypted) ≠ (w.record f).map (·.isEncrypted)

namespace GatingAux

variable {resolve}

omit [DecidableEq Obj] in
/-- A file with the same bytes and the same record has not changed. -/
theorem not_changed {f : CString} {w w' : World Obj} (hd : w'.disk (storageObj resolve f) = w.disk (storageObj resolve f))
    (hr : w'.record f = w.record f) : ¬ Changed resolve f w w' := by
  rintro (h | h | h)
  · exact h hd
  · exact h (by rw [hr])
  · exact h (by rw [hr])

/-- A call that changes a file names it. -/
theorem filename_of_changed {names : Set CString} (hdist : Distinct resolve names) {w : World Obj} {c : Call} (hc : c.filename ∈ names)
    (hbound : w.filesMeta.length ≤ maxRecords) {f : CString} (hf : f ∈ names)
    (hch : Changed resolve f w (step resolve w c).1) : c.filename = f := by
  by_contra hne
  have hne' : f ≠ c.filename := fun h => hne h.symm
  exact not_changed (step_disk_ne resolve w c (hdist.ne hf hc hne')) (step_record_ne resolve w c (hdist.fits f hf) (hdist.fits _ hc) hne' hbound) hch

/-- Setting a flag keeps the identity of every record. -/
theorem mapMatching_setFlag_identity (f : CString) (e : Int) (db : List FileMeta) :
    (mapMatching f (·.setFlag e) db).map FileMeta.identity = db.map FileMeta.identity := by
  rw [mapMatching, List.map_map]
  refine List.map_congr_left ?_
  intro m _
  by_cases hm : nameMatches f m = true <;> simp [hm, FileMeta.identity]

/-- A call other than a chmod changes the named file only with write permission, and only by an operation of the write class
that returns 1. -/
theorem gate (w : World Obj) (c : Call) (hop : ∀ p, c.op ≠ .chmod p) {m : FileMeta} (hm : w.record c.filename = some m)
    (hch : Changed resolve c.filename w (step resolve w c).1) :
    (step resolve w c).2.ret = some true ∧ c.op.isWriteClass = true ∧ checkPermission c.username c.group m .write = true := by
  have h := step_effect resolve w c
  generalize (step resolve w c).1 = w', (step resolve w c).2 = r at h hch
  cases h with
  | refused => exact absurd hch (not_changed rfl rfl)
  | created p content _ _ hnew => rw [hm] at hnew; nomatch hnew
  | read => exact absurd hch (not_changed rfl rfl)
  | written pass content append m' hop' hm' hperm =>
    obtain rfl := Option.some.inj (hm.symm.trans hm')
    exact ⟨rfl, by rw [hop']; rfl, hperm⟩
  | deleted m' hop' hm' hperm =>
    obtain rfl := Option.some.inj (hm.symm.trans hm')
    exact ⟨rfl, by rw [hop']; rfl, hperm⟩
  | transformed p expect setTo m' file hop' hm' hperm =>
    obtain rfl := Option.some.inj (hm.symm.trans hm')
    refine ⟨rfl, ?_, hperm⟩
    rcases hop' with ⟨hop', -⟩ | ⟨hop', -⟩ <;> rw [hop'] <;> rfl
  | chmodded p hop' => exact absurd hop' (hop _)

/-- The records a call other than a chmod does not delete come first in the database after it, each with its owner, group and
permissions. -/
theorem identity_kept (w : World Obj) (c : Call) (hop : ∀ p, c.op ≠ .chmod p) (hbound : w.filesMeta.length ≤ maxRecords) :
    (w.filesMeta.filter (fun m => !(c.op.isDelete && (step resolve w c).2.ret == some true && nameMatches c.filename m))).map
      FileMeta.identity <+: (step resolve w c).1.filesMeta.map FileMeta.identity := by
  have hsame : ∀ {db : List FileMeta} {q : FileMeta → Bool}, (w.filesMeta.map FileMeta.identity) <+: db.map FileMeta.identity →
      (∀ m, q m = true) → (w.filesMeta.filter q).map FileMeta.identity <+: db.map FileMeta.identity := by
    intro db q h hq
    rwa [List.filter_eq_self.mpr (fun m _ => hq m)]
  have h := step_effect resolve w c
  generalize (step resolve w c).1 = w', (step resolve w c).2 = r at h
  cases h with
  | refused => exact hsame (List.prefix_refl _) (by simp [Reply.ofRet])
  | created p content hop' =>
    refine hsame ?_ (by simp [hop', FsOp.isDelete])
    simp only [logged_filesMeta, store_filesMeta, List.map_append]
    exact List.prefix_append _ _
  | read pass b m file hop' => exact hsame (List.prefix_refl _) (by simp [hop', FsOp.isDelete])
  | written pass content append m hop' => exact hsame (List.prefix_refl _) (by simp [hop', FsOp.isDelete])
  | deleted m hop' =>
    simp only [logged_filesMeta, store_filesMeta, List.take_of_length_le hbound, hop', FsOp.isDelete, Reply.ofRet, beq_self_eq_true,
      Bool.true_and]
    exact List.prefix_refl _
  | transformed p expect setTo m file hop' =>
    refine hsame ?_ (by rcases hop' with ⟨hop', -⟩ | ⟨hop', -⟩ <;> simp [hop', FsOp.isDelete])
    simp only [logged_filesMeta, store_filesMeta, List.take_of_length_le hbound, mapMatching_setFlag_identity]
    exact List.prefix_refl _
  | chmodded p hop' => exact absurd hop' (hop _)

/-- A call returns 1, or returns 0 and leaves the records and every stored byte as they were. -/
theorem refusal_changes_nothing (w : World Obj) (c : Call) (hop : ∀ p, c.op ≠ .chmod p) :
    (step resolve w c).2.ret = some true ∨ (step resolve w c).2.ret = some false ∧
      (step resolve w c).1.filesMeta = w.filesMeta ∧ (step resolve w c).1.disk = w.disk := by
  have h := step_effect resolve w c
  generalize (step resolve w c).1 = w', (step resolve w c).2 = r at h
  cases h with
  | refused => exact .inr ⟨rfl, rfl, rfl⟩
  | created | read | written | deleted | transformed => exact .inl rfl
  | chmodded p hop' => exact absurd hop' (hop _)

end GatingAux

open GatingAux

/-- Of a database that fits the staging array, a call changes a file that has a record, among files of distinct objects, only under the write permission of that
record, by an operation of the write class that names the file and returns 1; the records it does not delete keep their owner,
group and permissions; and when it returns 0, the records and all stored bytes are as before. -/
theorem write_gating {names : Set CString} (hdist : Distinct resolve names) (w : World Obj) (hbound : w.filesMeta.length ≤ maxRecords) (c : Call)
    (hc : c.filename ∈ names) (hop : ∀ p, c.op ≠ .chmod p) :
    (∀ f m, f ∈ names → w.record f = some m → Changed resolve f w (step resolve w c).1 →
      c.filename = f ∧ (step resolve w c).2.ret = some true ∧ c.op.isWriteClass = true ∧
        checkPermission c.username c.group m .write = true) ∧
    (w.filesMeta.filter (fun m => !(c.op.isDelete && (step resolve w c).2.ret == some true && nameMatches c.filename m))).map
      FileMeta.identity <+: (step resolve w c).1.filesMeta.map FileMeta.identity ∧
    ((step resolve w c).2.ret = some true ∨ (step resolve w c).2.ret = some false ∧
      (step resolve w c).1.filesMeta = w.filesMeta ∧ (step resolve w c).1.disk = w.disk) := by
  refine ⟨?_, identity_kept w c hop hbound, refusal_changes_nothing w c hop⟩
  intro f m hf hm hch
  obtain rfl := filename_of_changed hdist hc hbound hf hch
  exact ⟨rfl, gate w c hop hm hch⟩

/-- A member of the group that may write deletes alice's file. -/
theorem write_gating_delete :
    let w := (step id (World.empty : World (List UInt8))
      (.of "alice" "staff" "notes.txt" (.create (some (cstring "rw-rw----")) (cstring "hello")))).1
    let c := Call.of "bob" "staff" "notes.txt" .delete
    c.filename = cstring "notes.txt" ∧ (step id w c).2.ret = some true ∧ c.op.isWriteClass = true ∧
      checkPermission c.username c.group (newFileMeta (cstring "notes.txt") (cstring "alice") (cstring "staff")
        (cstring "rw-rw----")) .write = true := by
  have hfits : (cstring "notes.txt").length < maxFilename := by decide
  exact (write_gating id distinct_id _ (by decide) (Call.of "bob" "staff" "notes.txt" .delete) hfits
    (fun _ h => FsOp.noConfusion h)).1 (cstring "notes.txt") _ hfits (by decide) (.inl (by decide))

end OsSecurity.Fms
