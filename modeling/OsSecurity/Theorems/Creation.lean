import OsSecurity.Lemmas.FileOps

/-!
# Creating files

A record is made under its name cut to the 63 bytes of the field, and looked up under the name as it is given. So a record that was made
is found again, and is taken back when the file cannot be opened, exactly where the name fits.
-/

namespace OsSecurity.Fms

open CLib

/-- What a record that was just made is good for: it is found, it cannot be made a second time, and its deletion leaves the records there
were before. -/
structure FoundAgain (io : Io) (db db' : List FileMeta) (f : CString) (m : FileMeta) : Prop where
  found : findFileMeta io db' f = some m
  again : ∀ owner group permStr, (createFileMeta io db' f owner group permStr).2 = false
  deleted : deleteFileMeta io db' f = (db, true)

namespace CreationAux

/-- The record made for a name matches it exactly when the name fits the field. -/
theorem nameMatches_new_iff (f owner group p : CString) :
    nameMatches f (newFileMeta f owner group p) = true ↔ f.length < maxFilename := by
  rw [nameMatches_iff_take, newFileMeta_name_take]
  constructor
  · intro h
    have hlen : min maxFilename f.length = min (maxFilename - 1) f.length := by
      simpa only [CString.length, CString.take, List.length_take] using congrArg CString.length h.symm
    have hpos : 0 < maxFilename := by decide
    omega
  · intro h
    rw [CString.take_of_length_le (Nat.le_of_lt h), CString.take_of_length_le (Nat.le_sub_one_of_lt h)]

/-- What `create_file_meta` checked and did when it returns 1. -/
theorem createFileMeta_ok {io : Io} (hfind : io.ok .findRead = true) {db : List FileMeta} {f owner group : CString}
    {permStr : Option CString} (h : (createFileMeta io db f owner group permStr).2 = true) :
    ∃ p, permStr = some p ∧ isValidPermString (some p) = true ∧ db.find? (nameMatches f) = none ∧
      (createFileMeta io db f owner group permStr).1 = db ++ [newFileMeta f owner group p] := by
  cases permStr with
  | none => exact absurd h Bool.false_ne_true
  | some p =>
    rw [createFileMeta, findFileMeta_eq db f hfind] at h ⊢
    split_ifs at h ⊢ with hinvalid hsome
    have hnone : db.find? (nameMatches f) = none := by simpa using hsome
    exact ⟨p, rfl, by simpa using hinvalid, hnone, rfl⟩

/-- A deletion that follows takes the record away, and no other, where the name fits. -/
theorem delete_created {io : Io} (hio : io.rewrites = true) {db : List FileMeta} (hdb : db.length ≤ maxRecords) {f : CString}
    (hf : f.length < maxFilename) (hnone : db.find? (nameMatches f) = none) (owner group p : CString) :
    (deleteFileMeta io (db ++ [newFileMeta f owner group p]) f).1 = db := by
  have hself : nameMatches f (newFileMeta f owner group p) = true := (nameMatches_new_iff f owner group p).mpr hf
  have hothers : db.filter (fun m => !nameMatches f m) = db := by
    rw [List.filter_eq_self]
    intro m hm
    simpa using List.find?_eq_none.mp hnone m hm
  -- a record behind the 1024th is not staged, so the rewriting drops it
  have htake : (db ++ [newFileMeta f owner group p]).take maxRecords =
      db ++ [newFileMeta f owner group p].take (maxRecords - db.length) := by
    rw [List.take_append, List.take_of_length_le hdb]
  rw [deleteFileMeta_eq _ _ hio, htake, List.filter_append, hothers]
  have hlast : ([newFileMeta f owner group p].take (maxRecords - db.length)).filter (fun m => !nameMatches f m) = [] := by
    rw [List.filter_eq_nil_iff]
    intro m hm
    rw [List.mem_singleton.mp (List.mem_of_mem_take hm)]
    simp [hself]
  rw [hlast, List.append_nil]

end CreationAux

open CreationAux

/-- In a database of less than 1024 records: a record that `create_file_meta` made is found again under its name, cannot be made a second
time and can be deleted, which leaves the records before, if and only if the name has at most 63 bytes. -/
theorem created_found_iff {io : Io} (hio : io.AllOk) {db : List FileMeta} (hdb : db.length < maxRecords)
    (f owner group p : CString) (h : (createFileMeta io db f owner group (some p)).2 = true) :
    FoundAgain io db (createFileMeta io db f owner group (some p)).1 f (newFileMeta f owner group p) ↔ f.length < maxFilename := by
  obtain ⟨p', hp', -, hnone, hdb'⟩ := createFileMeta_ok (hio .findRead) h
  obtain rfl := Option.some.inj hp'
  rw [hdb']
  have hself := nameMatches_new_iff f owner group p
  constructor
  · intro hagain
    refine hself.mp ?_
    have hfound := hagain.found
    rw [findFileMeta_eq _ f (hio .findRead)] at hfound
    exact List.find?_some hfound
  · intro hf
    have hfound : findFileMeta io (db ++ [newFileMeta f owner group p]) f = some (newFileMeta f owner group p) := by
      rw [findFileMeta_eq _ f (hio .findRead)]
      exact find_append_new_self hf hnone owner group p
    refine ⟨hfound, ?_, ?_⟩
    · intro owner' group' permStr'
      by_contra hmade
      rw [Bool.not_eq_false] at hmade
      obtain ⟨-, -, -, hfresh, -⟩ := createFileMeta_ok (hio .findRead) hmade
      rw [findFileMeta_eq _ f (hio .findRead), hfresh] at hfound
      exact absurd hfound.symm (Option.some_ne_none _)
    · refine Prod.ext (delete_created hio.rewrites (Nat.le_of_lt hdb) hf hnone owner group p) ?_
      have hlen : (db ++ [newFileMeta f owner group p]).length ≤ maxRecords := by
        rw [List.length_append, List.length_singleton]
        exact hdb
      rw [deleteFileMeta_eq _ _ hio.rewrites, List.take_of_length_le hlen, List.any_append, Bool.or_eq_true]
      exact .inr (by simpa using hself.mpr hf)

/-- A name of 64 bytes, one more than its field holds besides the NUL. -/
def tooLong : CString := CString.ofMem (List.replicate 64 97)

/-- It is made, and not found. -/
theorem created_not_found :
    (createFileMeta (Io.allOk []) [] tooLong (cstring "alice") (cstring "staff") (some (cstring "rw-------"))).2 = true ∧
      findFileMeta (Io.allOk [])
        (createFileMeta (Io.allOk []) [] tooLong (cstring "alice") (cstring "staff") (some (cstring "rw-------"))).1 tooLong = none := by
  decide +kernel

theorem created_found_iff_notes :
    FoundAgain (Io.allOk []) []
      (createFileMeta (Io.allOk []) [] (cstring "notes") (cstring "alice") (cstring "staff") (some (cstring "rw-------"))).1
      (cstring "notes") (newFileMeta (cstring "notes") (cstring "alice") (cstring "staff") (cstring "rw-------")) :=
  (created_found_iff (Io.allOk_allOk []) (by decide) _ _ _ _ (by decide +kernel)).mpr (by decide)

/-! ## The rollback -/

/-- When the opens of the database succeed, in a database of at most 1024 records, and with a filename of at most 63 bytes: an
`fs_create_file` that returns 0 leaves the records and the stored bytes as they were. -/
theorem create_rollback {Obj : Type*} [DecidableEq Obj] (resolve : List UInt8 → Obj) {io : Io} (hfind : io.ok .findRead = true)
    (hrewrite : io.rewrites = true) {w : World Obj} (hdb : w.filesMeta.length ≤ maxRecords) {f : CString}
    (hf : f.length < maxFilename) (username group : CString) (permStr : Option CString) (content : CString)
    (h : (fsCreateFile resolve io w username group f permStr content).2 = false) :
    (fsCreateFile resolve io w username group f permStr content).1.filesMeta = w.filesMeta ∧
      (fsCreateFile resolve io w username group f permStr content).1.disk = w.disk := by
  unfold fsCreateFile at h ⊢
  cases hmade : (createFileMeta io w.filesMeta f username group permStr).2 with
  | false =>
    simp only [hmade, Bool.not_false, if_true]
    exact ⟨rfl, rfl⟩
  | true =>
    obtain ⟨p, rfl, -, hnone, hdb'⟩ := createFileMeta_ok hfind hmade
    simp only [hmade, hdb', Bool.not_true, Bool.false_eq_true, if_false] at h ⊢
    cases hopen : io.ok .storageOpen with
    | true =>
      rw [hopen] at h
      exact absurd h.symm Bool.false_ne_true
    | false =>
      simp only [Bool.not_false, if_true]
      exact ⟨delete_created hrewrite hdb hf hnone username group p, rfl⟩

/-- The file that belongs to the record cannot be opened. -/
theorem create_rollback_notes :
    let w := fsCreateFile (id : List UInt8 → List UInt8) { ok := fun s => s != .storageOpen, timestr := [] } World.empty
      (cstring "alice") (cstring "staff") (cstring "notes") (some (cstring "rw-------")) (cstring "text")
    w.2 = false ∧ w.1.filesMeta = [] ∧ w.1.disk = fun _ => none := by
  have hfailed : (fsCreateFile (id : List UInt8 → List UInt8) { ok := fun s => s != .storageOpen, timestr := [] } World.empty
      (cstring "alice") (cstring "staff") (cstring "notes") (some (cstring "rw-------")) (cstring "text")).2 = false := by
    decide +kernel
  obtain ⟨hmeta, hdisk⟩ := create_rollback id rfl rfl (by decide) (by decide) _ _ _ _ hfailed
  exact ⟨hfailed, hmeta, hdisk⟩

end OsSecurity.Fms
