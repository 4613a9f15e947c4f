import OsSecurity.Fms.Perms
import Mathlib.Tactic.SplitIfs

/-!
# Helpers about the metadata store

What the comparison of names means, and what each operation on the records does to the list of them: one lemma for each
function of `perms.c`, so that later proofs need not look at its loops.
-/

namespace OsSecurity.Fms

open CLib

/-- The name a record carries, as a C string. -/
def FileMeta.name (m : FileMeta) : CString := m.filename.str

/-! ## Names -/

/-- A name in a record is no longer than its field. -/
theorem name_length_le (m : FileMeta) : m.name.length ≤ maxFilename := by
  have := cstr_length_le m.filename.bytes
  rw [m.filename.size] at this
  exact this

/-- A record matches an argument when their names agree on `MAX_FILENAME` bytes. -/
theorem nameMatches_iff_take (f : CString) (m : FileMeta) : nameMatches f m = true ↔ m.name = f.take maxFilename := by
  rw [nameMatches, beq_iff_eq, strncmp_eq_zero_iff, cstr_bytes, CString.ext_iff]
  have h : (cstr m.filename.bytes).take maxFilename = cstr m.filename.bytes := List.take_of_length_le (name_length_le m)
  rw [h]
  rfl

/-- For an argument that fits the field, a record matches exactly when it carries that name. -/
theorem nameMatches_iff {f : CString} (hf : f.length ≤ maxFilename) (m : FileMeta) :
    nameMatches f m = true ↔ m.name = f := by
  rw [nameMatches_iff_take, CString.take_of_length_le hf]

/-- A record with the same filename field matches the same arguments. -/
theorem nameMatches_congr {m m' : FileMeta} (h : m'.filename = m.filename) (f : CString) :
    nameMatches f m' = nameMatches f m := by
  rw [nameMatches, nameMatches, h]

/-- The name of a new record is cut to its field. -/
theorem newFileMeta_name_take (f owner group p : CString) : (newFileMeta f owner group p).name = f.take (maxFilename - 1) := by
  rw [FileMeta.name, newFileMeta, CharArray.zero_strncpy_str]

/-- The record made for a name that fits carries it. -/
theorem newFileMeta_name {f : CString} (hf : f.length < maxFilename) (owner group p : CString) :
    (newFileMeta f owner group p).name = f := by
  rw [newFileMeta_name_take]
  exact CString.take_of_length_le (Nat.le_of_lt_succ hf)

/-- When both names fit, a new record matches its own name only. -/
theorem nameMatches_newFileMeta {f g : CString} (hf : f.length < maxFilename) (hg : g.length < maxFilename)
    (owner group p : CString) : nameMatches f (newFileMeta g owner group p) = true ↔ g = f := by
  rw [nameMatches_iff (Nat.le_of_lt hf), newFileMeta_name hg]

/-! ## The loops of `rewrite_meta_matching` -/

/-- The loop reads records until the array is full. -/
theorem readRecords_eq_take {α : Type*} (db : List α) (count : Nat) (h : count ≤ maxRecords) :
    readRecords count db = db.take (maxRecords - count) := by
  induction db generalizing count with
  | nil => simp [readRecords]
  | cons m rest ih =>
    rw [readRecords]
    by_cases hlt : count < maxRecords
    · obtain ⟨d, hd⟩ : ∃ d, maxRecords - count = d + 1 := ⟨maxRecords - count - 1, by omega⟩
      rw [if_pos hlt, ih (count + 1) hlt, hd, List.take_succ_cons, show maxRecords - (count + 1) = d from by omega]
    · rw [if_neg hlt, show maxRecords - count = 0 from by omega, List.take_zero]

/-- The staging array keeps the first 1024 records. -/
theorem readRecords_zero {α : Type*} (db : List α) : readRecords 0 db = db.take maxRecords :=
  readRecords_eq_take db 0 (Nat.zero_le _)

/-- The writing loop writes what `rewriteRecord` makes of the records that match, and the others as they are. -/
theorem writeRecords_eq (f : CString) (del : Bool) (p : Option CString) (e : Int) (db : List FileMeta) :
    writeRecords f del p e db =
      (db.flatMap (fun m => if nameMatches f m then rewriteRecord del p e m else [m]), db.any (nameMatches f)) := by
  induction db with
  | nil => rfl
  | cons m rest ih =>
    rw [writeRecords, ih]
    by_cases hm : nameMatches f m = true <;> simp [hm]

/-- The record with its permissions replaced, as `rewrite_meta_matching` writes them. -/
def FileMeta.setPermissions (m : FileMeta) (p : CString) : FileMeta :=
  { m with permissions := (m.permissions.strncpy p permStringLen (Nat.le_succ 9)).set permStringLen 0 }

/-- A permission string that is valid fills its field. -/
theorem length_of_valid {p : CString} (hp : isValidPermString (some p) = true) : p.length = permStringLen := by
  simp only [isValidPermString, Bool.and_eq_true, beq_iff_eq] at hp
  exact hp.1

/-- A valid permission string is written whole, with a NUL behind it, by `chmod_file` and by `create_file_meta`. -/
theorem setPermissions_permissions (m : FileMeta) {p : CString} (hp : isValidPermString (some p) = true) :
    (m.setPermissions p).permissions.str = p ∧ 0 ∈ (m.setPermissions p).permissions.bytes := by
  refine ⟨?_, CharArray.zero_mem_set _ _ (Nat.lt_succ_self 9)⟩
  rw [FileMeta.setPermissions, CharArray.strncpy_set_str]
  exact CString.take_of_length_le (Nat.le_of_eq (length_of_valid hp))

/-- A valid permission string is stored with its terminator. -/
theorem newFileMeta_permissions (f owner group : CString) {p : CString} (hp : isValidPermString (some p) = true) :
    (newFileMeta f owner group p).permissions.str = p ∧ 0 ∈ (newFileMeta f owner group p).permissions.bytes := by
  refine ⟨?_, CharArray.zero_mem_set _ _ (Nat.lt_succ_self 9)⟩
  rw [newFileMeta, CharArray.strncpy_set_str]
  exact CString.take_of_length_le (Nat.le_of_eq (length_of_valid hp))

/-- The record with its flag replaced, unless the value is -1. -/
def FileMeta.setFlag (m : FileMeta) (e : Int) : FileMeta := if e ≠ -1 then { m with isEncrypted := e } else m

@[simp] theorem setPermissions_filename (m : FileMeta) (p : CString) : (m.setPermissions p).filename = m.filename := rfl
@[simp] theorem setPermissions_owner (m : FileMeta) (p : CString) : (m.setPermissions p).owner = m.owner := rfl
@[simp] theorem setPermissions_group (m : FileMeta) (p : CString) : (m.setPermissions p).group = m.group := rfl
@[simp] theorem setPermissions_isEncrypted (m : FileMeta) (p : CString) :
    (m.setPermissions p).isEncrypted = m.isEncrypted := rfl

@[simp] theorem setFlag_filename (m : FileMeta) (e : Int) : (m.setFlag e).filename = m.filename := by
  unfold FileMeta.setFlag; split <;> rfl

@[simp] theorem setFlag_owner (m : FileMeta) (e : Int) : (m.setFlag e).owner = m.owner := by
  unfold FileMeta.setFlag; split <;> rfl

@[simp] theorem setFlag_group (m : FileMeta) (e : Int) : (m.setFlag e).group = m.group := by
  unfold FileMeta.setFlag; split <;> rfl

@[simp] theorem setFlag_permissions (m : FileMeta) (e : Int) : (m.setFlag e).permissions = m.permissions := by
  unfold FileMeta.setFlag; split <;> rfl

/-- Permission does not depend on the flag. -/
theorem checkPermission_setFlag (username group : CString) (m : FileMeta) (e : Int) (perm : PermType) :
    checkPermission username group (m.setFlag e) perm = checkPermission username group m perm := by
  simp [checkPermission, baseIndex]

/-- The records after `g` has been applied to those that match `f`. -/
def mapMatching (f : CString) (g : FileMeta → FileMeta) (db : List FileMeta) : List FileMeta :=
  db.map (fun m => if nameMatches f m then g m else m)

/-- A change of records is no loss of records. -/
theorem mapMatching_length (f : CString) (g : FileMeta → FileMeta) (db : List FileMeta) :
    (mapMatching f g db).length = db.length := List.length_map _

/-- A rewriting that deletes nothing maps the records that match. -/
theorem flatMap_singleton_ite (f : CString) (g : FileMeta → FileMeta) (db : List FileMeta) :
    db.flatMap (fun m => if nameMatches f m then [g m] else [m]) = mapMatching f g db := by
  induction db with
  | nil => rfl
  | cons m rest ih =>
    simp only [mapMatching] at ih
    by_cases hm : nameMatches f m = true <;> simp [mapMatching, hm, ih]

/-- A rewriting that deletes filters out the records that match. -/
theorem flatMap_nil_ite (f : CString) (db : List FileMeta) :
    db.flatMap (fun m => if nameMatches f m then [] else [m]) = db.filter (fun m => !nameMatches f m) := by
  induction db with
  | nil => rfl
  | cons m rest ih => by_cases hm : nameMatches f m = true <;> simp [hm, ih]

/-- Changes that leave the names alone leave the list of them alone. -/
theorem mapMatching_names (f : CString) {g : FileMeta → FileMeta} (hg : ∀ m, (g m).filename = m.filename) (db : List FileMeta) :
    (mapMatching f g db).map FileMeta.name = db.map FileMeta.name := by
  rw [mapMatching, List.map_map]
  refine List.map_congr_left ?_
  intro m _
  by_cases hm : nameMatches f m = true
  · simp only [Function.comp_apply, if_pos hm, FileMeta.name, hg]
  · simp only [Function.comp_apply, if_neg hm]

/-! ## What each operation does when its I/O succeeds -/

/-- Both `fopen`s of `rewrite_meta_matching` succeed. -/
def Io.rewrites (io : Io) : Bool := io.ok .rewriteRead && io.ok .rewriteWrite

/-- When no I/O fails the file is rewritten. -/
theorem Io.AllOk.rewrites {io : Io} (h : io.AllOk) : io.rewrites = true := by
  rw [Io.rewrites, h, h]
  rfl

section

variable {io : Io} (db : List FileMeta) (f : CString)

/-- The first record with the name is found. -/
theorem findFileMeta_eq (hio : io.ok .findRead = true) : findFileMeta io db f = db.find? (nameMatches f) := by
  rw [findFileMeta, if_pos hio]

/-- The rewriting does nothing when one of its `fopen`s fails. -/
theorem rewriteMetaMatching_failed (hio : io.rewrites = false) (del : Bool) (p : Option CString) (e : Int) :
    rewriteMetaMatching io db f del p e = (db, false) := by
  rw [Io.rewrites, Bool.and_eq_false_iff] at hio
  rw [rewriteMetaMatching]
  rcases hio with hio | hio <;> simp [hio]

variable (hio : io.rewrites = true)

include hio

/-- When no I/O fails: of the first 1024 records those that match are rewritten, and the others are gone. -/
theorem rewriteMetaMatching_eq (del : Bool) (p : Option CString) (e : Int) :
    rewriteMetaMatching io db f del p e =
      ((db.take maxRecords).flatMap (fun m => if nameMatches f m then rewriteRecord del p e m else [m]),
        (db.take maxRecords).any (nameMatches f)) := by
  obtain ⟨hread, hwrite⟩ := Bool.and_eq_true_iff.mp hio
  simp [rewriteMetaMatching, hread, hwrite, readRecords_zero, writeRecords_eq]

/-- `chmod_file` with a valid permission string: the matching records among the first 1024 get the permissions. -/
theorem chmodFile_eq {p : CString} (hp : isValidPermString (some p) = true) :
    chmodFile io db f (some p) =
      (mapMatching f (·.setPermissions p) (db.take maxRecords), (db.take maxRecords).any (nameMatches f)) := by
  have hr : ∀ m, rewriteRecord false (some p) (-1) m = [m.setPermissions p] := fun m => rfl
  simp only [chmodFile, hp, rewriteMetaMatching_eq db f hio, hr, flatMap_singleton_ite]
  rfl

/-- `set_encrypted_flag`: the matching records among the first 1024 get the flag. -/
theorem setEncryptedFlag_eq (e : Int) :
    setEncryptedFlag io db f e =
      (mapMatching f (·.setFlag e) (db.take maxRecords), (db.take maxRecords).any (nameMatches f)) := by
  have hr : ∀ m, rewriteRecord false none e m = [m.setFlag e] := fun m => rfl
  simp only [setEncryptedFlag, rewriteMetaMatching_eq db f hio, hr, flatMap_singleton_ite]

/-- `delete_file_meta`: the records among the first 1024 that do not match. -/
theorem deleteFileMeta_eq :
    deleteFileMeta io db f =
      ((db.take maxRecords).filter (fun m => !nameMatches f m), (db.take maxRecords).any (nameMatches f)) := by
  have hr : ∀ m, rewriteRecord true none (-1) m = [] := fun m => rfl
  simp only [deleteFileMeta, rewriteMetaMatching_eq db f hio, hr, flatMap_nil_ite]

end

/-- `chmod_file` refuses an invalid permission string before it touches the records. -/
theorem chmodFile_invalid (io : Io) (db : List FileMeta) (f : CString) {p : Option CString}
    (hp : isValidPermString p = false) : chmodFile io db f p = (db, false) := by
  simp [chmodFile, hp]

/-! ## The names in the records, whatever the I/O does -/

/-- No rewriting changes a name. -/
theorem rewriteRecord_filename (del : Bool) (p : Option CString) (e : Int) {m m' : FileMeta}
    (h : m' ∈ rewriteRecord del p e m) : m'.filename = m.filename := by
  simp only [rewriteRecord] at h
  split at h
  · nomatch h
  · rw [List.mem_singleton] at h
    subst h
    cases p <;> split <;> rfl

/-- The records that `rewrite_meta_matching` leaves have names there were. -/
theorem rewriteMetaMatching_filename (io : Io) (db : List FileMeta) (f : CString) (del : Bool) (p : Option CString) (e : Int) :
    ∀ m ∈ (rewriteMetaMatching io db f del p e).1, ∃ m₀ ∈ db, m.filename = m₀.filename := by
  intro m hm
  rw [rewriteMetaMatching] at hm
  split_ifs at hm
  · exact ⟨m, hm, rfl⟩
  · exact ⟨m, hm, rfl⟩
  · simp only [readRecords_zero, writeRecords_eq, List.mem_flatMap] at hm
    obtain ⟨m₀, hm₀, hm⟩ := hm
    refine ⟨m₀, List.mem_of_mem_take hm₀, ?_⟩
    split_ifs at hm
    · exact rewriteRecord_filename del p e hm
    · rw [List.mem_singleton.mp hm]

/-- A creation that is refused leaves the records as they are. -/
theorem createFileMeta_refused (io : Io) (db : List FileMeta) (f owner group : CString) (permStr : Option CString)
    (h : (createFileMeta io db f owner group permStr).2 = false) : (createFileMeta io db f owner group permStr).1 = db := by
  unfold createFileMeta at h ⊢
  cases permStr with
  | none => rfl
  | some p =>
    dsimp only at h ⊢
    split_ifs at h ⊢ <;> rfl

/-- The records that `create_file_meta` leaves are those there were and at most one for its name. -/
theorem createFileMeta_mem (io : Io) (db : List FileMeta) (f owner group : CString) (permStr : Option CString) :
    ∀ m ∈ (createFileMeta io db f owner group permStr).1, m ∈ db ∨ ∃ p, m = newFileMeta f owner group p := by
  intro m hm
  cases permStr with
  | none => exact .inl hm
  | some p =>
    simp only [createFileMeta] at hm
    split_ifs at hm
    · exact .inl hm
    · exact .inl hm
    · exact .inl hm
    · rw [List.mem_append, List.mem_singleton] at hm
      exact hm.imp_right (fun h => ⟨p, h⟩)

/-! ## The record found under a name -/

/-- Two names of at most 64 bytes that a record matches are the same. -/
theorem nameMatches_unique {f g : CString} (hf : f.length ≤ maxFilename) (hg : g.length ≤ maxFilename) {m : FileMeta}
    (h : nameMatches f m = true) (h' : nameMatches g m = true) : f = g :=
  ((nameMatches_iff hf m).mp h).symm.trans ((nameMatches_iff hg m).mp h')

/-- What is found among the first records is what is found among all. -/
theorem find_of_take {p : FileMeta → Bool} {n : Nat} {db : List FileMeta} {m : FileMeta} (h : (db.take n).find? p = some m) :
    db.find? p = some m :=
  (List.take_prefix n db).find?_eq_some h

/-- Changing the records of `g`, their names apart, changes what is found under `f` alike. -/
theorem find_mapMatching (f g : CString) {G : FileMeta → FileMeta} (hG : ∀ m, (G m).filename = m.filename)
    (db : List FileMeta) :
    (mapMatching g G db).find? (nameMatches f) =
      (db.find? (nameMatches f)).map (fun m => if nameMatches g m then G m else m) := by
  rw [mapMatching, List.find?_map]
  congr 1
  refine congrArg (List.find? · db) (funext fun m => ?_)
  by_cases hm : nameMatches g m = true
  · simp [hm, nameMatches_congr (hG m)]
  · simp [hm]

/-- The record of a name is found changed. -/
theorem find_mapMatching_self (f : CString) {G : FileMeta → FileMeta} (hG : ∀ m, (G m).filename = m.filename)
    (db : List FileMeta) : (mapMatching f G db).find? (nameMatches f) = (db.find? (nameMatches f)).map G := by
  rw [find_mapMatching f f hG]
  cases h : db.find? (nameMatches f) with
  | none => rfl
  | some m => simp [List.find?_some h]

/-- The record of another name is found as it was. -/
theorem find_mapMatching_ne {f g : CString} (hf : f.length ≤ maxFilename) (hg : g.length ≤ maxFilename) (hne : f ≠ g)
    {G : FileMeta → FileMeta} (hG : ∀ m, (G m).filename = m.filename) (db : List FileMeta) :
    (mapMatching g G db).find? (nameMatches f) = db.find? (nameMatches f) := by
  rw [find_mapMatching f g hG]
  cases h : db.find? (nameMatches f) with
  | none => rfl
  | some m =>
    have hm : ¬ nameMatches g m = true := fun hg' => hne (nameMatches_unique hf hg (List.find?_some h) hg')
    simp [hm]

/-- Nothing is found under a name whose records are gone. -/
theorem find_filter_self (f : CString) (db : List FileMeta) :
    (db.filter (fun m => !nameMatches f m)).find? (nameMatches f) = none := by
  rw [List.find?_eq_none]
  intro m hm
  simpa using (List.mem_filter.mp hm).2

/-- A deletion leaves the record of another name. -/
theorem find_filter_ne {f g : CString} (hf : f.length ≤ maxFilename) (hg : g.length ≤ maxFilename) (hne : f ≠ g)
    (db : List FileMeta) :
    (db.filter (fun m => !nameMatches g m)).find? (nameMatches f) = db.find? (nameMatches f) := by
  rw [List.find?_filter]
  refine congrArg (List.find? · db) (funext fun m => ?_)
  by_cases hm : nameMatches f m = true
  · have hg' : ¬ nameMatches g m = true := fun h => hne (nameMatches_unique hf hg hm h)
    simp [hm, hg']
  · simp [hm]

/-- A record appended for `g` is found under `f` only if the names are the same. -/
theorem find_append_new_ne {f g : CString} (hf : f.length < maxFilename) (hg : g.length < maxFilename) (hne : f ≠ g)
    (owner group p : CString) (db : List FileMeta) :
    (db ++ [newFileMeta g owner group p]).find? (nameMatches f) = db.find? (nameMatches f) := by
  have hm : ¬ nameMatches f (newFileMeta g owner group p) = true :=
    fun h => hne ((nameMatches_newFileMeta hf hg owner group p).mp h).symm
  rw [List.find?_append]
  simp [hm]

/-- What is found under the name of a new record is the record, where the name fits and there was none. -/
theorem find_append_new_self {f : CString} (hf : f.length < maxFilename) {db : List FileMeta}
    (hnone : db.find? (nameMatches f) = none) (owner group p : CString) :
    (db ++ [newFileMeta f owner group p]).find? (nameMatches f) = some (newFileMeta f owner group p) := by
  rw [List.find?_append, hnone, Option.none_or, List.find?_cons_of_pos]
  exact (nameMatches_newFileMeta hf hf owner group p).mpr rfl

end OsSecurity.Fms
