import OsSecurity.Lemmas.FileOps
import OsSecurity.Lib.Runs
import Mathlib.Data.List.Induction
import Mathlib.Data.List.Nodup

/-!
# The invariant of the metadata

The records and the stored files are kept apart and stay in step: every operation changes both for the one name it is given, or
neither.
-/

namespace OsSecurity.Fms

open CLib

variable {Obj : Type*} [DecidableEq Obj] (resolve : List UInt8 → Obj)

/-- The records of a world: distinct names, all of a set, valid permissions with their NUL, a flag of 0 or 1, and one record for each
stored file. -/
structure MetaInv (names : Set CString) (w : World Obj) : Prop where
  named : ∀ m ∈ w.filesMeta, m.name ∈ names
  nodup : (w.filesMeta.map FileMeta.name).Nodup
  permissions : ∀ m ∈ w.filesMeta, isValidPermString (some m.permissions.str) = true ∧ 0 ∈ m.permissions.bytes
  flag : ∀ m ∈ w.filesMeta, m.isEncrypted = 0 ∨ m.isEncrypted = 1
  stored : ∀ o, (w.disk o).isSome = true ↔ ∃ m ∈ w.filesMeta, storageObj resolve m.name = o

namespace MetaInvAux

variable {resolve} {names : Set CString} {w : World Obj} {f : CString}

omit [DecidableEq Obj] in
theorem metaInv_empty : MetaInv resolve names (World.empty : World Obj) := by
  refine ⟨by simp [World.empty], List.nodup_nil, by simp [World.empty], by simp [World.empty], ?_⟩
  intro o
  simp [World.empty]

omit [DecidableEq Obj] in
theorem name_of_record (hf : f.length < maxFilename) {m : FileMeta} (hm : w.record f = some m) :
    m ∈ w.filesMeta ∧ m.name = f :=
  ⟨List.mem_of_find?_eq_some hm, (nameMatches_iff (Nat.le_of_lt hf) m).mp (List.find?_some hm)⟩

omit [DecidableEq Obj] in
theorem name_ne_of_record (hf : f.length < maxFilename) (hm : w.record f = none) : ∀ m ∈ w.filesMeta, m.name ≠ f := by
  intro m hmem hname
  exact List.find?_eq_none.mp hm m hmem ((nameMatches_iff (Nat.le_of_lt hf) m).mpr hname)

/-- Bytes stored for a file that has a record leave one record for each stored file. -/
theorem stored_of_store (hinv : MetaInv resolve names w) {m : FileMeta} (hf : f.length < maxFilename) (hm : w.record f = some m)
    (content : List UInt8) (o : Obj) :
    ((w.store resolve f (some content)).disk o).isSome = true ↔ ∃ m ∈ w.filesMeta, storageObj resolve m.name = o := by
  obtain ⟨hmem, hname⟩ := name_of_record hf hm
  by_cases ho : o = storageObj resolve f
  · subst ho
    rw [store_disk_self]
    exact ⟨fun _ => ⟨m, hmem, by rw [hname]⟩, fun _ => rfl⟩
  · rw [store_disk_ne resolve w f _ ho]
    exact hinv.stored o

/-- A property of the name of some record, and of some name. -/
theorem exists_name_iff (P : CString → Prop) (db : List FileMeta) :
    (∃ m ∈ db, P m.name) ↔ ∃ x ∈ db.map FileMeta.name, P x := by
  simp only [List.mem_map, exists_exists_and_eq_and]

omit [DecidableEq Obj] in
/-- What a change of the matching records keeps: it leaves the names alone, and makes valid records of valid ones. -/
theorem mapMatching_inv (hinv : MetaInv resolve names w) {g : FileMeta → FileMeta} (hg : ∀ m, (g m).filename = m.filename)
    (hpermissions : ∀ m ∈ w.filesMeta, isValidPermString (some (g m).permissions.str) = true ∧ 0 ∈ (g m).permissions.bytes)
    (hflag : ∀ m ∈ w.filesMeta, (g m).isEncrypted = 0 ∨ (g m).isEncrypted = 1) {disk : Obj → Option (List UInt8)}
    (hdisk : ∀ o, (disk o).isSome = true ↔ ∃ m ∈ w.filesMeta, storageObj resolve m.name = o) (audit : List AuditEvent) :
    MetaInv resolve names { filesMeta := mapMatching f g w.filesMeta, disk := disk, audit := audit } := by
  have hnames := mapMatching_names f hg w.filesMeta
  have hrecords : ∀ {P : FileMeta → Prop}, (∀ m ∈ w.filesMeta, P m) → (∀ m ∈ w.filesMeta, P (g m)) →
      ∀ m ∈ mapMatching f g w.filesMeta, P m := by
    intro P hold hnew m hm
    obtain ⟨m₀, hm₀, rfl⟩ := List.mem_map.mp hm
    split_ifs
    · exact hnew m₀ hm₀
    · exact hold m₀ hm₀
  refine ⟨?_, ?_, hrecords hinv.permissions hpermissions, hrecords hinv.flag hflag, ?_⟩
  · refine hrecords hinv.named ?_
    intro m hm
    rw [FileMeta.name, hg]
    exact hinv.named m hm
  · show ((mapMatching f g w.filesMeta).map FileMeta.name).Nodup
    rw [hnames]
    exact hinv.nodup
  · intro o
    rw [hdisk o, exists_name_iff (fun x => storageObj resolve x = o), exists_name_iff (fun x => storageObj resolve x = o)]
    show _ ↔ ∃ x ∈ (mapMatching f g w.filesMeta).map FileMeta.name, storageObj resolve x = o
    rw [hnames]

/-- A record and the bytes of a file, both new. -/
theorem append_inv (hinv : MetaInv resolve names w) (hfits : f.length < maxFilename) (hf : f ∈ names) (hnew : w.record f = none) {m : FileMeta}
    (hname : m.name = f) (hpermissions : isValidPermString (some m.permissions.str) = true ∧ 0 ∈ m.permissions.bytes)
    (hflag : m.isEncrypted = 0) (content : List UInt8) (audit : List AuditEvent) :
    MetaInv resolve names
      { filesMeta := w.filesMeta ++ [m], disk := (w.store resolve f (some content)).disk, audit := audit } := by
  have hother := name_ne_of_record hfits hnew
  have hrecords : ∀ {P : FileMeta → Prop}, (∀ m ∈ w.filesMeta, P m) → P m → ∀ m' ∈ w.filesMeta ++ [m], P m' := by
    intro P hold hm m' hm'
    rcases List.mem_append.mp hm' with hm' | hm'
    · exact hold m' hm'
    · rw [List.mem_singleton.mp hm']
      exact hm
  refine ⟨hrecords hinv.named (hname ▸ hf), ?_, hrecords hinv.permissions hpermissions, hrecords hinv.flag (.inl hflag), ?_⟩
  · show ((w.filesMeta ++ [m]).map FileMeta.name).Nodup
    rw [List.map_append, List.map_singleton, hname]
    refine List.nodup_append.mpr ⟨hinv.nodup, List.nodup_singleton _, ?_⟩
    intro x hx y hy hxy
    obtain ⟨m', hm', rfl⟩ := List.mem_map.mp hx
    exact hother m' hm' (hxy.trans (List.mem_singleton.mp hy))
  · intro o
    by_cases ho : o = storageObj resolve f
    · subst ho
      rw [store_disk_self]
      exact ⟨fun _ => ⟨m, List.mem_append_right _ List.mem_cons_self, by rw [hname]⟩, fun _ => rfl⟩
    · rw [store_disk_ne resolve w f _ ho, hinv.stored o]
      constructor
      · rintro ⟨m', hm', hobj⟩
        exact ⟨m', List.mem_append_left _ hm', hobj⟩
      · rintro ⟨m', hm', hobj⟩
        rcases List.mem_append.mp hm' with hm' | hm'
        · exact ⟨m', hm', hobj⟩
        · rw [List.mem_singleton.mp hm', hname] at hobj
          exact absurd hobj.symm ho

/-- The records and the bytes of a file, both gone. -/
theorem filter_inv (hdist : Distinct resolve names) (hinv : MetaInv resolve names w) (hf : f ∈ names) (audit : List AuditEvent) :
    MetaInv resolve names
      { filesMeta := w.filesMeta.filter (fun m => !nameMatches f m), disk := (w.store resolve f none).disk, audit := audit } := by
  have hmem : ∀ m, m ∈ w.filesMeta.filter (fun m => !nameMatches f m) ↔ m ∈ w.filesMeta ∧ m.name ≠ f := by
    intro m
    rw [List.mem_filter, Bool.not_eq_true', ← Bool.not_eq_true, nameMatches_iff (Nat.le_of_lt (hdist.fits f hf))]
  refine ⟨fun m hm => hinv.named m ((hmem m).mp hm).1, ?_, fun m hm => hinv.permissions m ((hmem m).mp hm).1,
    fun m hm => hinv.flag m ((hmem m).mp hm).1, ?_⟩
  · exact hinv.nodup.sublist (List.filter_sublist.map FileMeta.name)
  · intro o
    simp only [hmem]
    by_cases ho : o = storageObj resolve f
    · subst ho
      rw [store_disk_self]
      refine ⟨fun h => absurd h Bool.false_ne_true, ?_⟩
      rintro ⟨m, ⟨hm, hne⟩, hobj⟩
      exact absurd (hdist.injOn (hinv.named m hm) hf hobj) hne
    · rw [store_disk_ne resolve w f _ ho, hinv.stored o]
      constructor
      · rintro ⟨m, hm, hobj⟩
        exact ⟨m, ⟨hm, fun hname => ho (hname ▸ hobj.symm)⟩, hobj⟩
      · rintro ⟨m, ⟨hm, -⟩, hobj⟩
        exact ⟨m, hm, hobj⟩

/-- A call keeps the invariant while the records fit the staging array. -/
theorem step_inv (hdist : Distinct resolve names) {c : Call} (hc : c.filename ∈ names)
    (hbound : w.filesMeta.length ≤ maxRecords) (hinv : MetaInv resolve names w) : MetaInv resolve names (step resolve w c).1 := by
  have hfits := hdist.fits _ hc
  have h := step_effect resolve w c
  generalize (step resolve w c).1 = w', (step resolve w c).2 = r at h
  cases h with
  | refused | read => exact ⟨hinv.named, hinv.nodup, hinv.permissions, hinv.flag, hinv.stored⟩
  | created p content hop hp hnew =>
    obtain ⟨hstr, hzero⟩ := newFileMeta_permissions c.filename c.username c.group hp
    exact append_inv hinv hfits hc hnew (newFileMeta_name hfits c.username c.group p) ⟨by rw [hstr, hp], hzero⟩ rfl _ _
  | written pass content append m hop hm hperm =>
    exact ⟨hinv.named, hinv.nodup, hinv.permissions, hinv.flag, stored_of_store hinv hfits hm _⟩
  | deleted m hop hm hperm =>
    rw [List.take_of_length_le hbound]
    exact filter_inv hdist hinv hc _
  | transformed p expect setTo m file hop hm hperm hflag hfile =>
    have hsetTo : setTo = 0 ∨ setTo = 1 := by
      rcases hop with ⟨-, -, rfl⟩ | ⟨-, -, rfl⟩
      · exact .inr rfl
      · exact .inl rfl
    have hset : setTo ≠ -1 := by omega
    rw [List.take_of_length_le hbound]
    refine mapMatching_inv hinv (fun m => setFlag_filename m setTo) ?_ ?_ (stored_of_store hinv hfits hm _) _
    · intro m hm
      rw [setFlag_permissions]
      exact hinv.permissions m hm
    · intro m _
      rw [FileMeta.setFlag, if_pos hset]
      exact hsetTo
  | chmodded p hop hp =>
    rw [List.take_of_length_le hbound]
    refine mapMatching_inv hinv (fun m => setPermissions_filename m p) ?_ hinv.flag hinv.stored _
    intro m _
    obtain ⟨hstr, hzero⟩ := setPermissions_permissions m hp
    exact ⟨by rw [hstr, hp], hzero⟩

/-- So does a run. -/
theorem run_inv (hdist : Distinct resolve names) (calls : List Call) (hnames : ∀ c ∈ calls, c.filename ∈ names)
    (hbound : ∀ as c bs, calls = as ++ c :: bs → (Runs.final (step resolve) World.empty as).filesMeta.length ≤ maxRecords) :
    MetaInv resolve names (Runs.final (step resolve) World.empty calls) := by
  induction calls using List.reverseRecOn with
  | nil => exact metaInv_empty
  | append_singleton calls c ih =>
    rw [Runs.final_concat]
    refine step_inv hdist (hnames c (List.mem_append_right calls List.mem_cons_self)) (hbound calls c [] rfl) (ih ?_ ?_)
    · intro c' hc'
      exact hnames c' (List.mem_append_left _ hc')
    · rintro as c' bs rfl
      exact hbound as c' (bs ++ [c]) (by simp)

end MetaInvAux

/-- In every state reachable from empty databases by calls of any users, whose filenames are among some of at most 63 bytes that denote
distinct storage files, made while there are at most 1024 records: no two records have the same filename, their permissions are NUL-terminated
strings that `is_valid_perm_string` accepts, their flags are 0 or 1, and the files present are those of the filenames that have a
record. -/
theorem metadata_invariant {names : Set CString} (hdist : Distinct resolve names) (calls : List Call)
    (hnames : ∀ c ∈ calls, c.filename ∈ names)
    (hbound : ∀ as c bs, calls = as ++ c :: bs → (Runs.final (step resolve) World.empty as).filesMeta.length ≤ maxRecords) :
    let w := Runs.final (step resolve) World.empty calls
    (w.filesMeta.map FileMeta.name).Nodup ∧
      (∀ m ∈ w.filesMeta, 0 ∈ m.permissions.bytes ∧ isValidPermString (some m.permissions.str) = true ∧
        (m.isEncrypted = 0 ∨ m.isEncrypted = 1)) ∧
      (∀ f ∈ names,
        ((w.disk (storageObj resolve f)).isSome = true ↔ f ∈ w.filesMeta.map FileMeta.name)) ∧
      ∀ o, (w.disk o).isSome = true → ∃ f ∈ w.filesMeta.map FileMeta.name, storageObj resolve f = o := by
  intro w
  have hinv : MetaInv resolve names w := MetaInvAux.run_inv hdist calls hnames hbound
  refine ⟨hinv.nodup, ?_, ?_, ?_⟩
  · intro m hm
    obtain ⟨hvalid, hzero⟩ := hinv.permissions m hm
    exact ⟨hzero, hvalid, hinv.flag m hm⟩
  · intro f hf
    rw [hinv.stored, List.mem_map]
    constructor
    · rintro ⟨m, hm, hobj⟩
      exact ⟨m, hm, hdist.injOn (hinv.named m hm) hf hobj⟩
    · rintro ⟨m, hm, rfl⟩
      exact ⟨m, hm, rfl⟩
  · intro o ho
    obtain ⟨m, hm, hobj⟩ := (hinv.stored o).mp ho
    exact ⟨m.name, List.mem_map_of_mem hm, hobj⟩

/-- Alice creates a file and encrypts it. -/
def sealingCalls : List Call :=
  [Call.of "alice" "staff" "notes" (.create (some (cstring "rw-r-----")) (cstring "text")),
    Call.of "alice" "staff" "notes" (.encrypt (cstring "key"))]

theorem metadata_invariant_notes :
    let w := Runs.final (step (id : List UInt8 → List UInt8)) World.empty sealingCalls
    (w.filesMeta.map FileMeta.name).Nodup ∧ ∀ m ∈ w.filesMeta, m.isEncrypted = 0 ∨ m.isEncrypted = 1 := by
  have hnames : ∀ c ∈ sealingCalls, c.filename ∈ {f : CString | f.length < maxFilename} := by
    intro c hc
    have hfits : (cstring "notes").length < maxFilename := by decide
    rcases List.mem_cons.mp hc with rfl | hc
    · exact hfits
    · rw [List.mem_singleton.mp hc]
      exact hfits
  have hbound : ∀ as c bs, sealingCalls = as ++ c :: bs →
      (Runs.final (step (id : List UInt8 → List UInt8)) World.empty as).filesMeta.length ≤ maxRecords := by
    intro as c bs h
    have hlength := congrArg List.length h
    rw [List.length_append, show sealingCalls.length = 2 from rfl] at hlength
    exact Nat.le_trans (final_filesMeta_length_le id as) (by rw [maxRecords]; omega)
  obtain ⟨hnodup, hrecords, -, -⟩ := metadata_invariant id distinct_id sealingCalls hnames hbound
  exact ⟨hnodup, fun m hm => (hrecords m hm).2.2⟩

end OsSecurity.Fms
