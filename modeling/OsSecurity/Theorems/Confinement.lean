import OsSecurity.Fms.Disk
import OsSecurity.Lemmas.FileOps
import OsSecurity.Lib.Runs

/-!
# Storage confinement

`storage_path` puts the filename behind `storage/` as it is. A plain name stays inside; one with a separator, or one of the two
dots, does not: it leaves `storage/`, or it comes back to the place of a file of another name. The databases are in the working
directory. Every call logs, and some change records, so what is looked at here is what `fileops.c` writes by itself: in `World.disk` a
database's object changes only when an operation on files writes over the database.
-/

namespace OsSecurity.Fms

open CLib

/-- `USERS_DB`, `FILES_DB` and `AUDIT_LOG`. -/
def databases : List (List UInt8) := [bytes "users.dat", bytes "files_meta.dat", bytes "audit.log"]

/-- A filename that is a single component of a path and names an entry of a directory. -/
def PlainName (f : CString) : Prop := Path.Plain (47 : UInt8) 46 f.bytes

/-- The databases' objects, and the bytes of the recorded files of other names, are the same in two worlds. -/
def Spared (cwd : List (List UInt8)) (f : CString) (w w' : World (List (List UInt8))) : Prop :=
  (∀ d ∈ databases, w'.disk (fileSystem cwd d) = w.disk (fileSystem cwd d)) ∧
    ∀ m ∈ w.filesMeta, m.name ≠ f →
      w'.disk (storageObj (fileSystem cwd) m.name) = w.disk (storageObj (fileSystem cwd) m.name)

/-- A filename is confined when its path denotes an object directly inside `storage/`, and no call with it, whatever its I/O
does, writes over a database or a file of another name, where the other names in the records are plain. -/
structure Confined (cwd : List (List UInt8)) (f : CString) : Prop where
  inside : ∃ name, storageObj (fileSystem cwd) f = cwd ++ [bytes "storage", name]
  spares : ∀ (io : Io) (w : World (List (List UInt8))) (c : Call), c.filename = f →
    (∀ m ∈ w.filesMeta, m.name ≠ f → PlainName m.name) → Spared cwd f w (exec (fileSystem cwd) io w c).1

/-- Every record is of a plain name. -/
def PlainRecords (w : World (List (List UInt8))) : Prop := ∀ m ∈ w.filesMeta, PlainName m.name

/-- A call under what the system answers during it, as a step of a run. -/
def execUnder (cwd : List (List UInt8)) (w : World (List (List UInt8))) (x : Io × Call) : World (List (List UInt8)) × Reply :=
  exec (fileSystem cwd) x.1 w x.2

namespace ConfinementAux

theorem plain_storage : Path.Plain (47 : UInt8) 46 (bytes "storage") := by decide

/-- From a path the program builds, resolution goes on from `storage/`. -/
theorem storageObj_eq (cwd : List (List UInt8)) {f : CString} (hlen : f.length ≤ maxFilename) :
    storageObj (fileSystem cwd) f = (f.bytes.splitOn 47).foldl (Path.follow 46) (cwd ++ [bytes "storage"]) := by
  rw [storageObj, storagePath_eq hlen, fileSystem, Path.resolve_cons plain_storage]

/-- The path of a plain name denotes the entry of `storage/` with that name. -/
theorem storageObj_plain (cwd : List (List UInt8)) {f : CString} (hlen : f.length ≤ maxFilename) (hf : PlainName f) :
    storageObj (fileSystem cwd) f = cwd ++ [bytes "storage", f.bytes] := by
  rw [storageObj_eq cwd hlen, List.splitOn_eq_singleton hf.noSep, List.foldl_cons, List.foldl_nil,
    Path.follow_entry hf.toEntry, List.append_assoc]
  rfl

/-- The databases are in the working directory. -/
theorem fileSystem_database (cwd : List (List UInt8)) {d : List UInt8} (hd : d ∈ databases) : fileSystem cwd d = cwd ++ [d] := by
  have hplain : ∀ d ∈ databases, Path.Plain (47 : UInt8) 46 d := by decide
  exact Path.resolve_plain (hplain d hd) cwd

/-- A call with a plain name writes over no database, and over no file of another plain name. -/
theorem spared_of_plain (cwd : List (List UInt8)) (io : Io) (w : World (List (List UInt8))) (c : Call)
    (hlen : c.filename.length < maxFilename) (hc : PlainName c.filename)
    (hw : ∀ m ∈ w.filesMeta, m.name ≠ c.filename → PlainName m.name) :
    Spared cwd c.filename w (exec (fileSystem cwd) io w c).1 := by
  have hobj := storageObj_plain cwd (Nat.le_of_lt hlen) hc
  have hfoot := exec_footprint (fileSystem cwd) io w c
  refine ⟨fun d hd => hfoot.disk _ ?_, fun m hm hne => hfoot.disk _ ?_⟩
  · rw [hobj, fileSystem_database cwd hd]
    intro he
    have := congrArg List.length (List.append_cancel_left he)
    simp at this
  · rw [hobj, storageObj_plain cwd (name_length_le m) (hw m hm hne)]
    intro he
    have := List.append_cancel_left he
    simp only [List.cons.injEq, true_and, and_true] at this
    exact hne (CString.ext this)

/-- When the path of a name denotes an object directly inside `storage/`, that object is also the place of a plain name. -/
theorem exists_plain_alias (cwd : List (List UInt8)) {f : CString} (hlen : f.length < maxFilename) {name : List UInt8}
    (h : storageObj (fileSystem cwd) f = cwd ++ [bytes "storage", name]) :
    ∃ g : CString, PlainName g ∧ g.length < maxFilename ∧ storageObj (fileSystem cwd) g = storageObj (fileSystem cwd) f := by
  have hlast : ((f.bytes.splitOn 47).foldl (Path.follow 46) (cwd ++ [bytes "storage"]))[cwd.length + 1]? = some name := by
    rw [← storageObj_eq cwd (Nat.le_of_lt hlen), h]
    simp
  rcases Path.foldl_follow_getElem? hlast with h0 | ⟨hentry, hmem⟩
  · simp at h0
  · obtain ⟨hsep, hsub⟩ := Path.mem_splitOn hmem
    obtain ⟨g, rfl⟩ : ∃ g : CString, g.bytes = name := ⟨⟨name, fun h => f.noNul (hsub.subset h)⟩, rfl⟩
    have hplain : PlainName g := ⟨hentry, hsep⟩
    have hlen' : g.length < maxFilename := Nat.lt_of_le_of_lt hsub.length_le hlen
    exact ⟨g, hplain, hlen', by rw [storageObj_plain cwd (Nat.le_of_lt hlen') hplain, h]⟩

/-- The world with one file, that holds nothing. -/
def oneFile (cwd : List (List UInt8)) (g : CString) : World (List (List UInt8)) :=
  { World.empty with filesMeta := [newFileMeta g (cstring "alice") (cstring "staff") (cstring "rw-------")] }.store (fileSystem cwd)
    g (some [])

/-- A user creates a file under another name. -/
def createCall (f : CString) : Call :=
  { username := cstring "bob", group := cstring "guest", filename := f,
    op := .create (some (cstring "rw-------")) (cstring "x"), timestr := [] }

/-- Two names of one place are not both confined: to create a file under the one writes over the file of the other. -/
theorem not_spared_of_alias (cwd : List (List UInt8)) {f g : CString} (hf : f.length < maxFilename)
    (hg : g.length < maxFilename) (hne : g ≠ f) (hobj : storageObj (fileSystem cwd) g = storageObj (fileSystem cwd) f) :
    ¬ Spared cwd f (oneFile cwd g) (exec (fileSystem cwd) (Io.allOk []) (oneFile cwd g) (createCall f)).1 := by
  intro h
  have hnew : (oneFile cwd g).record (createCall f).filename = none := by
    have hm : ¬ nameMatches f (newFileMeta g (cstring "alice") (cstring "staff") (cstring "rw-------")) = true :=
      fun h => hne ((nameMatches_newFileMeta hf hg _ _ _).mp h)
    simp [World.record, oneFile, createCall, hm]
  have hm := h.2 (newFileMeta g (cstring "alice") (cstring "staff") (cstring "rw-------")) (by simp [oneFile])
    (by rw [newFileMeta_name hg]; exact hne)
  have hstep := step_create (fileSystem cwd) (oneFile cwd g) (createCall f) rfl
  have hvalid : isValidPermString (some (cstring "rw-------")) = true := by decide
  simp only [if_pos (And.intro hvalid hnew)] at hstep
  have hafter : (exec (fileSystem cwd) (Io.allOk []) (oneFile cwd g) (createCall f)).1.disk (storageObj (fileSystem cwd) f) =
      some (bytes "x") := by
    have he : exec (fileSystem cwd) (Io.allOk []) (oneFile cwd g) (createCall f) =
        step (fileSystem cwd) (oneFile cwd g) (createCall f) := rfl
    rw [he, hstep]
    exact store_disk_self (fileSystem cwd) _ f _
  have hbefore : (oneFile cwd g).disk (storageObj (fileSystem cwd) f) = some [] := by
    rw [← hobj]
    exact store_disk_self (fileSystem cwd) _ g _
  rw [newFileMeta_name hg, hobj, hafter, hbefore] at hm
  exact absurd hm (by decide)

/-- Records of plain names stay so. -/
theorem plain_step (cwd : List (List UInt8)) (w : World (List (List UInt8))) (x : Io × Call)
    (hx : x.2.filename.length < maxFilename ∧ PlainName x.2.filename) (hw : PlainRecords w) : PlainRecords (execUnder cwd w x).1 := by
  intro m hm
  rcases (exec_footprint (fileSystem cwd) x.1 w x.2).names m hm with ⟨p, h⟩ | ⟨m₀, hm₀, h⟩
  · have hname : m.name = x.2.filename := by
      rw [← newFileMeta_name hx.1 x.2.username x.2.group p, FileMeta.name, FileMeta.name, h]
    rw [hname]
    exact hx.2
  · have hname : m.name = m₀.name := by rw [FileMeta.name, FileMeta.name, h]
    rw [hname]
    exact hw m₀ hm₀

end ConfinementAux

open ConfinementAux

/-- A name of less than 64 bytes is confined exactly when it is plain; and in a run from empty databases in which every call
gives a plain name, no call writes over a database or a file of another name. -/
theorem confined_iff (cwd : List (List UInt8)) :
    (∀ f : CString, f.length < maxFilename → (Confined cwd f ↔ PlainName f)) ∧
    ∀ calls : List (Io × Call), (∀ x ∈ calls, x.2.filename.length < maxFilename ∧ PlainName x.2.filename) →
      ∀ x : Io × Call, x.2.filename.length < maxFilename → PlainName x.2.filename →
        let w := Runs.final (execUnder cwd) World.empty calls
        Spared cwd x.2.filename w (execUnder cwd w x).1 := by
  refine ⟨fun f hlen => ⟨fun h => ?_, fun hf => ?_⟩, fun calls hcalls x hlen hx => ?_⟩
  · by_contra hf
    obtain ⟨name, hname⟩ := h.inside
    obtain ⟨g, hg, hglen, hobj⟩ := exists_plain_alias cwd hlen hname
    have hne : g ≠ f := fun he => hf (he ▸ hg)
    refine not_spared_of_alias cwd hlen hglen hne hobj (h.spares _ _ (createCall f) rfl ?_)
    intro m hm _
    rw [List.mem_singleton.mp hm, newFileMeta_name hglen]
    exact hg
  · refine ⟨⟨f.bytes, storageObj_plain cwd (Nat.le_of_lt hlen) hf⟩, ?_⟩
    intro io w c hc hw
    subst hc
    exact spared_of_plain cwd io w c hlen hf hw
  · have hempty : PlainRecords World.empty := fun m hm => absurd hm List.not_mem_nil
    have hplain := Runs.final_invariant (plain_step cwd) hempty hcalls
    exact spared_of_plain cwd x.1 _ x.2 hlen hx (fun m hm _ => hplain m hm)

namespace ConfinementAux

/-- The working directory `/srv` with a `users.dat` in it. -/
def usersWorld : World (List (List UInt8)) :=
  { filesMeta := [], disk := fun o => if o = fileSystem [bytes "srv"] (bytes "users.dat") then some (bytes "alice") else none,
    audit := [] }

/-- Bob creates the file `../users.dat`. -/
def usersCall : Call := .of "bob" "guest" "../users.dat" (.create (some (cstring "rw-------")) (cstring "x"))

end ConfinementAux

/-- The file `../users.dat` is the user database: to create it writes over the database. -/
theorem users_dat_overwritten :
    storageObj (fileSystem [bytes "srv"]) (cstring "../users.dat") = fileSystem [bytes "srv"] (bytes "users.dat") ∧
      usersWorld.disk (fileSystem [bytes "srv"] (bytes "users.dat")) = some (bytes "alice") ∧
      (step (fileSystem [bytes "srv"]) usersWorld usersCall).1.disk (fileSystem [bytes "srv"] (bytes "users.dat")) =
        some (bytes "x") ∧
      ¬ Confined [bytes "srv"] (cstring "../users.dat") := by
  refine ⟨by decide, by decide, by decide, ?_⟩
  intro h
  have hspared := (h.spares (Io.allOk []) usersWorld usersCall rfl (fun m hm => absurd hm List.not_mem_nil)).1 (bytes "users.dat")
    List.mem_cons_self
  exact absurd hspared (by decide)

/-- The name `notes.txt` is confined. -/
theorem confined_iff_notes : Confined [bytes "srv"] (cstring "notes.txt") ↔ PlainName (cstring "notes.txt") :=
  (confined_iff [bytes "srv"]).1 (cstring "notes.txt") (by decide)

end OsSecurity.Fms
