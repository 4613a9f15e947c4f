import OsSecurity.Lemmas.Turns
import Mathlib.Data.List.Infix

/-!
# The two databases refer to each other

Every file belongs to an account: the owner and the group in a record of `files_meta.dat` are those of a record of `users.dat`. No turn
breaks this, whatever the system does during it, as long as what is typed for a filename leads to no database and not to the log.
-/

namespace OsSecurity.Fms

open CLib

/-- The fields of a record that no call changes. -/
def FileMeta.ownership (m : FileMeta) : CharArray maxFilename × CharArray maxUsername × CharArray maxGroup :=
  (m.filename, m.owner, m.group)

/-- The records of both databases fit together, and the user of the session is a record of `users.dat`. -/
structure Integrity (screen : Screen) (users : List User) (filesMeta : List FileMeta) : Prop where
  fits : ∀ u ∈ users, u.username.str.length < maxUsername ∧ u.group.str.length < maxGroup
  owned : ∀ m ∈ filesMeta, ∃ u ∈ users, m.owner.str = u.username.str ∧ m.group.str = u.group.str
  current : ∀ user, screen = .session user → user ∈ users

/-- Both databases are whole records. -/
structure Disk.Whole {Obj : Type*} (paths : Paths Obj) (d : Disk Obj) : Prop where
  users : ∃ us, (d paths.usersDb).getD [] = userLayout.file us
  filesMeta : ∃ rs, (d paths.filesDb).getD [] = metaLayout.file rs

namespace IntegrityAux

/-! ## The owners of records -/

theorem rewriteRecord_ownership (del : Bool) (p : Option CString) (e : Int) {m m' : FileMeta} (h : m' ∈ rewriteRecord del p e m) :
    m'.ownership = m.ownership := by
  simp only [rewriteRecord] at h
  split at h
  · cases h
  · rw [List.mem_singleton] at h
    subst h
    cases p <;> split <;> rfl

/-- The records that `rewrite_meta_matching` leaves were there. -/
theorem rewriteMetaMatching_ownership (io : Io) (db : List FileMeta) (f : CString) (del : Bool) (p : Option CString) (e : Int) :
    ∀ m ∈ (rewriteMetaMatching io db f del p e).1, ∃ m₀ ∈ db, m.ownership = m₀.ownership := by
  intro m hm
  rw [rewriteMetaMatching] at hm
  split_ifs at hm
  · exact ⟨m, hm, rfl⟩
  · exact ⟨m, hm, rfl⟩
  · simp only [readRecords_zero, writeRecords_eq, List.mem_flatMap] at hm
    obtain ⟨m₀, hm₀, hm⟩ := hm
    refine ⟨m₀, List.mem_of_mem_take hm₀, ?_⟩
    split_ifs at hm
    · exact rewriteRecord_ownership del p e hm
    · rw [List.mem_singleton.mp hm]

variable {Obj : Type*} [DecidableEq Obj] (resolve : List UInt8 → Obj)

/-- Every record of a database is one of those there were, or one that the call made. -/
def Descends (w : World Obj) (c : Call) (db : List FileMeta) : Prop :=
  ∀ m ∈ db, (∃ p, m.ownership = (newFileMeta c.filename c.username c.group p).ownership) ∨
    ∃ m₀ ∈ w.filesMeta, m.ownership = m₀.ownership

variable {resolve} {w : World Obj} {c : Call} {db : List FileMeta}

omit [DecidableEq Obj] in
theorem descends_self : Descends w c w.filesMeta := fun m hm => .inr ⟨m, hm, rfl⟩

omit [DecidableEq Obj] in
theorem Descends.rewritten (h : Descends w c db) (io : Io) (f : CString) (del : Bool) (p : Option CString) (e : Int) :
    Descends w c (rewriteMetaMatching io db f del p e).1 := by
  intro m hm
  obtain ⟨m₀, hm₀, hid⟩ := rewriteMetaMatching_ownership io db f del p e m hm
  rw [hid]
  exact h m₀ hm₀

omit [DecidableEq Obj] in
theorem descends_created (io : Io) (permStr : Option CString) :
    Descends w c (createFileMeta io w.filesMeta c.filename c.username c.group permStr).1 := by
  intro m hm
  rcases createFileMeta_mem io w.filesMeta c.filename c.username c.group permStr m hm with hm | ⟨p, rfl⟩
  · exact .inr ⟨m, hm, rfl⟩
  · exact .inl ⟨p, rfl⟩

variable (resolve w c)

theorem transformFile_descends (io : Io) (p : CString) (expect setTo : Int) (a : Action) :
    Descends w c (transformFile resolve io w c.username c.group c.filename p expect setTo a).1.filesMeta := by
  unfold transformFile
  cases findFileMeta io w.filesMeta c.filename with
  | none => exact descends_self
  | some m =>
    cases openRead resolve io w c.filename <;> dsimp only <;> split_ifs <;>
      first
        | exact descends_self
        | exact descends_self.rewritten io c.filename false none setTo

/-- Whatever its I/O does, a call leaves records that were there, and at most one that it made for its user. -/
theorem exec_descends (io : Io) : Descends w c (exec resolve io w c).1.filesMeta := by
  unfold exec
  cases c.op with
  | create permStr content =>
    simp only [fsCreateFile]
    split_ifs
    · exact descends_self
    · exact (descends_created io permStr).rewritten io c.filename true none (-1)
    · exact descends_created io permStr
  | read pass bufSize =>
    simp only [fsReadFile]
    cases findFileMeta io w.filesMeta c.filename with
    | none => exact descends_self
    | some m => cases openRead resolve io w c.filename <;> dsimp only <;> split_ifs <;> exact descends_self
  | write pass content append =>
    simp only [fsWriteFile]
    cases findFileMeta io w.filesMeta c.filename with
    | none => exact descends_self
    | some m => dsimp only; split_ifs <;> exact descends_self
  | delete =>
    simp only [fsDeleteFile]
    cases findFileMeta io w.filesMeta c.filename with
    | none => exact descends_self
    | some m =>
      dsimp only
      split_ifs
      · exact descends_self
      · exact descends_self.rewritten io c.filename true none (-1)
      · exact descends_self.rewritten io c.filename true none (-1)
  | encrypt p => exact transformFile_descends resolve w c io p 0 1 .encrypt
  | decrypt p => exact transformFile_descends resolve w c io p 1 0 .decrypt
  | chmod permStr =>
    show Descends w c (chmodFile io w.filesMeta c.filename permStr).1
    unfold chmodFile
    split_ifs
    · exact descends_self
    · exact descends_self.rewritten io c.filename false permStr (-1)

/-! ## Turns -/

variable {resolve}

/-- A change of the screen to one without a session. -/
theorem integrity_left {screen screen' : Screen} {users : List User} {filesMeta : List FileMeta} (h : Integrity screen users filesMeta)
    (hscreen : ∀ user, screen' ≠ .session user) : Integrity screen' users filesMeta :=
  ⟨h.fits, h.owned, fun user huser => absurd huser (hscreen user)⟩

/-- A file that a user makes belongs to that user. -/
theorem owner_of_ownership {user : User} (hfits : user.username.str.length < maxUsername ∧ user.group.str.length < maxGroup)
    {m : FileMeta} {f p : CString} (h : m.ownership = (newFileMeta f user.username.str user.group.str p).ownership) :
    m.owner.str = user.username.str ∧ m.group.str = user.group.str := by
  obtain ⟨-, howner, hgroup⟩ : m.filename = _ ∧ m.owner = _ ∧ m.group = _ := by
    simpa only [FileMeta.ownership, Prod.mk.injEq] using h
  rw [howner, hgroup, newFileMeta, CharArray.zero_strncpy_str, CharArray.zero_strncpy_str,
    CString.take_of_length_le (Nat.le_sub_one_of_lt hfits.1), CString.take_of_length_le (Nat.le_sub_one_of_lt hfits.2)]
  exact ⟨rfl, rfl⟩

/-- The account that `find_user` finds is one of those there are, and a registration appends at most one whose fields fit. -/
theorem turned_integrity {env : Env} {typed : Option CString} {screen screen' : Screen} {sys sys' : System Obj}
    (hturn : Turned (systemCalls resolve) env typed screen sys screen' sys') (h : Integrity screen sys.users sys.files.filesMeta) :
    Integrity screen' sys'.users sys'.files.filesMeta ∧ sys.users <+: sys'.users := by
  cases hturn with
  | stayed => exact ⟨h, List.prefix_rfl⟩
  | exited hscreen => exact ⟨integrity_left h (by simp), List.prefix_rfl⟩
  | login username password hscreen husername hpassword =>
    obtain ⟨result, out, hlogin, -, hfound⟩ :=
      loginUser_log env.io { users := sys.users, audit := sys.files.audit } username hpassword
    dsimp only [systemCalls]
    rw [auth_login_eq, hlogin]
    refine ⟨⟨h.fits, h.owned, ?_⟩, List.prefix_rfl⟩
    intro user huser
    cases out with
    | none => cases huser
    | some u =>
      obtain rfl : u = user := Screen.session.inj huser
      exact (hfound u rfl).1
  | register username password group hscreen =>
    obtain ⟨result, -, husers⟩ :=
      registerUser_log env.io { users := sys.users, audit := sys.files.audit } env.salt username password group
    obtain ⟨new, husers, hnew⟩ : ∃ new, (sys.auth env.io (.register (some username) (some password) (some group) env.salt)).1.users =
        sys.users ++ new ∧ ∀ u ∈ new, u.username.str.length < maxUsername ∧ u.group.str.length < maxGroup := by
      rcases husers with husers | ⟨hash, husers, husername, hgroup⟩
      · exact ⟨[], husers.trans (List.append_nil _).symm, by simp⟩
      · refine ⟨_, husers, ?_⟩
        intro u hu
        rw [List.mem_singleton.mp hu, AuthAux.newUser_username husername, AuthAux.newUser_group hgroup]
        exact ⟨husername, hgroup⟩
    dsimp only [systemCalls]
    refine ⟨⟨?_, ?_, fun user huser => by cases huser⟩, husers ▸ List.prefix_append _ _⟩
    · rw [husers]
      intro u hu
      exact (List.mem_append.mp hu).elim (h.fits u) (hnew u)
    · rw [husers]
      intro m hm
      obtain ⟨u, hu, howner⟩ := h.owned m hm
      exact ⟨u, List.mem_append_left _ hu, howner⟩
  | called user filename op hscreen hfilename htyped =>
    have huser := h.current user hscreen
    refine ⟨⟨h.fits, ?_, ?_⟩, List.prefix_rfl⟩
    · intro m hm
      rcases exec_descends resolve sys.files (user.call env.io.timestr filename op) env.io m hm with ⟨p, hid⟩ | ⟨m₀, hm₀, hid⟩
      · exact ⟨user, huser, owner_of_ownership (h.fits user huser) hid⟩
      · obtain ⟨u, hu, howner⟩ := h.owned m₀ hm₀
        obtain ⟨-, ho, hg⟩ : m.filename = _ ∧ m.owner = _ ∧ m.group = _ := by
          simpa only [FileMeta.ownership, Prod.mk.injEq] using hid
        rw [← ho, ← hg] at howner
        exact ⟨u, hu, howner⟩
    · intro user' huser'
      cases hret : ((systemCalls resolve).file env.io sys (user.call env.io.timestr filename op)).2.ret with
      | none =>
        rw [hret] at huser'
        cases huser'
      | some b =>
        rw [hret] at huser'
        obtain rfl := Screen.session.inj huser'
        exact huser
  | loggedOut user hscreen => exact ⟨integrity_left h (by simp), List.prefix_rfl⟩

omit [DecidableEq Obj] in
/-- Databases of whole records are those of a system. -/
theorem represents_of_whole {paths : Paths Obj} {d : Disk Obj} (h : d.Whole paths) :
    ∃ sys, Represents paths ((d paths.auditLog).getD []) d sys := by
  obtain ⟨us, hus⟩ := h.users
  obtain ⟨rs, hrs⟩ := h.filesMeta
  exact ⟨{ users := us, files := { filesMeta := rs.map MetaRecord.toFileMeta, disk := d, audit := [] } },
    hus, ⟨rs, hrs, rfl⟩, (List.append_nil _).symm, fun _ _ => rfl⟩

end IntegrityAux

/-- From databases of whole records that fit together, for every input and whatever the system does, failed calls included, as long as no
filename typed denotes a database or the log: after any number of turns the databases are whole records and fit together, `users.dat` has
been appended to and no more, and the user of a session is one of its records. -/
theorem files_have_accounts {Obj : Type*} [DecidableEq Obj] (paths : Paths Obj) (envs : Nat → Env) (stdin : List UInt8) {d : Disk Obj}
    (hwhole : d.Whole paths) (h : Integrity .login (d.users paths) (d.filesMeta paths)) (n : Nat)
    (hnames : ∀ k < n, ∀ f ∈ (play paths envs (.start stdin d) k).typedFilename, ¬paths.Reserved (paths.storage f)) :
    let c := play paths envs (.start stdin d) n
    c.disk.Whole paths ∧ Integrity c.screen (c.disk.users paths) (c.disk.filesMeta paths) ∧
      ∃ new, (c.disk paths.usersDb).getD [] = (d paths.usersDb).getD [] ++ userLayout.file new := by
  obtain ⟨sys, hrep⟩ := IntegrityAux.represents_of_whole hwhole
  rw [hrep.users_eq, hrep.filesMeta_eq] at h
  obtain ⟨sys', hrep', hinv, hkept⟩ := play_represents
    (I := fun _ screen s => Integrity screen s.users s.files.filesMeta ∧ sys.users <+: s.users)
    (fun f (hf : f ∈ {f | ¬paths.Reserved (paths.storage f)}) => hf)
    (fun _ _ _ _ _ _ _ hI hturn =>
      ⟨(IntegrityAux.turned_integrity hturn hI.1).1, hI.2.trans (IntegrityAux.turned_integrity hturn hI.1).2⟩)
    hrep ⟨h, List.prefix_rfl⟩ n hnames
  intro c
  obtain ⟨rs, hrs, -⟩ := hrep'.filesMeta
  refine ⟨⟨⟨sys'.users, hrep'.users⟩, rs, hrs⟩, ?_, ?_⟩
  · rw [hrep'.users_eq, hrep'.filesMeta_eq]
    exact hinv
  · obtain ⟨new, hnew⟩ := hkept
    exact ⟨new, by rw [hrep'.users, hrep.users, ← hnew, Layout.file_append]⟩

/-- Ann registers, logs in and creates a file. -/
theorem files_have_accounts_fresh :
    let c := play (processPaths [bytes "srv"]) (fun _ => { io := Io.allOk [], salt := CharArray.zero saltLen })
      (.start (bytes "2\nann\npw\nstaff\n1\nann\npw\n1\nnotes\nrw-------\nhello\n") Disk.empty) 3
    Integrity c.screen (c.disk.users (processPaths [bytes "srv"])) (c.disk.filesMeta (processPaths [bytes "srv"])) :=
  (files_have_accounts (processPaths [bytes "srv"]) (fun _ => { io := Io.allOk [], salt := CharArray.zero saltLen })
    (bytes "2\nann\npw\nstaff\n1\nann\npw\n1\nnotes\nrw-------\nhello\n") (d := Disk.empty) ⟨⟨[], rfl⟩, [], rfl⟩
    ⟨fun u hu => absurd hu List.not_mem_nil, fun m hm => absurd hm List.not_mem_nil, fun user huser => by cases huser⟩ 3
    (by decide +kernel)).2.1

end OsSecurity.Fms
