import OsSecurity.Lemmas.Turns
import OsSecurity.Theorems.MetadataInvariant

/-!
# A run of the program is a run of calls

What the program makes of its databases, as long as no filename typed leads to one of them or to the log, is what a run of `auth.c` and a
run of `fileops.c` make of them, one apart from the other; the log is a merge of the logs of the two and of the logouts. The calls on
files are those of users that were registered, with the filenames that were typed.
-/

namespace OsSecurity.Fms

open CLib

/-- An event of `auth.c`. -/
def AuditEvent.ofAuth (e : AuditEvent) : Bool := e.action == .register || e.action == .login

/-- An event of `fileops.c`, or of `chmod_file`. -/
def AuditEvent.ofFiles (e : AuditEvent) : Bool := !e.ofAuth && e.action != .logout

section

variable {Obj : Type*} [DecidableEq Obj] (resolve : List UInt8 → Obj) (names : Set CString)

/-- Where the program is and what it works on, by the calls that it has made, with filenames of a set. -/
structure Composed (screen : Screen) (sys : System Obj) (as : List AuthCall) (cs : List Call) : Prop where
  users : sys.users = (Runs.final authStep Accounts.empty as).users
  filesMeta : sys.files.filesMeta = (Runs.final (step resolve) World.empty cs).filesMeta
  disk : sys.files.disk = (Runs.final (step resolve) World.empty cs).disk
  authLog : sys.files.audit.filter AuditEvent.ofAuth = (Runs.final authStep Accounts.empty as).audit
  filesLog : sys.files.audit.filter AuditEvent.ofFiles = (Runs.final (step resolve) World.empty cs).audit
  passwords : ∀ username password timestr, ⟨.login username password, timestr⟩ ∈ as → password.length < maxPassword
  calls : ∀ c ∈ cs, c.filename ∈ names ∧ c.filename.length < maxFilename ∧ ∃ r ∈ registrations as, c.username = r.username ∧ c.group = r.group
  current : ∀ user, screen = .session user → ∃ r ∈ registrations as, user = r.record

end

namespace ProgramRunsAux

theorem allOk_eq {io : Io} (h : io.AllOk) : io = Io.allOk io.timestr := by
  obtain ⟨ok, timestr⟩ := io
  obtain rfl : ok = fun _ => true := funext h
  rfl

/-! ## What a call does not look at -/

theorem logAction_frame (io : Io) (log : List AuditEvent) (username : CString) (action : Action) (target : CString)
    (result : Outcome) : logAction io log username action target result = log ++ logAction io [] username action target result := by
  unfold logAction
  split
  · rfl
  · exact (List.append_nil _).symm

/-- A login appends its event to any log, and answers alike. -/
theorem loginUser_frame (io : Io) (users : List User) (log : List AuditEvent) (username password : CString) :
    loginUser io { users := users, audit := log } username password =
      ({ users := (loginUser io { users := users, audit := [] } username password).1.users,
         audit := log ++ (loginUser io { users := users, audit := [] } username password).1.audit },
        (loginUser io { users := users, audit := [] } username password).2) := by
  unfold loginUser
  cases findUser io users username with
  | none => simp only [Accounts.log, logAction_frame io log]
  | some u =>
    cases hhash : hashPassword password u.salt with
    | none => simp only [hhash, List.append_nil]
    | some hash =>
      simp only [hhash]
      split_ifs <;> simp only [Accounts.log, logAction_frame io log]

/-- So does a registration. -/
theorem registerUser_frame (io : Io) (users : List User) (log : List AuditEvent) (salt : CharArray saltLen)
    (username password group : Option CString) :
    registerUser io { users := users, audit := log } salt username password group =
      ({ users := (registerUser io { users := users, audit := [] } salt username password group).1.users,
         audit := log ++ (registerUser io { users := users, audit := [] } salt username password group).1.audit },
        (registerUser io { users := users, audit := [] } salt username password group).2) := by
  unfold registerUser
  split
  · rename_i username password group
    cases hhash : hashPassword password salt with
    | none =>
      simp only
      split_ifs <;> simp only [Accounts.log, logAction_frame io log, List.append_nil]
    | some hash =>
      simp only
      split_ifs <;> simp only [Accounts.log, logAction_frame io log]
  · simp only [Accounts.log, logAction_frame io log]

theorem authExec_frame (io : Io) (users : List User) (log : List AuditEvent) (op : AuthOp) :
    authExec io { users := users, audit := log } op =
      ({ users := (authExec io { users := users, audit := [] } op).1.users,
         audit := log ++ (authExec io { users := users, audit := [] } op).1.audit },
        (authExec io { users := users, audit := [] } op).2) := by
  cases op with
  | login username password => simp only [authExec, loginUser_frame io users log]
  | register username password group salt => simp only [authExec, registerUser_frame io users log]

variable {Obj : Type*} [DecidableEq Obj] (resolve : List UInt8 → Obj)

/-- A call on a file appends its event to any log, and does the rest alike. -/
theorem exec_frame (io : Io) (filesMeta : List FileMeta) (disk : Obj → Option (List UInt8)) (log : List AuditEvent) (c : Call) :
    exec resolve io { filesMeta := filesMeta, disk := disk, audit := log } c =
      ({ (exec resolve io { filesMeta := filesMeta, disk := disk, audit := [] } c).1 with
         audit := log ++ (exec resolve io { filesMeta := filesMeta, disk := disk, audit := [] } c).1.audit },
        (exec resolve io { filesMeta := filesMeta, disk := disk, audit := [] } c).2) := by
  have htransform : ∀ p expect setTo action,
      transformFile resolve io { filesMeta := filesMeta, disk := disk, audit := log } c.username c.group c.filename p expect setTo
          action =
        ({ (transformFile resolve io { filesMeta := filesMeta, disk := disk, audit := [] } c.username c.group c.filename p expect
              setTo action).1 with
           audit := log ++ (transformFile resolve io { filesMeta := filesMeta, disk := disk, audit := [] } c.username c.group
              c.filename p expect setTo action).1.audit },
          (transformFile resolve io { filesMeta := filesMeta, disk := disk, audit := [] } c.username c.group c.filename p expect
            setTo action).2) := by
    intro p expect setTo action
    simp only [transformFile, openRead]
    cases findFileMeta io filesMeta c.filename with
    | none => simp only [World.log, logAction_frame io log]
    | some m =>
      cases (if io.ok .storageOpen then disk (storageObj resolve c.filename) else none) <;> dsimp only <;> split_ifs <;>
        simp only [World.log, World.store, logAction_frame io log, List.append_nil]
  unfold exec
  cases c.op with
  | create permStr content =>
    simp only [fsCreateFile]
    split_ifs <;> simp only [World.log, World.store, logAction_frame io log]
  | read pass bufSize =>
    simp only [fsReadFile, openRead]
    cases findFileMeta io filesMeta c.filename with
    | none => simp only [World.log, logAction_frame io log]
    | some m =>
      cases (if io.ok .storageOpen then disk (storageObj resolve c.filename) else none) <;> dsimp only <;> split_ifs <;>
        simp only [World.log, logAction_frame io log]
  | write pass content append =>
    simp only [fsWriteFile]
    cases findFileMeta io filesMeta c.filename with
    | none => simp only [World.log, logAction_frame io log]
    | some m =>
      dsimp only
      split_ifs <;> simp only [World.log, World.store, logAction_frame io log]
  | delete =>
    simp only [fsDeleteFile]
    cases findFileMeta io filesMeta c.filename with
    | none => simp only [World.log, logAction_frame io log]
    | some m =>
      dsimp only
      split_ifs <;> simp only [World.log, World.store, logAction_frame io log]
  | encrypt p => simp only [fsEncryptFile, htransform]
  | decrypt p => simp only [fsDecryptFile, htransform]
  | chmod permStr => simp only [sessionChmod, World.log, logAction_frame io log]

/-! ## Registrations -/

theorem registrations_mono {as : List AuthCall} {r : Registration} (h : r ∈ registrations as) (bs : List AuthCall) :
    r ∈ registrations (as ++ bs) := by
  unfold registrations at h ⊢
  rw [Runs.trace_append, List.filterMap_append]
  exact List.mem_append_left _ h

/-- The name and the group in the record of a registered account are those it was registered with. -/
theorem registered_fields {as : List AuthCall} {r : Registration} (h : r ∈ registrations as) :
    r.record.username.str = r.username ∧ r.record.group.str = r.group := by
  have hrecords := AuthAux.records_run as
  have haccepted := (AuthAux.isAcceptable_iff _ _ _).mp (hrecords.accepted r h)
  exact ⟨AuthAux.record_username hrecords h, AuthAux.newUser_group haccepted.2.2 _⟩

/-! ## Turns -/

theorem filter_append_all {p : AuditEvent → Bool} {es : List AuditEvent} (h : ∀ e ∈ es, p e = true) (log : List AuditEvent) :
    (log ++ es).filter p = log.filter p ++ es := by
  rw [List.filter_append, List.filter_eq_self.mpr h]

theorem filter_append_none {p : AuditEvent → Bool} {es : List AuditEvent} (h : ∀ e ∈ es, p e = false) (log : List AuditEvent) :
    (log ++ es).filter p = log.filter p := by
  have hnone : es.filter p = [] := List.filter_eq_nil_iff.mpr (by simpa using h)
  rw [List.filter_append, hnone, List.append_nil]

variable {resolve} {names : Set CString} {screen : Screen} {sys : System Obj} {as : List AuthCall} {cs : List Call}

/-- A call of `auth.c` that logs events of its own. -/
theorem composed_auth (h : Composed resolve names screen sys as cs) (t : List UInt8) (op : AuthOp)
    (hevents : ∀ e ∈ (authExec (Io.allOk t) { users := sys.users, audit := [] } op).1.audit, e.ofAuth = true)
    (hpasswords : ∀ username password, op = .login username password → password.length < maxPassword) {screen' : Screen}
    (hscreen : ∀ user, screen' = .session user → ∃ r ∈ registrations as, user = r.record) :
    Composed resolve names screen' (sys.auth (Io.allOk t) op).1 (as ++ [⟨op, t⟩]) cs := by
  have hsys := authExec_frame (Io.allOk t) sys.users sys.files.audit op
  have hrun := authExec_frame (Io.allOk t) sys.users (Runs.final authStep Accounts.empty as).audit op
  have hfinal : Runs.final authStep Accounts.empty (as ++ [⟨op, t⟩]) =
      (authExec (Io.allOk t) { users := sys.users, audit := (Runs.final authStep Accounts.empty as).audit } op).1 := by
    rw [Runs.final_concat, h.users]
    rfl
  have haudit : (sys.auth (Io.allOk t) op).1.files.audit =
      sys.files.audit ++ (authExec (Io.allOk t) { users := sys.users, audit := [] } op).1.audit :=
    congrArg (fun x => x.1.audit) hsys
  refine ⟨?_, h.filesMeta, h.disk, ?_, ?_, ?_, ?_, ?_⟩
  · rw [hfinal, hrun]
    exact congrArg (fun x => x.1.users) hsys
  · rw [haudit, filter_append_all hevents, h.authLog, hfinal, hrun]
  · rw [haudit, filter_append_none (fun e he => by rw [AuditEvent.ofFiles, hevents e he]; rfl), h.filesLog]
  · intro username password timestr hmem
    rcases List.mem_append.mp hmem with hmem | hmem
    · exact h.passwords username password timestr hmem
    · obtain ⟨rfl, -⟩ := AuthCall.mk.inj (List.mem_singleton.mp hmem)
      exact hpasswords username password rfl
  · intro c hc
    obtain ⟨hf, hfits, r, hr, hsame⟩ := h.calls c hc
    exact ⟨hf, hfits, r, registrations_mono hr _, hsame⟩
  · intro user huser
    obtain ⟨r, hr, hrecord⟩ := hscreen user huser
    exact ⟨r, registrations_mono hr _, hrecord⟩

/-- A call on a file, by the user of the session. -/
theorem composed_call {user : User} (h : Composed resolve names (.session user) sys as cs) (t : List UInt8) {filename : CString}
    (hname : filename ∈ names) (hfilename : filename.length < maxFilename) (op : FsOp) :
    Composed resolve names (screenOfCall user (sys.call resolve (Io.allOk t) (user.call t filename op)).2.ret)
      (sys.call resolve (Io.allOk t) (user.call t filename op)).1 as (cs ++ [user.call t filename op]) := by
  generalize hc : user.call t filename op = c
  have ht : c.timestr = (Io.allOk t).timestr := by rw [← hc]; rfl
  have hcall : sys.call resolve (Io.allOk t) c =
      ({ sys with files := (exec resolve (Io.allOk t) sys.files c).1 }, (exec resolve (Io.allOk t) sys.files c).2) := rfl
  have hsys := exec_frame resolve (Io.allOk t) sys.files.filesMeta sys.files.disk sys.files.audit c
  have hrun := exec_frame resolve (Io.allOk t) sys.files.filesMeta sys.files.disk (Runs.final (step resolve) World.empty cs).audit c
  have hfinal : Runs.final (step resolve) World.empty (cs ++ [c]) =
      (exec resolve (Io.allOk t) ⟨sys.files.filesMeta, sys.files.disk, (Runs.final (step resolve) World.empty cs).audit⟩ c).1 := by
    rw [Runs.final_concat, h.filesMeta, h.disk, step, ht]
    rfl
  have hevents : ∀ e ∈ (exec resolve (Io.allOk t) ⟨sys.files.filesMeta, sys.files.disk, []⟩ c).1.audit,
      e.ofAuth = false ∧ e.ofFiles = true := by
    rcases exec_audit (c := c) resolve ⟨sys.files.filesMeta, sys.files.disk, []⟩ ht with ⟨-, haudit⟩ | ⟨result, haudit⟩
    · rw [haudit]
      simp
    · intro e he
      have he' : e ∈ loggedTo (Io.allOk t) c result [] := haudit ▸ he
      rw [List.mem_singleton.mp he', Call.event, AuditEvent.ofFiles, AuditEvent.ofAuth]
      cases c.op with
      | write pass content append =>
        rw [FsOp.action]
        split <;> exact ⟨rfl, rfl⟩
      | create | read | delete | encrypt | decrypt | chmod => exact ⟨rfl, rfl⟩
  obtain ⟨r, hr, hrecord⟩ := h.current user rfl
  obtain ⟨husername, hgroup⟩ := registered_fields hr
  rw [hcall]
  refine ⟨h.users, ?_, ?_, ?_, ?_, h.passwords, ?_, ?_⟩
  · rw [hfinal, hrun]
    exact congrArg (fun x => x.1.filesMeta) hsys
  · rw [hfinal, hrun]
    exact congrArg (fun x => x.1.disk) hsys
  · refine (congrArg (fun x => x.1.audit.filter AuditEvent.ofAuth) hsys).trans ?_
    rw [filter_append_none (fun e he => (hevents e he).1), h.authLog]
  · refine (congrArg (fun x => x.1.audit.filter AuditEvent.ofFiles) hsys).trans ?_
    rw [filter_append_all (fun e he => (hevents e he).2), h.filesLog, hfinal, hrun]
  · intro c' hc'
    rcases List.mem_append.mp hc' with hc' | hc'
    · exact h.calls c' hc'
    · rw [List.mem_singleton.mp hc', ← hc, hrecord]
      exact ⟨hname, hfilename, r, hr, husername, hgroup⟩
  · intro user' huser'
    cases hret : (exec resolve (Io.allOk t) sys.files c).2.ret with
    | none =>
      rw [hret] at huser'
      cases huser'
    | some b =>
      rw [hret] at huser'
      obtain rfl := Screen.session.inj huser'
      exact ⟨r, hr, hrecord⟩

/-- A turn makes at most one call. -/
theorem turned_composed {env : Env} (hio : env.io.AllOk) {typed : Option CString} (htyped : ∀ f ∈ typed, f ∈ names) {screen' : Screen}
    {sys' : System Obj} (hturn : Turned (systemCalls resolve) env typed screen sys screen' sys') (h : Composed resolve names screen sys as cs) :
    ∃ as' cs', Composed resolve names screen' sys' (as ++ as') (cs ++ cs') ∧ as'.length + cs'.length ≤ 1 := by
  obtain ⟨io, salt⟩ := env
  obtain ⟨t, rfl⟩ : ∃ t, io = Io.allOk t := ⟨_, allOk_eq hio⟩
  cases hturn with
  | stayed =>
    refine ⟨[], [], ?_, Nat.zero_le _⟩
    rw [List.append_nil, List.append_nil]
    exact h
  | exited hscreen =>
    refine ⟨[], [], ?_, Nat.zero_le _⟩
    rw [List.append_nil, List.append_nil]
    exact { h with current := fun user huser => by cases huser }
  | login username password hscreen husername hpassword =>
    refine ⟨[⟨.login username password, t⟩], [], ?_, Nat.le_refl _⟩
    rw [List.append_nil]
    obtain ⟨result, out, hlogin, -, hfound⟩ := loginUser_log (Io.allOk t) { users := sys.users, audit := [] } username hpassword
    refine composed_auth h t _ ?_ ?_ ?_
    · intro e he
      rw [authExec, hlogin] at he
      rw [List.mem_singleton.mp he]
      rfl
    · intro username' password' hop
      rw [← (AuthOp.login.inj hop).2]
      exact hpassword
    · intro user huser
      have hreply : ((systemCalls resolve).auth (Io.allOk t) sys (.login username password)).2.user = out := by
        dsimp only [systemCalls]
        rw [auth_login_eq, loginUser_frame, hlogin]
        rfl
      rw [hreply] at huser
      cases out with
      | none => cases huser
      | some u =>
        obtain rfl : u = user := Screen.session.inj huser
        have hmem : u ∈ sys.users := (hfound u rfl).1
        rw [h.users, (AuthAux.records_run as).users] at hmem
        obtain ⟨r, hr, hrecord⟩ := List.mem_map.mp hmem
        exact ⟨r, hr, hrecord.symm⟩
  | register username password group hscreen =>
    refine ⟨[⟨.register (some username) (some password) (some group) salt, t⟩], [], ?_, Nat.le_refl _⟩
    rw [List.append_nil]
    obtain ⟨result, haudit, -⟩ := registerUser_log (Io.allOk t) { users := sys.users, audit := [] } salt username password group
    refine composed_auth h t _ ?_ (fun _ _ hop => by cases hop) (fun user huser => by cases huser)
    intro e he
    have he' : e ∈ logAction (Io.allOk t) [] username .register username result := haudit ▸ he
    rw [List.mem_singleton.mp he']
    rfl
  | called user filename op hscreen hfilename hfile =>
    subst hscreen
    refine ⟨[], [user.call t filename op], ?_, Nat.le_refl _⟩
    rw [List.append_nil]
    exact composed_call h t (htyped filename (Option.mem_def.mpr hfile)) hfilename op
  | loggedOut user hscreen =>
    refine ⟨[], [], ?_, Nat.zero_le _⟩
    rw [List.append_nil, List.append_nil]
    refine ⟨h.users, h.filesMeta, h.disk, ?_, ?_, h.passwords, h.calls, fun user huser => by cases huser⟩
    · exact (filter_append_none (by simp [AuditEvent.ofAuth]) _).trans h.authLog
    · exact (filter_append_none (by simp [AuditEvent.ofFiles, AuditEvent.ofAuth]) _).trans h.filesLog

/-- The databases of a program that has made few calls. -/
theorem metaInv_of_composed (hdist : Distinct resolve names) (h : Composed resolve names screen sys as cs)
    (hlength : cs.length ≤ maxRecords) : MetaInv resolve names sys.files := by
  have hinv : MetaInv resolve names (Runs.final (step resolve) World.empty cs) := by
    refine MetaInvAux.run_inv hdist cs (fun c hc => (h.calls c hc).1) ?_
    rintro before c after rfl
    refine (final_filesMeta_length_le resolve before).trans ?_
    rw [List.length_append] at hlength
    omega
  have hmeta := h.filesMeta
  have hdisk := h.disk
  exact ⟨hmeta ▸ hinv.named, hmeta ▸ hinv.nodup, hmeta ▸ hinv.permissions, hmeta ▸ hinv.flag, hmeta ▸ hdisk ▸ hinv.stored⟩

end ProgramRunsAux

open ProgramRunsAux

/-- For every input, from no files at all and with calls to the system that succeed, as long as the filenames typed are of a set of names
that lead to no database and not to the log: after `n` turns the disk stands for the databases of a run of `auth.c` and a run of
`fileops.c`, with at most `n` calls between them. So no two users have a name in common, and for `n` up to 1024, if different names of
the set denote different files, the files and their records are in step. -/
theorem program_makes_runs {Obj : Type*} [DecidableEq Obj] (paths : Paths Obj) (envs : Nat → Env) (henvs : ∀ n, (envs n).io.AllOk)
    (stdin : List UInt8) (names : Set CString) (hfree : ∀ f ∈ names, ¬paths.Reserved (paths.storage f)) (n : Nat)
    (hnames : ∀ k < n, ∀ f ∈ (play paths envs (.start stdin Disk.empty) k).typedFilename, f ∈ names) :
    let c := play paths envs (.start stdin Disk.empty) n
    ∃ sys, Represents paths [] c.disk sys ∧
      (∃ as cs, as.length + cs.length ≤ n ∧ Composed paths.resolve names c.screen sys as cs) ∧
      (sys.users.map (fun u => u.username.str)).Nodup ∧
      (Distinct paths.resolve names → n ≤ maxRecords → MetaInv paths.resolve names sys.files) := by
  intro c
  obtain ⟨sys, hrep', as, cs, h, hlength⟩ := play_represents
    (I := fun n screen sys => ∃ as cs, Composed paths.resolve names screen sys as cs ∧ as.length + cs.length ≤ n) hfree
    (by
      rintro n screen sys typed screen' sys' htyped ⟨as, cs, h, hlength⟩ hturn
      obtain ⟨as', cs', h', hlength'⟩ := turned_composed (henvs n) htyped hturn h
      refine ⟨as ++ as', cs ++ cs', h', ?_⟩
      rw [List.length_append, List.length_append]
      omega)
    Represents.empty ⟨[], [], ⟨rfl, rfl, rfl, rfl, rfl, by simp, by simp, fun user huser => by cases huser⟩, Nat.le_refl _⟩ n hnames
  refine ⟨sys, hrep', ⟨as, cs, hlength, h⟩, ?_, ?_⟩
  · rw [h.users, AuthAux.usernames (AuthAux.records_run as)]
    exact (AuthAux.records_run as).nodup
  · intro hdist hn
    exact metaInv_of_composed hdist h (by omega)

/-- What ann types: she registers, logs in, creates a file and tries to create it again. -/
def annTypes : List UInt8 :=
  bytes "2\nann\npw\nstaff\n1\nann\npw\n1\nnotes\nrw-------\nhello\n1\nnotes\nrw-------\nbye\n"

/-- Her file has one record. -/
theorem program_makes_runs_ann :
    ∃ sys, Represents (processPaths [bytes "srv"]) []
        (play (processPaths [bytes "srv"]) (fun _ => { io := Io.allOk [], salt := CharArray.zero saltLen })
          (.start annTypes Disk.empty) 4).disk sys ∧
      (sys.files.filesMeta.map FileMeta.name).Nodup := by
  have hnames : ∀ k < 4, ∀ f ∈ (play (processPaths [bytes "srv"]) (fun _ => { io := Io.allOk [], salt := CharArray.zero saltLen })
      (.start annTypes Disk.empty) k).typedFilename, f = cstring "notes" := by
    decide +kernel
  have hdist : Distinct (processPaths [bytes "srv"]).resolve {cstring "notes"} := by
    have hfits : (cstring "notes").length < maxFilename := by decide
    exact ⟨fun f hf => hf ▸ hfits, fun f hf g hg _ => hf.trans hg.symm⟩
  obtain ⟨sys, hrep, -, -, hmeta⟩ := program_makes_runs (processPaths [bytes "srv"])
    (fun _ => { io := Io.allOk [], salt := CharArray.zero saltLen }) (fun _ => Io.allOk_allOk []) annTypes {cstring "notes"}
    (by rintro f rfl; decide +kernel) 4 hnames
  exact ⟨sys, hrep, (hmeta hdist (by decide)).nodup⟩

end OsSecurity.Fms
