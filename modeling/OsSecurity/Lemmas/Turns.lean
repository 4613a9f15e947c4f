import OsSecurity.Lemmas.Auth
import OsSecurity.Lemmas.Represents
import OsSecurity.Lemmas.Session

/-!
# Helpers about what a turn does

A turn of the menus is one call of `auth.c`, of `fileops.c` or of `chmod_file`, with what was typed and the user of the session, or a
change of the screen. This is so of the disk, and of a system as long as no filename that is typed denotes a database or the log: a play
then keeps the disk one that stands for a system.
-/

namespace OsSecurity.Fms

open CLib

/-- Where the program is after a login, by what `login_user` filled in. -/
def screenOfLogin : Option User → Screen
  | some user => .session user
  | none => .login

/-- Where the program is after a call in a session. -/
def screenOfCall (user : User) : Option Bool → Screen
  | some _ => .session user
  | none => .died

/-- What a turn does to what the menus work on, up to what is left of `stdin`: where the program is after it, and the state. A call on a
file is one on the filename that was typed. -/
inductive Turned {σ : Type*} (calls : Calls σ) (env : Env) (typed : Option CString) (screen : Screen) (s : σ) : Screen → σ → Prop
  /-- Nothing: the choice is none of the menu, or the program has stopped. -/
  | stayed : Turned calls env typed screen s screen s
  | exited (hscreen : screen = .login) : Turned calls env typed screen s .returned s
  | login (username password : CString) (hscreen : screen = .login) (husername : username.length < maxUsername)
      (hpassword : password.length < maxPassword) :
      Turned calls env typed screen s (screenOfLogin (calls.auth env.io s (.login username password)).2.user)
        (calls.auth env.io s (.login username password)).1
  | register (username password group : CString) (hscreen : screen = .login) :
      Turned calls env typed screen s .login
        (calls.auth env.io s (.register (some username) (some password) (some group) env.salt)).1
  | called (user : User) (filename : CString) (op : FsOp) (hscreen : screen = .session user)
      (hfilename : filename.length < maxFilename) (htyped : typed = some filename) :
      Turned calls env typed screen s (screenOfCall user (calls.file env.io s (user.call env.io.timestr filename op)).2.ret)
        (calls.file env.io s (user.call env.io.timestr filename op)).1
  | loggedOut (user : User) (hscreen : screen = .session user) :
      Turned calls env typed screen s .login (calls.logout env.io s user.username.str)

section

variable {Obj : Type*} [DecidableEq Obj] (paths : Paths Obj)

/-- The rest of a branch of `session_loop` changes what its call changed. -/
theorem turned_afterCall (env : Env) (user : User) (d : Disk Obj) {typed : Option CString} {filename : CString}
    (hfilename : filename.length < maxFilename) (htyped : typed = some filename) (op : FsOp) (stdin prompts : List UInt8)
    (done : Reply → List UInt8) (failed : List UInt8) :
    let c := (afterCall user stdin (d.exec paths env.io (user.call env.io.timestr filename op)) prompts done failed).1
    Turned (diskCalls paths) env typed (.session user) d c.screen c.disk := by
  have h : Turned (diskCalls paths) env typed (.session user) d _ _ := .called user filename op rfl hfilename htyped
  unfold afterCall
  change Turned (diskCalls paths) env typed (.session user) d
    (screenOfCall user (d.exec paths env.io (user.call env.io.timestr filename op)).2.ret)
    (d.exec paths env.io (user.call env.io.timestr filename op)).1 at h
  cases hret : (d.exec paths env.io (user.call env.io.timestr filename op)).2.ret with
  | none =>
    rw [hret] at h
    exact h
  | some b =>
    rw [hret] at h
    cases b <;> exact h

/-- A turn of `login_screen`. -/
theorem turned_login (env : Env) (typed : Option CString) (stdin : List UInt8) (d : Disk Obj) :
    Turned (diskCalls paths) env typed .login d (loginTurn paths env stdin d).1.screen (loginTurn paths env stdin d).1.disk := by
  unfold loginTurn ask
  dsimp only
  split_ifs
  · have h : Turned (diskCalls paths) env typed .login d _ _ := .login (readLine maxUsername (readLine choiceSize stdin).2).1
      (readLine maxPassword (readLine maxUsername (readLine choiceSize stdin).2).2).1 rfl (readLine_length_lt (by decide) _)
      (readLine_length_lt (by decide) _)
    dsimp only [diskCalls] at h
    split
    · rename_i hret
      exact absurd hret (auth_login_ret paths env.io d _ _)
    · rename_i user _ huser
      rw [huser] at h
      exact h
    · rename_i _ huser
      rw [huser] at h
      exact h
  · split
    · rename_i hret
      exact absurd hret (auth_register_ret paths env.io d _ _ _ _)
    · exact .register _ _ _ rfl
    · exact .register _ _ _ rfl
  · exact .exited rfl
  · exact .stayed

/-- A turn of `session_loop`. -/
theorem turned_session (env : Env) (user : User) (stdin : List UInt8) (d : Disk Obj) :
    Turned (diskCalls paths) env (Console.typedFilename { screen := .session user, stdin := stdin, disk := d }) (.session user) d
      (sessionTurn paths env user stdin d).1.screen (sessionTurn paths env user stdin d).1.disk := by
  have hfits : (readLine maxFilename (readLine choiceSize stdin).2).1.length < maxFilename := readLine_length_lt (by decide) _
  have htyped : (readLine choiceSize stdin).1 ∈ fileChoices →
      Console.typedFilename { screen := .session user, stdin := stdin, disk := d } =
        some (readLine maxFilename (readLine choiceSize stdin).2).1 := fun h => if_pos h
  have hchoice : ∀ {s : String}, cstring s ∈ fileChoices → strcmp (readLine choiceSize stdin).1.bytes (bytes s) = 0 →
      (readLine choiceSize stdin).1 ∈ fileChoices := fun hs h => (strcmp_choice _ _).mp h ▸ hs
  unfold sessionTurn ask
  dsimp only
  split_ifs with h1 h2 h34 h5 h6 h7 h8
  · exact turned_afterCall paths env user d hfits (htyped (hchoice (by decide) h1)) _ _ _ _ _
  · exact turned_afterCall paths env user d hfits (htyped (hchoice (by decide) h2)) _ _ _ _ _
  · have hmem := h34.elim (hchoice (by decide)) (hchoice (by decide))
    exact turned_afterCall paths env user d hfits (htyped hmem) _ _ _ _ _
  · exact turned_afterCall paths env user d hfits (htyped (hchoice (by decide) h5)) _ _ _ _ _
  · exact turned_afterCall paths env user d hfits (htyped (hchoice (by decide) h6)) _ _ _ _ _
  · exact turned_afterCall paths env user d hfits (htyped (hchoice (by decide) h7)) _ _ _ _ _
  · exact turned_afterCall paths env user d hfits (htyped (hchoice (by decide) h8)) _ _ _ _ _
  · exact .loggedOut user rfl
  · exact .stayed

/-- What a turn does is one of these. -/
theorem turn_turned (env : Env) (c : Console Obj) :
    Turned (diskCalls paths) env c.typedFilename c.screen c.disk (turn paths env c).1.screen (turn paths env c).1.disk := by
  obtain ⟨screen, stdin, d⟩ := c
  cases screen with
  | login => exact turned_login paths env _ stdin d
  | session user => exact turned_session paths env user stdin d
  | returned => exact .stayed
  | died => exact .stayed

/-! ## Turns of a system -/

variable {paths} {base : List UInt8} {d d' : Disk Obj} {sys : System Obj}

/-- A turn on a disk that stands for a system is a turn of the system, if the filename typed denotes no database and not the log. -/
theorem Turned.represents {env : Env} {typed : Option CString} {screen screen' : Screen}
    (hturn : Turned (diskCalls paths) env typed screen d screen' d') (h : Represents paths base d sys)
    (hnames : ∀ f ∈ typed, ¬paths.Reserved (paths.storage f)) :
    ∃ sys', Turned (systemCalls paths.resolve) env typed screen sys screen' sys' ∧ Represents paths base d' sys' := by
  cases hturn with
  | stayed => exact ⟨sys, .stayed, h⟩
  | exited hscreen => exact ⟨sys, .exited hscreen, h⟩
  | login username password hscreen husername hpassword =>
    obtain ⟨hreply, hstep⟩ := h.authExec env.io (.login username password)
    refine ⟨_, ?_, hstep⟩
    dsimp only [diskCalls]
    rw [hreply]
    exact .login username password hscreen husername hpassword
  | register username password group hscreen =>
    obtain ⟨-, hstep⟩ := h.authExec env.io (.register (some username) (some password) (some group) env.salt)
    exact ⟨_, .register username password group hscreen, hstep⟩
  | called user filename op hscreen hfilename htyped =>
    obtain ⟨hreply, hstep⟩ := h.exec env.io (c := user.call env.io.timestr filename op) (hnames filename (Option.mem_def.mpr htyped))
    refine ⟨_, ?_, hstep⟩
    dsimp only [diskCalls]
    rw [hreply]
    exact .called user filename op hscreen hfilename htyped
  | loggedOut user hscreen => exact ⟨_, .loggedOut user hscreen, h.logAction env.io user.username.str .logout (cstring "-") .success⟩

/-- What the turns of a system keep, with filenames of a set that leads to no database and not to the log, holds of the system that the
disk stands for, after any number of turns in which such filenames are typed. -/
theorem play_represents {envs : Nat → Env} {stdin : List UInt8} {names : Set CString} {I : Nat → Screen → System Obj → Prop}
    (hfree : ∀ f ∈ names, ¬paths.Reserved (paths.storage f))
    (hstep : ∀ n screen sys typed screen' sys', (∀ f ∈ typed, f ∈ names) → I n screen sys →
      Turned (systemCalls paths.resolve) (envs n) typed screen sys screen' sys' → I (n + 1) screen' sys')
    (h : Represents paths base d sys) (hinit : I 0 .login sys) (n : Nat)
    (hnames : ∀ k < n, ∀ f ∈ (play paths envs (.start stdin d) k).typedFilename, f ∈ names) :
    ∃ sys', Represents paths base (play paths envs (.start stdin d) n).disk sys' ∧
      I n (play paths envs (.start stdin d) n).screen sys' := by
  induction n with
  | zero => exact ⟨sys, h, hinit⟩
  | succ n ih =>
    obtain ⟨sys', hrep, hinv⟩ := ih (fun k hk => hnames k (Nat.lt_succ_of_lt hk))
    have htyped := hnames n (Nat.lt_succ_self n)
    obtain ⟨sys'', hturn, hrep'⟩ := (turn_turned paths (envs n) _).represents hrep (fun f hf => hfree f (htyped f hf))
    exact ⟨sys'', hrep', hstep n _ sys' _ _ sys'' htyped hinv hturn⟩

end

/-! ## The log -/

/-- A log with the event of a call, if the log can be opened. -/
def loggedTo (io : Io) (c : Call) (result : Outcome) (log : List AuditEvent) : List AuditEvent :=
  if io.ok .auditAppend then log ++ [c.event result] else log

section

variable {Obj : Type*} {io : Io} {c : Call}

theorem log_audit (htime : c.timestr = io.timestr) (w : World Obj) {a : Action} {result : Outcome} (ha : c.op.action result = a) :
    (w.log io c.username a c.filename result).audit = loggedTo io c result w.audit := by
  subst ha
  rw [loggedTo, Call.event, htime]
  rfl

variable [DecidableEq Obj] (resolve : List UInt8 → Obj) (w : World Obj)

/-- The audit of a transformation whose action is that of the call. -/
theorem transformFile_audit (htime : c.timestr = io.timestr) (p : CString) (expect setTo : Int) {a : Action}
    (ha : ∀ result, c.op.action result = a) :
    let out := transformFile resolve io w c.username c.group c.filename p expect setTo a
    (out.2 = none ∧ out.1.audit = w.audit) ∨ ∃ result, out.1.audit = loggedTo io c result w.audit := by
  unfold transformFile
  cases findFileMeta io w.filesMeta c.filename with
  | none => exact .inr ⟨_, log_audit htime w (ha _)⟩
  | some m =>
    cases openRead resolve io w c.filename with
    | none =>
      dsimp only
      split_ifs <;> exact .inr ⟨_, log_audit htime w (ha _)⟩
    | some buf =>
      dsimp only
      split_ifs
      · exact .inr ⟨_, log_audit htime w (ha _)⟩
      · exact .inr ⟨_, log_audit htime w (ha _)⟩
      · exact .inr ⟨_, log_audit htime w (ha _)⟩
      · exact .inl ⟨rfl, rfl⟩
      · exact .inr ⟨_, log_audit htime _ (ha _)⟩

/-- A call logs one event, unless the process dies in it. -/
theorem exec_audit (htime : c.timestr = io.timestr) :
    ((exec resolve io w c).2.ret = none ∧ (exec resolve io w c).1.audit = w.audit) ∨
      ∃ result, (exec resolve io w c).1.audit = loggedTo io c result w.audit := by
  unfold exec
  cases hop : c.op with
  | create permStr content =>
    have ha : ∀ result, c.op.action result = .create := fun _ => by rw [hop]; rfl
    refine .inr ?_
    simp only [fsCreateFile]
    split_ifs
    · exact ⟨_, log_audit htime w (ha _)⟩
    · exact ⟨_, log_audit htime _ (ha _)⟩
    · exact ⟨_, log_audit htime _ (ha _)⟩
  | read pass bufSize =>
    have ha : ∀ result, c.op.action result = .read := fun _ => by rw [hop]; rfl
    refine .inr ?_
    simp only [fsReadFile]
    cases findFileMeta io w.filesMeta c.filename with
    | none => exact ⟨_, log_audit htime w (ha _)⟩
    | some m =>
      dsimp only
      split_ifs
      · exact ⟨_, log_audit htime w (ha _)⟩
      · cases openRead resolve io w c.filename with
        | none => exact ⟨_, log_audit htime w (ha _)⟩
        | some file => exact ⟨_, log_audit htime w (ha _)⟩
  | write pass content append =>
    have ha : ∀ result, result ≠ .success → c.op.action result = .write := fun _ h => hop ▸ FsOp.action_write_of_ne h
    have hsuccess : c.op.action .success = if append then .append else .write := hop ▸ FsOp.action_write_success pass content append
    refine .inr ?_
    simp only [fsWriteFile]
    cases findFileMeta io w.filesMeta c.filename with
    | none => exact ⟨.notFound, log_audit htime w (ha _ (by decide))⟩
    | some m =>
      dsimp only
      split_ifs with hperm hmalloc hopen happend
      · exact ⟨.permissionDenied, log_audit htime w (ha _ (by decide))⟩
      · exact ⟨.memoryError, log_audit htime w (ha _ (by decide))⟩
      · exact ⟨.ioError, log_audit htime w (ha _ (by decide))⟩
      · exact ⟨.success, log_audit htime _ (hsuccess.trans (if_pos happend))⟩
      · exact ⟨.success, log_audit htime _ (hsuccess.trans (if_neg happend))⟩
  | delete =>
    have ha : ∀ result, c.op.action result = .delete := fun _ => by rw [hop]; rfl
    refine .inr ?_
    simp only [fsDeleteFile]
    cases findFileMeta io w.filesMeta c.filename with
    | none => exact ⟨_, log_audit htime w (ha _)⟩
    | some m =>
      dsimp only
      split_ifs
      · exact ⟨_, log_audit htime w (ha _)⟩
      · exact ⟨_, log_audit htime _ (ha _)⟩
      · exact ⟨_, log_audit htime _ (ha _)⟩
  | encrypt p => exact transformFile_audit resolve w htime p 0 1 (fun _ => by rw [hop]; rfl)
  | decrypt p => exact transformFile_audit resolve w htime p 1 0 (fun _ => by rw [hop]; rfl)
  | chmod permStr => exact .inr ⟨_, log_audit htime _ (by rw [hop]; rfl)⟩

end

/-! ## Calls of `auth.c` -/

/-- A record that a typed name finds holds that name: it is too short to be that of a field without a NUL. -/
theorem username_of_matches {u : User} {username : CString} (husername : username.length < maxUsername)
    (h : usernameMatches username u = true) : u.username.str = username := by
  rw [usernameMatches, beq_iff_eq, strncmp_eq_zero_iff, cstr_bytes] at h
  have hfits : (cstr u.username.bytes).length ≤ maxUsername := (cstr_length_le _).trans_eq u.username.size
  rw [List.take_of_length_le hfits, List.take_of_length_le (Nat.le_of_lt husername)] at h
  exact CString.ext h

/-- `login_user` logs one event, and fills in a record of `users.dat` that the name finds exactly where the event is a success. -/
theorem loginUser_log (io : Io) (w : Accounts) (username : CString) {password : CString} (hpassword : password.length < maxPassword) :
    ∃ result out, loginUser io w username password = (w.log io username .login result, some out) ∧
      (result = .success ↔ out.isSome = true) ∧ ∀ u, out = some u → u ∈ w.users ∧ usernameMatches username u = true := by
  unfold loginUser
  cases hfind : findUser io w.users username with
  | none => exact ⟨_, none, rfl, by decide, fun u hu => by nomatch hu⟩
  | some u =>
    have hmatch : w.users.find? (usernameMatches username) = some u := by
      rw [findUser] at hfind
      split at hfind
      · exact hfind
      · nomatch hfind
    have hhash : hashPassword password u.salt = some (sha256 (u.salt.bytes ++ password.bytes)) := if_pos (Nat.le_of_lt hpassword)
    dsimp only
    rw [hhash]
    dsimp only
    split_ifs
    · exact ⟨_, none, rfl, by decide, fun u hu => by nomatch hu⟩
    · refine ⟨_, some u, rfl, by simp, ?_⟩
      rintro u' hu'
      obtain rfl := Option.some.inj hu'
      exact ⟨List.mem_of_find?_eq_some hmatch, List.find?_some hmatch⟩

/-- A login from the menu, with what `login_user` answers. -/
theorem auth_login_eq {Obj : Type*} (io : Io) (sys : System Obj) (username password : CString) :
    sys.auth io (.login username password) =
      ({ users := (loginUser io { users := sys.users, audit := sys.files.audit } username password).1.users,
         files := { sys.files with
           audit := (loginUser io { users := sys.users, audit := sys.files.audit } username password).1.audit } },
        { ret := (loginUser io { users := sys.users, audit := sys.files.audit } username password).2.map (·.isSome),
          user := (loginUser io { users := sys.users, audit := sys.files.audit } username password).2.join }) := rfl

/-- `register_user` logs one event, and appends at most one record, whose name and group fit. -/
theorem registerUser_log (io : Io) (w : Accounts) (salt : CharArray saltLen) (username password group : CString) :
    ∃ result, (registerUser io w salt (some username) (some password) (some group)).1.audit =
        logAction io w.audit username .register username result ∧
      ((registerUser io w salt (some username) (some password) (some group)).1.users = w.users ∨
        ∃ hash, (registerUser io w salt (some username) (some password) (some group)).1.users =
          w.users ++ [newUser username group salt hash] ∧ username.length < maxUsername ∧ group.length < maxGroup) := by
  unfold registerUser
  dsimp only
  by_cases hvalid : isAcceptable username password group = true
  · obtain ⟨⟨-, husername⟩, ⟨-, hpassword⟩, hgroup⟩ := (AuthAux.isAcceptable_iff username password group).mp hvalid
    have hhash : hashPassword password salt = some (sha256 (salt.bytes ++ password.bytes)) := if_pos (Nat.le_of_lt hpassword)
    rw [hhash, if_neg (by simpa using hvalid)]
    dsimp only
    split_ifs
    · exact ⟨_, rfl, .inl rfl⟩
    · exact ⟨_, rfl, .inl rfl⟩
    · exact ⟨_, rfl, .inr ⟨_, rfl, husername, hgroup⟩⟩
  · rw [if_pos (by simpa using hvalid)]
    exact ⟨_, rfl, .inl rfl⟩

end OsSecurity.Fms
