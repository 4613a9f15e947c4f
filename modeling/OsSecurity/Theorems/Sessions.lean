import OsSecurity.Lemmas.Turns
import OsSecurity.Lib.Journal

/-!
# Sessions in the log

Who is logged in can be read off the log. Between sessions there are registrations and refused logins; a session begins with a login,
goes on with what its user does, and ends with the logout of that user.
-/

namespace OsSecurity.Fms

open CLib Journal

/-- An action of a session on a file. -/
def Action.onFile : Action → Bool
  | .register | .login | .logout => false
  | .create | .read | .write | .append | .delete | .encrypt | .decrypt | .chmod => true

/-- The login that begins a session of a user. -/
structure AuditEvent.Begins (e : AuditEvent) (user : CString) : Prop where
  action : e.action = .login
  username : e.username = user
  target : e.target = user
  result : e.result = .success

/-- An event in a session of a user. -/
structure AuditEvent.Within (e : AuditEvent) (user : CString) : Prop where
  action : e.action.onFile = true
  username : e.username = user

/-- A reader of the log: who is logged in after an event, if it can come after the events before it. -/
def follow (who : Option CString) (e : AuditEvent) : Option (Option CString) :=
  match who, e.action with
  | none, .register => if e.target = e.username then some none else none
  | none, .login => if e.target = e.username then some (if e.result = .success then some e.username else none) else none
  | none, _ => none
  | some _, .register => none
  | some _, .login => none
  | some username, .logout => if e.username = username ∧ e.target = cstring "-" ∧ e.result = .success then some none else none
  | some username, _ => if e.username = username then some (some username) else none

/-- Where the program is when a user is logged in, or no one is. -/
def Screen.Agrees : Screen → Option CString → Prop
  | .login, who => who = none
  | .session user, who => who = some user.username.str
  | .returned, who => who = none
  | .died, who => ∃ username, who = some username

namespace SessionsAux

theorem follow_onFile {e : AuditEvent} (h : e.action.onFile = true) (username : CString) :
    follow (some username) e = if e.username = username then some (some username) else none := by
  unfold follow
  cases haction : e.action with
  | register | login | logout =>
    rw [haction] at h
    cases h
  | create | read | write | append | delete | encrypt | decrypt | chmod => rfl

/-- Into a session of a user leads its login only. -/
theorem begins_of_follow {who : Option CString} {username : CString} {e : AuditEvent} (h : follow who e = some (some username))
    (hwho : who ≠ some username) : e.Begins username := by
  cases who with
  | none =>
    unfold follow at h
    cases haction : e.action with
    | login =>
      simp only [haction] at h
      split_ifs at h with htarget hresult
      · obtain rfl := Option.some.inj (Option.some.inj h)
        exact ⟨haction, rfl, htarget, hresult⟩
      · cases h
    | register =>
      simp only [haction] at h
      split_ifs at h
      cases h
    | logout | create | read | write | append | delete | encrypt | decrypt | chmod =>
      simp only [haction] at h
      cases h
  | some other =>
    refine absurd ?_ hwho
    unfold follow at h
    cases haction : e.action with
    | register | login =>
      simp only [haction] at h
      cases h
    | logout =>
      simp only [haction] at h
      split_ifs at h
      cases h
    | create | read | write | append | delete | encrypt | decrypt | chmod =>
      simp only [haction] at h
      split_ifs at h
      exact Option.some.inj h

/-- An event that leaves a session as it is is one of its user. -/
theorem within_of_follow {username : CString} {e : AuditEvent} (h : follow (some username) e = some (some username)) :
    e.Within username := by
  unfold follow at h
  cases haction : e.action with
  | register | login =>
    simp only [haction] at h
    cases h
  | logout =>
    simp only [haction] at h
    split_ifs at h
    cases h
  | create | read | write | append | delete | encrypt | decrypt | chmod =>
    simp only [haction] at h
    split_ifs at h with husername
    exact ⟨by rw [haction]; rfl, husername⟩

/-- An event on a file is accepted in a session of its user only. -/
theorem session_of_follow {who t : Option CString} {e : AuditEvent} (h : follow who e = some t) (hfile : e.action.onFile = true) :
    who = some e.username := by
  cases who with
  | none =>
    unfold follow at h
    cases haction : e.action with
    | register | login | logout =>
      rw [haction] at hfile
      cases hfile
    | create | read | write | append | delete | encrypt | decrypt | chmod =>
      simp only [haction] at h
      cases h
  | some username =>
    rw [follow_onFile hfile] at h
    split_ifs at h with husername
    rw [husername]

/-- In a log that is accepted an event on a file comes after a login of its user, and between the two that user is the only one. -/
theorem session_of_read {t : Option CString} {before after : List AuditEvent} {e : AuditEvent}
    (h : read follow none (before ++ e :: after) = some t) (hfile : e.action.onFile = true) :
    ∃ earlier login since, before = earlier ++ login :: since ∧ login.Begins e.username ∧ ∀ x ∈ since, x.Within e.username := by
  obtain ⟨who, _, hbefore, he, -⟩ := read_of_append_cons h
  obtain rfl := session_of_follow he hfile
  obtain ⟨earlier, login, since, u, v, hsplit, hu, hv, hlogin, hsince⟩ :=
    last_entry (P := fun who => who = some e.username) hbefore (by simp) rfl
  subst hv
  refine ⟨earlier, login, since, hsplit, begins_of_follow hlogin hu, ?_⟩
  intro x hx
  obtain ⟨first, rest, rfl⟩ := List.append_of_mem hx
  obtain ⟨a, b, rfl, rfl, hab⟩ := hsince first x rest rfl
  exact within_of_follow hab

/-! ## What a turn logs -/

variable {Obj : Type*} [DecidableEq Obj] {paths : Paths Obj} {d d' : Disk Obj}

variable (paths d) in
/-- A login logs one event, a success exactly where it fills in a record, which has the name that was given. -/
theorem loginUser_logs (io : Io) {username password : CString} (husername : username.length < maxUsername)
    (hpassword : password.length < maxPassword) :
    ∃ result out, d.loginUser paths io username password = (d.logAction paths io username .login username result, some out) ∧
      (result = .success ↔ out.isSome = true) ∧ ∀ u, out = some u → u.username.str = username := by
  unfold Disk.loginUser
  cases hfind : d.findUser paths io username with
  | none => exact ⟨_, none, rfl, by decide, fun u hu => by cases hu⟩
  | some u =>
    have hname : u.username.str = username := by
      unfold Disk.findUser at hfind
      split_ifs at hfind
      exact username_of_matches husername (List.find?_some hfind)
    have hhash : hashPassword password u.salt = some (sha256 (u.salt.bytes ++ password.bytes)) := if_pos (Nat.le_of_lt hpassword)
    dsimp only
    rw [hhash]
    dsimp only
    split_ifs
    · exact ⟨_, none, rfl, by decide, fun u hu => by cases hu⟩
    · refine ⟨_, some u, rfl, by simp, ?_⟩
      rintro u' hu'
      rw [← Option.some.inj hu']
      exact hname

variable (paths d) in
/-- A registration logs one event. -/
theorem registerUser_logs (io : Io) (salt : CharArray saltLen) (username password group : CString) :
    ∃ result, (d.registerUser paths io salt (some username) (some password) (some group)).1 paths.auditLog =
      Disk.logWith io ⟨io.timestr, username, .register, username, result⟩ (d paths.auditLog) := by
  unfold Disk.registerUser
  dsimp only
  by_cases hvalid : isAcceptable username password group = true
  · obtain ⟨-, ⟨-, hpassword⟩, -⟩ := (AuthAux.isAcceptable_iff username password group).mp hvalid
    have hhash : hashPassword password salt = some (sha256 (salt.bytes ++ password.bytes)) := if_pos (Nat.le_of_lt hpassword)
    rw [hhash, if_neg (by simpa using hvalid)]
    dsimp only
    split_ifs
    · exact ⟨_, Disk.logAction_logWith rfl _ _ _ _⟩
    · exact ⟨_, Disk.logAction_logWith rfl _ _ _ _⟩
    · exact ⟨_, Disk.logAction_logWith (Disk.append_ne paths.usersDb_ne_auditLog.symm _) _ _ _ _⟩
  · rw [if_pos (by simpa using hvalid)]
    exact ⟨_, Disk.logAction_logWith rfl _ _ _ _⟩

/-- A log with a line behind it. -/
theorem getD_logWith {io : Io} (hlog : io.ok .auditAppend = true) (e : AuditEvent) (log : Option (List UInt8)) :
    (Disk.logWith io e log).getD [] = log.getD [] ++ [e].flatMap AuditEvent.line := by
  rw [Disk.logWith, if_pos hlog, Option.getD_some, List.flatMap_singleton]

/-- What a turn logs is what a reader accepts, and takes it to where the program is then. -/
theorem turned_follow {env : Env} (hlog : env.io.ok .auditAppend = true) {typed : Option CString} {screen screen' : Screen}
    (h : Turned (diskCalls paths) env typed screen d screen' d') (hnames : ∀ f ∈ typed, paths.storage f ≠ paths.auditLog)
    {who : Option CString} (hwho : screen.Agrees who) :
    ∃ es who', (d' paths.auditLog).getD [] = (d paths.auditLog).getD [] ++ es.flatMap AuditEvent.line ∧ read follow who es = some who' ∧
      screen'.Agrees who' := by
  cases h with
  | stayed => exact ⟨[], who, (List.append_nil _).symm, rfl, hwho⟩
  | exited hscreen =>
    subst hscreen
    exact ⟨[], who, (List.append_nil _).symm, rfl, hwho⟩
  | login username password hscreen husername hpassword =>
    subst hscreen
    obtain rfl : who = none := hwho
    obtain ⟨result, out, hlogin, hresult, hname⟩ := loginUser_logs paths d env.io husername hpassword
    have hcall : (diskCalls paths).auth env.io d (.login username password) =
        (d.logAction paths env.io username .login username result, { ret := some out.isSome, user := out }) := by
      dsimp only [diskCalls, Disk.authExec]
      rw [hlogin]
      rfl
    rw [hcall]
    refine ⟨[⟨env.io.timestr, username, .login, username, result⟩], if result = .success then some username else none, ?_, ?_, ?_⟩
    · exact (congrArg (·.getD []) (Disk.logAction_logWith (rfl : d paths.auditLog = _) _ _ _ _)).trans (getD_logWith hlog _ _)
    · show (follow none _).bind _ = _
      simp [follow]
    · cases out with
      | none =>
        rw [if_neg (fun hsuccess => by cases hresult.mp hsuccess)]
        rfl
      | some u =>
        rw [if_pos (hresult.mpr rfl), ← hname u rfl]
        rfl
  | register username password group hscreen =>
    subst hscreen
    obtain rfl : who = none := hwho
    obtain ⟨result, hlogged⟩ := registerUser_logs paths d env.io env.salt username password group
    refine ⟨[⟨env.io.timestr, username, .register, username, result⟩], none, ?_, ?_, rfl⟩
    · exact (congrArg (·.getD []) hlogged).trans (getD_logWith hlog _ _)
    · show (follow none _).bind _ = _
      simp [follow]
  | called user filename op hscreen hfilename htyped =>
    subst hscreen
    obtain rfl : who = some user.username.str := hwho
    have hcall : (diskCalls paths).file env.io d (user.call env.io.timestr filename op) =
        d.exec paths env.io (user.call env.io.timestr filename op) := rfl
    have htime : (user.call env.io.timestr filename op).timestr = env.io.timestr := rfl
    rcases Disk.exec_log (d := d) htime (hnames filename (Option.mem_def.mpr htyped)) with ⟨hret, hsame⟩ | ⟨result, hlogged⟩
    · rw [hcall, hret]
      exact ⟨[], _, by rw [hsame]; exact (List.append_nil _).symm, rfl, _, rfl⟩
    · rw [hcall]
      refine ⟨[(user.call env.io.timestr filename op).event result], some user.username.str, ?_, ?_, ?_⟩
      · exact (congrArg (·.getD []) hlogged).trans (getD_logWith hlog _ _)
      · have hfile : (op.action result).onFile = true := by
          cases op with
          | write pass content append =>
            rw [FsOp.action]
            split <;> rfl
          | create | read | delete | encrypt | decrypt | chmod => rfl
        show (follow (some user.username.str) _).bind _ = _
        rw [follow_onFile hfile, Call.event, User.call, if_pos rfl]
        rfl
      · cases (d.exec paths env.io (user.call env.io.timestr filename op)).2.ret with
        | none => exact ⟨_, rfl⟩
        | some b => rfl
  | loggedOut user hscreen =>
    subst hscreen
    obtain rfl : who = some user.username.str := hwho
    refine ⟨[⟨env.io.timestr, user.username.str, .logout, cstring "-", .success⟩], none, ?_, ?_, rfl⟩
    · exact (congrArg (·.getD []) (Disk.logAction_logWith (rfl : d paths.auditLog = _) _ _ _ _)).trans (getD_logWith hlog _ _)
    · show (follow (some user.username.str) _).bind _ = _
      simp [follow]

/-- So it is after any number of turns. -/
theorem play_follow {envs : Nat → Env} (hlog : ∀ n, (envs n).io.ok .auditAppend = true) (stdin : List UInt8) (d : Disk Obj) (n : Nat)
    (hnames : ∀ k < n, ∀ f ∈ (play paths envs (.start stdin d) k).typedFilename, paths.storage f ≠ paths.auditLog) :
    ∃ es who, ((play paths envs (.start stdin d) n).disk paths.auditLog).getD [] =
        (d paths.auditLog).getD [] ++ es.flatMap AuditEvent.line ∧
      read follow none es = some who ∧ (play paths envs (.start stdin d) n).screen.Agrees who := by
  induction n with
  | zero => exact ⟨[], none, (List.append_nil _).symm, rfl, rfl⟩
  | succ n ih =>
    obtain ⟨es, who, hbytes, hread, hwho⟩ := ih (fun k hk => hnames k (Nat.lt_succ_of_lt hk))
    obtain ⟨es', who', hbytes', hread', hwho'⟩ :=
      turned_follow (hlog n) (turn_turned paths (envs n) _) (hnames n (Nat.lt_succ_self n)) hwho
    refine ⟨es ++ es', who', ?_, ?_, hwho'⟩
    · rw [play, hbytes', hbytes, List.append_assoc, List.flatMap_append]
    · rw [read_append, hread]
      exact hread'

end SessionsAux

open SessionsAux

/-- For every input, all files there are and whatever else the system does, as long as the log can be opened and no filename typed denotes
it: what the program appends to the log are the lines of events that tell who is logged in, and an event on a file comes after a login of
its user, with events on files by that user alone in between. -/
theorem log_tells_sessions {Obj : Type*} [DecidableEq Obj] (paths : Paths Obj) (envs : Nat → Env)
    (hlog : ∀ n, (envs n).io.ok .auditAppend = true) (stdin : List UInt8) (d : Disk Obj) (n : Nat)
    (hnames : ∀ k < n, ∀ f ∈ (play paths envs (.start stdin d) k).typedFilename, paths.storage f ≠ paths.auditLog) :
    ∃ es who, ((play paths envs (.start stdin d) n).disk paths.auditLog).getD [] =
        (d paths.auditLog).getD [] ++ es.flatMap AuditEvent.line ∧
      read follow none es = some who ∧ (play paths envs (.start stdin d) n).screen.Agrees who ∧
      ∀ before e after, es = before ++ e :: after → e.action.onFile = true →
        ∃ earlier login since, before = earlier ++ login :: since ∧ login.Begins e.username ∧
          ∀ x ∈ since, x.Within e.username := by
  obtain ⟨es, who, hbytes, hread, hwho⟩ := play_follow hlog stdin d n hnames
  refine ⟨es, who, hbytes, hread, hwho, ?_⟩
  rintro before e after rfl hfile
  exact session_of_read hread hfile

/-- What carol types: she registers, logs in and creates a file. -/
def carolTypes : List UInt8 := bytes "2\ncarol\npw\nstaff\n1\ncarol\npw\n1\ndiary\nrw-------\nhello\n"

/-- What is in the log then. -/
def carolLog : List UInt8 :=
  bytes "[T1] user=carol action=REGISTER target=carol result=SUCCESS\n" ++
    bytes "[T1] user=carol action=LOGIN target=carol result=SUCCESS\n" ++
    bytes "[T1] user=carol action=CREATE target=diary result=SUCCESS\n"

/-- Turns at the time `T1` in which all calls succeed. -/
def envsAtT1 (_ : Nat) : Env := { io := Io.allOk (bytes "T1"), salt := CharArray.zero saltLen }

/-- The log of her three turns. -/
theorem carolLog_eq : ((play (processPaths [bytes "srv"]) envsAtT1 (.start carolTypes Disk.empty) 3).disk
    (processPaths [bytes "srv"]).auditLog).getD [] = carolLog := by
  decide +kernel

/-- Carol, as she is registered. -/
def carolUser : User :=
  newUser (cstring "carol") (cstring "staff") (CharArray.zero saltLen) (sha256 ((CharArray.zero saltLen).bytes ++ bytes "pw"))

/-- After the three turns she is logged in. -/
theorem carol_screen : (play (processPaths [bytes "srv"]) envsAtT1 (.start carolTypes Disk.empty) 3).screen = .session carolUser := by
  decide +kernel

theorem carol_agrees (who : Option CString) :
    (play (processPaths [bytes "srv"]) envsAtT1 (.start carolTypes Disk.empty) 3).screen.Agrees who ↔ who = some (cstring "carol") := by
  have hname : carolUser.username.str = cstring "carol" := by decide +kernel
  rw [carol_screen, Screen.Agrees, hname]

/-- Her log of three lines: it leaves her logged in. -/
theorem log_tells_sessions_carol :
    ∃ es, carolLog = es.flatMap AuditEvent.line ∧ read follow none es = some (some (cstring "carol")) := by
  obtain ⟨es, who, h⟩ := log_tells_sessions (processPaths [bytes "srv"]) envsAtT1 (fun _ => rfl) carolTypes Disk.empty 3
    (by decide +kernel)
  rw [carolLog_eq, carol_agrees] at h
  obtain ⟨hbytes, hread, rfl, -⟩ := h
  exact ⟨es, hbytes, hread⟩

end OsSecurity.Fms
