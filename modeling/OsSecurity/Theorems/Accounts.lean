import OsSecurity.Lemmas.Auth
import OsSecurity.Theorems.Sha256

/-!
# Registration and login
-/

namespace OsSecurity.Fms

open CLib

/-- What a call of `register_user` leaves of `users.dat`: the same records where it returns 0, one more where it returns 1. -/
def Registers (w : Accounts) (c : AuthCall) : Prop :=
  ((authStep w c).2.ret = some false ∧ (authStep w c).1.users = w.users) ∨
    ((authStep w c).2.ret = some true ∧ ∃ u, (authStep w c).1.users = w.users ++ [u])

/-- A password hashes, with the salt of an account, to what the password of the account hashes to. -/
def Registration.SameHash (r : Registration) (password : CString) : Prop :=
  Fips180.digest (r.salt.bytes ++ password.bytes) = Fips180.digest (r.salt.bytes ++ r.password.bytes)

/-- What a login answers: 1 exactly where one of the accounts has the name and a password with the same hash, and then the record with
the name and the group of that account. -/
structure LogsIn (accounts : List Registration) (username password : CString) (reply : AuthReply) : Prop where
  ret : reply.ret = some true ↔ ∃ r ∈ accounts, r.username = username ∧ r.SameHash password
  user : ∀ r ∈ accounts, r.username = username → r.SameHash password →
    ∃ u, reply.user = some u ∧ u.username.str = username ∧ u.group.str = r.group

namespace AccountsAux

open AuthAux

/-- Two passwords have one hash with a salt exactly when SHA-256 takes them, behind the salt, to one digest. -/
theorem sameHash_iff (r : Registration) (password : CString) :
    r.SameHash password ↔ sha256 (r.salt.bytes ++ password.bytes) = sha256 (r.salt.bytes ++ r.password.bytes) := by
  rw [Registration.SameHash, ← sha256_bytes, ← sha256_bytes]
  exact ⟨CharArray.ext, congrArg CharArray.bytes⟩

/-- A registration, when the records are those of earlier ones. -/
theorem registers {w : Accounts} {rs : List Registration} (h : Records w rs) (username password group : Option CString)
    (salt : CharArray saltLen) (timestr : List UInt8) : Registers w ⟨.register username password group salt, timestr⟩ := by
  rcases registerUser_cases h (Io.allOk_allOk timestr) salt username password group with
    hrefused | ⟨r, -, -, -, -, hret, -, -, husers⟩
  · exact .inl hrefused
  · exact .inr ⟨hret, r.record, husers⟩

/-- A login, when the records are those of earlier registrations. -/
theorem logsIn {w : Accounts} {rs : List Registration} (h : Records w rs) {username password : CString}
    (hpass : password.length < maxPassword) (timestr : List UInt8) :
    LogsIn rs username password (authStep w ⟨.login username password, timestr⟩).2 := by
  have hreply : (authStep w ⟨.login username password, timestr⟩).2 =
      { ret := (loginUser (Io.allOk timestr) w username password).2.map (·.isSome),
        user := (loginUser (Io.allOk timestr) w username password).2.join } := rfl
  rcases loginUser_eq h (Io.allOk_allOk timestr) username hpass with ⟨r, hr, rfl, hout⟩ | ⟨hnone, hout⟩
  · -- the name is the account's, and of no other
    have honly : ∀ r' ∈ rs, r'.username = r.username → r' = r := fun r' hr' hname =>
      List.inj_on_of_nodup_map h.nodup hr' hr hname
    rw [hreply, hout]
    by_cases hhash : sha256 (r.salt.bytes ++ password.bytes) = sha256 (r.salt.bytes ++ r.password.bytes)
    · rw [if_pos hhash]
      refine ⟨iff_of_true rfl ⟨r, hr, rfl, (sameHash_iff r password).mpr hhash⟩, ?_⟩
      intro r' hr' hname _
      obtain rfl := honly r' hr' hname
      have hgroup : r'.group.length < maxGroup := ((isAcceptable_iff _ _ _).mp (h.accepted r' hr)).2.2
      exact ⟨r'.record, rfl, record_username h hr, newUser_group hgroup _⟩
    · rw [if_neg hhash]
      have hnot : ∀ r' ∈ rs, r'.username = r.username → ¬ r'.SameHash password := by
        intro r' hr' hname hsame
        obtain rfl := honly r' hr' hname
        exact hhash ((sameHash_iff r' password).mp hsame)
      refine ⟨iff_of_false ?_ ?_, fun r' hr' hname hsame => absurd hsame (hnot r' hr' hname)⟩
      · exact fun htrue => by nomatch htrue
      · rintro ⟨r', hr', hname, hsame⟩
        exact hnot r' hr' hname hsame
  · rw [hreply, hout]
    refine ⟨iff_of_false ?_ ?_, fun r hr hname _ => absurd hname (hnone r hr)⟩
    · exact fun htrue => by nomatch htrue
    · rintro ⟨r, hr, hname, -⟩
      exact hnone r hr hname

end AccountsAux

/-- In a run of registrations and logins, with passwords of at most 63 bytes: every registration appends one record or changes nothing,
no two records have the same username, and a login succeeds exactly where a registration before it did, for the same username and a
password with the same hash. -/
theorem registration_and_login (cs : List AuthCall)
    (hpass : ∀ username password timestr, ⟨.login username password, timestr⟩ ∈ cs → password.length < maxPassword) :
    (∀ before username password group salt timestr after,
      cs = before ++ ⟨.register username password group salt, timestr⟩ :: after →
        Registers (Runs.final authStep Accounts.empty before) ⟨.register username password group salt, timestr⟩) ∧
    ((Runs.final authStep Accounts.empty cs).users.map (fun u => u.username.str)).Nodup ∧
    (∀ before username password timestr after, cs = before ++ ⟨.login username password, timestr⟩ :: after →
      LogsIn (registrations before) username password
        (authStep (Runs.final authStep Accounts.empty before) ⟨.login username password, timestr⟩).2) := by
  refine ⟨?_, ?_, ?_⟩
  · rintro before username password group salt timestr after -
    exact AccountsAux.registers (AuthAux.records_run before) username password group salt timestr
  · have h := AuthAux.records_run cs
    rw [AuthAux.usernames h]
    exact h.nodup
  · rintro before username password timestr after rfl
    exact AccountsAux.logsIn (AuthAux.records_run before) (hpass _ _ _ (List.mem_append_right _ List.mem_cons_self)) timestr

/-- A user registers, another one registers under a longer name, and the first logs in. -/
def enrolled : Registration := ⟨cstring "bob", cstring "secret", cstring "staff", CharArray.zero saltLen⟩

/-- The two registrations. -/
def enrolling : List AuthCall :=
  [⟨.register (some enrolled.username) (some enrolled.password) (some enrolled.group) enrolled.salt, bytes "T1"⟩,
    ⟨.register (some (cstring "bobby")) (some (cstring "hunter2")) (some (cstring "guest")) (CharArray.zero saltLen), bytes "T2"⟩]

/-- Behind them the first user is logged in with the password. -/
theorem registration_and_login_enrolled :
    ∃ u, (authStep (Runs.final authStep Accounts.empty enrolling) ⟨.login (cstring "bob") (cstring "secret"), bytes "T3"⟩).2.user =
      some u ∧ u.username.str = cstring "bob" ∧ u.group.str = cstring "staff" := by
  have hpass : ∀ username password timestr,
      ⟨.login username password, timestr⟩ ∈ enrolling ++ [⟨.login (cstring "bob") (cstring "secret"), bytes "T3"⟩] →
        password.length < maxPassword := by
    intro username password timestr hmem
    simp only [enrolling, List.cons_append, List.nil_append, List.mem_cons, AuthCall.mk.injEq, reduceCtorEq, false_and,
      List.not_mem_nil, or_false, false_or, AuthOp.login.injEq] at hmem
    rw [hmem.1.2]
    decide
  have hlogin := (registration_and_login _ hpass).2.2 enrolling _ _ _ [] rfl
  exact hlogin.user enrolled (by decide +kernel) rfl rfl

end OsSecurity.Fms
