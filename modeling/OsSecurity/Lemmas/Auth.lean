import OsSecurity.Fms.Auth
import OsSecurity.Lib.Runs
import Mathlib.Data.List.Induction
import Mathlib.Data.List.Nodup

/-!
# Helpers about users

`users.dat` holds the accounts that were registered, one record each, under distinct names that fit. A lookup finds the account of a
name, if there is one.
-/

namespace OsSecurity.Fms

open CLib

/-- What a registration is given, and the salt that is drawn for it. -/
structure Registration where
  username : CString
  password : CString
  group : CString
  salt : CharArray saltLen
  deriving DecidableEq

/-- Its record. -/
def Registration.record (r : Registration) : User :=
  newUser r.username r.group r.salt (sha256 (r.salt.bytes ++ r.password.bytes))

/-- The account that a call registers: a call of `register_user` that returns 1. -/
def AuthCall.registration (c : AuthCall) (reply : AuthReply) : Option Registration :=
  match c.op with
  | .register (some username) (some password) (some group) salt =>
    if reply.ret = some true then some ⟨username, password, group, salt⟩ else none
  | _ => none

/-- The accounts that a run registers. -/
def registrations (cs : List AuthCall) : List Registration :=
  (Runs.trace authStep Accounts.empty cs).filterMap (fun e => e.1.registration e.2)

namespace AuthAux

/-! ## Records -/

/-- What `register_user` checks. -/
theorem isAcceptable_iff (username password group : CString) :
    isAcceptable username password group = true ↔
      (0 < username.length ∧ username.length < maxUsername) ∧ (0 < password.length ∧ password.length < maxPassword) ∧
        group.length < maxGroup := by
  unfold isAcceptable
  simp only [Bool.not_eq_true', Bool.or_eq_false_iff, beq_eq_false_iff_ne, decide_eq_false_iff_not, Nat.not_le, ne_eq]
  omega

variable {username password group : CString} {salt : CharArray saltLen}

/-- A name that fits its field is stored whole. -/
theorem newUser_username (h : username.length < maxUsername) (hash : CharArray hashLen) :
    (newUser username group salt hash).username.str = username := by
  unfold newUser
  rw [CharArray.zero_strncpy_str, CString.take_of_length_le (Nat.le_sub_one_of_lt h)]

/-- A group that fits its field is stored whole. -/
theorem newUser_group (h : group.length < maxGroup) (hash : CharArray hashLen) :
    (newUser username group salt hash).group.str = group := by
  unfold newUser
  rw [CharArray.zero_strncpy_str, CString.take_of_length_le (Nat.le_sub_one_of_lt h)]

/-- A record compares equal to a name exactly when it holds it, however long the name is. -/
theorem usernameMatches_iff {u : User} (h : u.username.str.length < maxUsername) (name : CString) :
    usernameMatches name u = true ↔ u.username.str = name := by
  have hfits : (cstr u.username.bytes).take maxUsername = cstr u.username.bytes := List.take_of_length_le (Nat.le_of_lt h)
  rw [usernameMatches, beq_iff_eq, strncmp_eq_zero_iff, cstr_bytes, hfits]
  constructor
  · intro heq
    have hlen : (name.bytes.take maxUsername).length < maxUsername := heq ▸ h
    have hwhole : name.bytes.take maxUsername = name.bytes := by
      rw [List.length_take] at hlen
      exact List.take_of_length_le (Nat.le_of_lt (by omega))
    exact CString.ext (heq.trans hwhole)
  · rintro rfl
    exact hfits.symm

/-! ## The accounts of `users.dat` -/

/-- `users.dat` holds the records of these accounts. -/
structure Records (w : Accounts) (rs : List Registration) : Prop where
  users : w.users = rs.map Registration.record
  nodup : (rs.map Registration.username).Nodup
  accepted : ∀ r ∈ rs, isAcceptable r.username r.password r.group = true

variable {w : Accounts} {rs : List Registration}

/-- No registration, and no record. -/
theorem records_empty : Records Accounts.empty [] := ⟨rfl, List.nodup_nil, by simp⟩

/-- The record of a registration has its name. -/
theorem record_username (h : Records w rs) {r : Registration} (hr : r ∈ rs) : r.record.username.str = r.username :=
  newUser_username ((isAcceptable_iff _ _ _).mp (h.accepted r hr)).1.2 _

/-- The record of a registration matches its own name only. -/
theorem record_matches (h : Records w rs) {r : Registration} (hr : r ∈ rs) (name : CString) :
    usernameMatches name r.record = true ↔ r.username = name := by
  have hname := record_username h hr
  have hfits : r.record.username.str.length < maxUsername := by
    rw [hname]
    exact ((isAcceptable_iff _ _ _).mp (h.accepted r hr)).1.2
  rw [usernameMatches_iff hfits, hname]

/-- The names of the records are those of the accounts. -/
theorem usernames (h : Records w rs) : w.users.map (fun u => u.username.str) = rs.map Registration.username := by
  rw [h.users, List.map_map]
  exact List.map_congr_left (fun r hr => record_username h hr)

/-- A lookup finds the account of a name, wherever it stands. -/
theorem findUser_of_mem (h : Records w rs) {io : Io} (hio : io.AllOk) {r : Registration} (hr : r ∈ rs) :
    findUser io w.users r.username = some r.record := by
  rw [findUser, if_pos (hio .usersRead)]
  cases hf : w.users.find? (usernameMatches r.username) with
  | none =>
    have hmem : r.record ∈ w.users := by
      rw [h.users]
      exact List.mem_map_of_mem hr
    exact absurd ((record_matches h hr _).mpr rfl) (List.find?_eq_none.mp hf _ hmem)
  | some u =>
    have hmem := List.mem_of_find?_eq_some hf
    rw [h.users] at hmem
    obtain ⟨r', hr', rfl⟩ := List.mem_map.mp hmem
    have hname : r'.username = r.username := (record_matches h hr' _).mp (List.find?_some hf)
    rw [List.inj_on_of_nodup_map h.nodup hr' hr hname]

/-- A name that nobody has registered is not found. -/
theorem findUser_of_notMem (h : Records w rs) (io : Io) {name : CString} (hname : ∀ r ∈ rs, r.username ≠ name) :
    findUser io w.users name = none := by
  have hnone : w.users.find? (usernameMatches name) = none := by
    rw [List.find?_eq_none, h.users]
    intro u hu
    obtain ⟨r, hr, rfl⟩ := List.mem_map.mp hu
    exact fun hmatch => hname r hr ((record_matches h hr name).mp hmatch)
  rw [findUser, hnone, ite_self]

/-! ## The calls -/

/-- An account under a new name, behind the others. -/
theorem records_concat (h : Records w rs) {r : Registration} (hnew : ∀ r' ∈ rs, r'.username ≠ r.username)
    (hr : isAcceptable r.username r.password r.group = true) (audit : List AuditEvent) :
    Records { users := w.users ++ [r.record], audit := audit } (rs ++ [r]) := by
  refine ⟨?_, ?_, ?_⟩
  · rw [List.map_append, h.users]
    rfl
  · rw [List.map_append, List.map_singleton]
    refine List.nodup_append.mpr ⟨h.nodup, List.nodup_singleton _, ?_⟩
    intro x hx y hy hxy
    obtain ⟨r', hr', rfl⟩ := List.mem_map.mp hx
    exact hnew r' hr' (hxy.trans (List.mem_singleton.mp hy))
  · intro r' hr'
    rcases List.mem_append.mp hr' with hold | hlast
    · exact h.accepted r' hold
    · rw [List.mem_singleton.mp hlast]
      exact hr

/-- What a call of `register_user` does: it refuses and leaves the records alone, or appends that of an account under a new name. -/
theorem registerUser_cases (h : Records w rs) {io : Io} (hio : io.AllOk) (salt : CharArray saltLen)
    (username password group : Option CString) :
    ((registerUser io w salt username password group).2 = some false ∧
      (registerUser io w salt username password group).1.users = w.users) ∨
    (∃ r : Registration, username = some r.username ∧ password = some r.password ∧ group = some r.group ∧ salt = r.salt ∧
      (registerUser io w salt username password group).2 = some true ∧
      isAcceptable r.username r.password r.group = true ∧ (∀ r' ∈ rs, r'.username ≠ r.username) ∧
      (registerUser io w salt username password group).1.users = w.users ++ [r.record]) := by
  unfold registerUser
  split
  · rename_i name pass grp
    by_cases hvalid : isAcceptable name pass grp = true
    · rw [hvalid, Bool.not_true, if_neg Bool.false_ne_true]
      by_cases hnew : ∀ r' ∈ rs, r'.username ≠ name
      · have hpass : pass.length ≤ maxPassword := Nat.le_of_lt ((isAcceptable_iff name pass grp).mp hvalid).2.1.2
        rw [findUser_of_notMem h io hnew, hashPassword, if_pos hpass, hio .usersAppend]
        exact .inr ⟨⟨name, pass, grp, salt⟩, rfl, rfl, rfl, rfl, rfl, hvalid, hnew, rfl⟩
      · simp only [not_forall, ne_eq, not_not] at hnew
        obtain ⟨r', hr', rfl⟩ := hnew
        rw [findUser_of_mem h hio hr']
        exact .inl ⟨rfl, rfl⟩
    · rw [if_pos (by simpa using hvalid)]
      exact .inl ⟨rfl, rfl⟩
  · exact .inl ⟨rfl, rfl⟩

/-- `login_user` leaves the records alone. -/
theorem loginUser_users (io : Io) (w : Accounts) (username password : CString) :
    (loginUser io w username password).1.users = w.users := by
  unfold loginUser
  split
  · rfl
  · split
    · rfl
    · split <;> rfl

/-- What a login answers: the record of the account, where it has the name and a password with the same hash. -/
theorem loginUser_eq (h : Records w rs) {io : Io} (hio : io.AllOk) (username : CString) {password : CString}
    (hpass : password.length < maxPassword) :
    (∃ r ∈ rs, r.username = username ∧
      (loginUser io w username password).2 =
        some (if sha256 (r.salt.bytes ++ password.bytes) = sha256 (r.salt.bytes ++ r.password.bytes) then some r.record
          else none)) ∨
    ((∀ r ∈ rs, r.username ≠ username) ∧ (loginUser io w username password).2 = some none) := by
  unfold loginUser
  by_cases hnew : ∀ r ∈ rs, r.username ≠ username
  · rw [findUser_of_notMem h io hnew]
    exact .inr ⟨hnew, rfl⟩
  · simp only [not_forall, ne_eq, not_not] at hnew
    obtain ⟨r, hr, rfl⟩ := hnew
    refine .inl ⟨r, hr, rfl, ?_⟩
    rw [findUser_of_mem h hio hr]
    dsimp only
    rw [hashPassword, if_pos (Nat.le_of_lt hpass)]
    dsimp only
    by_cases hhash : sha256 (r.salt.bytes ++ password.bytes) = sha256 (r.salt.bytes ++ r.password.bytes)
    · rw [if_pos hhash]
      exact congrArg Prod.snd (if_neg (not_not.mpr hhash))
    · rw [if_neg hhash]
      exact congrArg Prod.snd (if_pos hhash)

/-- A call keeps `users.dat` the records of the accounts registered so far. -/
theorem records_step (h : Records w rs) (c : AuthCall) :
    Records (authStep w c).1 (rs ++ (c.registration (authStep w c).2).toList) := by
  obtain ⟨op, timestr⟩ := c
  cases op with
  | login username password =>
    have husers : (authStep w ⟨.login username password, timestr⟩).1.users = w.users :=
      loginUser_users (Io.allOk timestr) w username password
    rw [AuthCall.registration, Option.toList_none, List.append_nil]
    exact ⟨husers.trans h.users, h.nodup, h.accepted⟩
  | register username password group salt =>
    rcases registerUser_cases h (Io.allOk_allOk timestr) salt username password group with
      ⟨hret, husers⟩ | ⟨r, rfl, rfl, rfl, rfl, hret, hvalid, hnew, husers⟩
    · have hnone : AuthCall.registration ⟨.register username password group salt, timestr⟩
          (authStep w ⟨.register username password group salt, timestr⟩).2 = none := by
        unfold AuthCall.registration
        split
        · exact if_neg (fun htrue => by nomatch hret.symm.trans htrue)
        · rfl
      rw [hnone, Option.toList_none, List.append_nil]
      exact ⟨husers.trans h.users, h.nodup, h.accepted⟩
    · have hsome : AuthCall.registration ⟨.register (some r.username) (some r.password) (some r.group) r.salt, timestr⟩
          (authStep w ⟨.register (some r.username) (some r.password) (some r.group) r.salt, timestr⟩).2 = some r := if_pos hret
      obtain ⟨hcat, hnodup, haccepted⟩ := records_concat h hnew hvalid w.audit
      rw [hsome, Option.toList_some]
      exact ⟨husers.trans hcat, hnodup, haccepted⟩

/-- After a run `users.dat` holds the records of the accounts registered in it. -/
theorem records_run (cs : List AuthCall) : Records (Runs.final authStep Accounts.empty cs) (registrations cs) := by
  induction cs using List.reverseRecOn with
  | nil => exact records_empty
  | append_singleton cs c ih =>
    have hstep := records_step ih c
    have hlast : registrations (cs ++ [c]) =
        registrations cs ++ (c.registration (authStep (Runs.final authStep Accounts.empty cs) c).2).toList := by
      unfold registrations
      rw [Runs.trace_concat, List.filterMap_append, List.filterMap_eq_flatMap_toList _ [_], List.flatMap_singleton]
    rw [Runs.final_concat, hlast]
    exact hstep

end AuthAux

end OsSecurity.Fms
