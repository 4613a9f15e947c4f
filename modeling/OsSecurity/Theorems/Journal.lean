import OsSecurity.Lemmas.Represents
import OsSecurity.Lib.Journal
import OsSecurity.Lib.Runs
import Mathlib.Data.List.Forall2

/-!
# The audit log as a journal

Every call logs one event. What the events of a successful creation, deletion, encryption and decryption say about a file is what its
record says: each call does to the one what its event does to the other. This is so of the lists of records and events, and with them of
the databases and the log on the disk, where no filename denotes one of these.
-/

namespace OsSecurity.Fms

open CLib Journal

variable {Obj : Type*} [DecidableEq Obj] (paths : Paths Obj) (resolve : List UInt8 → Obj)

/-- The event is that of a call: its user, action, target and result, with `SUCCESS` for a call that returned 1. -/
structure Logs (c : Call) (reply : Reply) (e : AuditEvent) : Prop where
  timestr : e.timestr = c.timestr
  username : e.username = c.username
  action : e.action = c.op.action e.result
  target : e.target = c.filename
  result : e.result = .success ↔ reply.ret = some true

/-- A success on a file. -/
def AuditEvent.succeeds (e : AuditEvent) (f : CString) : Bool := e.result == .success && e.target == f

/-- A creation or deletion of a file. -/
def AuditEvent.isLifecycle (f : CString) (e : AuditEvent) : Bool :=
  e.succeeds f && (e.action == .create || e.action == .delete)

/-- An encryption or decryption of a file. -/
def AuditEvent.isCipher (f : CString) (e : AuditEvent) : Bool :=
  e.succeeds f && (e.action == .encrypt || e.action == .decrypt)

/-- What a journal says about the record of a file. -/
structure Reconstructs (log : List AuditEvent) (f : CString) (record : Option FileMeta) : Prop where
  present : record.isSome = true ↔ ∃ e after, latest (AuditEvent.isLifecycle f) log = some (e, after) ∧ e.action = .create
  /-- The owner is the user of the creation, as far as the field holds the name. -/
  owner : ∀ m e after, record = some m → latest (AuditEvent.isLifecycle f) log = some (e, after) →
    m.owner.str = e.username.take (maxUsername - 1) ∧ (e.username.length < maxUsername → m.owner.str = e.username)
  flag : ∀ m e after, record = some m → latest (AuditEvent.isLifecycle f) log = some (e, after) →
    (m.isEncrypted = 1 ↔ ∃ e' after', latest (AuditEvent.isCipher f) after = some (e', after') ∧ e'.action = .encrypt)

namespace JournalAux

/-! ## Replaying a journal -/

/-- What replaying the events makes of a file. -/
structure Replica where
  owner : CString
  encrypted : Bool

/-- What a record says of it. -/
def Replica.ofRecord (m : FileMeta) : Replica := { owner := m.owner.str, encrypted := m.isEncrypted == 1 }

/-- The replica of a file that a creation or deletion leaves. -/
def Replica.ofEvent (e : AuditEvent) : Option Replica :=
  if e.action = .create then some { owner := e.username.take (maxUsername - 1), encrypted := false } else none

/-- The flag after an event. -/
def replayFlag (f : CString) (encrypted : Bool) (e : AuditEvent) : Bool :=
  if e.isCipher f then e.action == .encrypt else encrypted

/-- The replica of a file after an event. -/
def replayEvent (f : CString) (r : Option Replica) (e : AuditEvent) : Option Replica :=
  if e.isLifecycle f then Replica.ofEvent e else r.map (fun r => { r with encrypted := replayFlag f r.encrypted e })

def replay (f : CString) (log : List AuditEvent) : Option Replica := log.foldl (replayEvent f) none

variable {f : CString} {e : AuditEvent} {log : List AuditEvent}

/-- An event that neither creates, deletes, encrypts nor decrypts the file leaves its replica alone. -/
theorem replayEvent_other (hlifecycle : e.isLifecycle f = false) (hcipher : e.isCipher f = false) (r : Option Replica) :
    replayEvent f r e = r := by
  rw [replayEvent, hlifecycle, if_neg Bool.false_ne_true]
  cases r with
  | none => rfl
  | some r => rw [Option.map_some, replayFlag, hcipher, if_neg Bool.false_ne_true]

theorem replayEvent_of_not_succeeds (h : e.succeeds f = false) (r : Option Replica) : replayEvent f r e = r :=
  replayEvent_other (by rw [AuditEvent.isLifecycle, h, Bool.false_and]) (by rw [AuditEvent.isCipher, h, Bool.false_and]) r

/-- An event of another action leaves it alone. -/
theorem replayEvent_of_action (hlifecycle : (e.action == .create || e.action == .delete) = false)
    (hcipher : (e.action == .encrypt || e.action == .decrypt) = false) (r : Option Replica) : replayEvent f r e = r :=
  replayEvent_other (by rw [AuditEvent.isLifecycle, hlifecycle, Bool.and_false])
    (by rw [AuditEvent.isCipher, hcipher, Bool.and_false]) r

/-- A success of a creation or deletion says what becomes of the file. -/
theorem replayEvent_lifecycle (hsucceeds : e.succeeds f = true) (haction : e.action = .create ∨ e.action = .delete)
    (r : Option Replica) : replayEvent f r e = Replica.ofEvent e := by
  have hlifecycle : e.isLifecycle f = true := by
    rw [AuditEvent.isLifecycle, hsucceeds]
    rcases haction with haction | haction <;> rw [haction] <;> rfl
  rw [replayEvent, if_pos hlifecycle]

/-- A success of an encryption or decryption sets the flag. -/
theorem replayEvent_cipher (hsucceeds : e.succeeds f = true) (haction : e.action = .encrypt ∨ e.action = .decrypt)
    (r : Option Replica) : replayEvent f r e = r.map (fun r => { r with encrypted := e.action == .encrypt }) := by
  have hlifecycle : e.isLifecycle f = false := by
    rw [AuditEvent.isLifecycle]
    rcases haction with haction | haction <;> rw [haction] <;> exact Bool.and_false _
  have hcipher : e.isCipher f = true := by
    rw [AuditEvent.isCipher, hsucceeds]
    rcases haction with haction | haction <;> rw [haction] <;> rfl
  rw [replayEvent, hlifecycle, if_neg Bool.false_ne_true]
  cases r with
  | none => rfl
  | some r => rw [Option.map_some, Option.map_some, replayFlag, if_pos hcipher]

/-- Events after the last creation or deletion only change the flag. -/
theorem foldl_replayEvent (h : ∀ e ∈ log, ¬ e.isLifecycle f = true) (r : Option Replica) :
    log.foldl (replayEvent f) r = r.map (fun r => { r with encrypted := log.foldl (replayFlag f) r.encrypted }) := by
  induction log generalizing r with
  | nil => cases r <;> rfl
  | cons e log ih =>
    rw [List.foldl_cons, ih (fun e he => h e (List.mem_cons_of_mem _ he)), replayEvent,
      if_neg (h e List.mem_cons_self)]
    cases r <;> rfl

theorem foldl_replayFlag (encrypted : Bool) (log : List AuditEvent) :
    log.foldl (replayFlag f) encrypted =
      ((latest (AuditEvent.isCipher f) log).map (fun x => x.1.action == .encrypt)).getD encrypted := by
  have hset : ∀ b (e : AuditEvent), e.isCipher f = true → replayFlag f b e = (e.action == .encrypt) := fun _ _ h => if_pos h
  have hkeep : ∀ b (e : AuditEvent), ¬ e.isCipher f = true → replayFlag f b e = b := fun _ _ h => if_neg h
  exact foldl_latest hset hkeep encrypted log

/-- What a replay leaves of a file: nothing before its first creation, and otherwise what the latest creation or deletion says, with
the flag of the latest encryption or decryption behind it. -/
theorem replay_eq (f : CString) (log : List AuditEvent) :
    replay f log = (latest (AuditEvent.isLifecycle f) log).bind (fun x =>
      (Replica.ofEvent x.1).map (fun r => { r with encrypted := x.2.foldl (replayFlag f) r.encrypted })) := by
  cases h : latest (AuditEvent.isLifecycle f) log with
  | none =>
    rw [replay, foldl_replayEvent (of_latest_eq_none h)]
    rfl
  | some x =>
    obtain ⟨⟨before, hlog⟩, hp, hafter⟩ := of_latest_eq_some h
    rw [replay, hlog, List.foldl_append, List.foldl_cons, foldl_replayEvent hafter, replayEvent, if_pos hp]
    rfl

/-- A journal whose latest creation or deletion of a file, if any, is not a creation says that it has no record. -/
theorem reconstructs_none (h : ∀ e after, latest (AuditEvent.isLifecycle f) log = some (e, after) → e.action ≠ .create) :
    Reconstructs log f none := by
  refine ⟨iff_of_false Bool.false_ne_true ?_, fun m e after hm => ?_, fun m e after hm => ?_⟩
  · rintro ⟨e, after, hlatest, hcreate⟩
    exact h e after hlatest hcreate
  · exact absurd hm (Option.some_ne_none m).symm
  · exact absurd hm (Option.some_ne_none m).symm

/-- A journal whose replay gives what the record says reconstructs it. -/
theorem reconstructs_of_replay {record : Option FileMeta} (h : record.map Replica.ofRecord = replay f log) :
    Reconstructs log f record := by
  rw [replay_eq] at h
  cases hlatest : latest (AuditEvent.isLifecycle f) log with
  | none =>
    rw [hlatest, Option.bind_none, Option.map_eq_none_iff] at h
    subst h
    refine reconstructs_none ?_
    intro e after hsome
    exact absurd (hlatest.symm.trans hsome) (Option.some_ne_none _).symm
  | some x =>
    obtain ⟨e, after⟩ := x
    rw [hlatest, Option.bind_some, Replica.ofEvent] at h
    by_cases hcreate : e.action = .create
    · rw [if_pos hcreate, Option.map_some, Option.map_eq_some_iff] at h
      obtain ⟨m, rfl, hm⟩ := h
      obtain ⟨howner, hflag⟩ := Replica.mk.inj hm
      refine ⟨iff_of_true rfl ⟨e, after, hlatest, hcreate⟩, ?_, ?_⟩
      · rintro m' e' after' hm' hlatest'
        obtain rfl := Option.some.inj hm'
        obtain ⟨rfl, -⟩ := Prod.mk.inj (Option.some.inj (hlatest.symm.trans hlatest'))
        refine ⟨howner, fun hlen => ?_⟩
        rw [howner, CString.take_of_length_le (Nat.le_sub_one_of_lt hlen)]
      · rintro m' e' after' hm' hlatest'
        obtain rfl := Option.some.inj hm'
        obtain ⟨rfl, rfl⟩ := Prod.mk.inj (Option.some.inj (hlatest.symm.trans hlatest'))
        rw [foldl_replayFlag] at hflag
        rw [← beq_iff_eq, hflag]
        cases latest (AuditEvent.isCipher f) after with
        | none => simp
        | some y =>
          obtain ⟨e', after'⟩ := y
          simp
    · rw [if_neg hcreate, Option.map_none, Option.map_eq_none_iff] at h
      subst h
      refine reconstructs_none ?_
      intro e' after' hlatest'
      obtain ⟨rfl, -⟩ := Prod.mk.inj (Option.some.inj (hlatest.symm.trans hlatest'))
      exact hcreate

/-! ## What a call does to the journal and to the records -/

variable (w : World Obj) (c : Call)

/-- A success of a call is one on the file it names. -/
theorem succeeds_event : (c.event .success).succeeds c.filename = true := by
  rw [AuditEvent.succeeds, Bool.and_eq_true]
  exact ⟨beq_self_eq_true _, beq_self_eq_true _⟩

/-- A call logs one event, which does to the replica of its file what the call did to the record. -/
theorem step_replay_self (hc : c.filename.length < maxFilename) (hbound : w.filesMeta.length ≤ maxRecords) :
    ∃ result, (step resolve w c).1.audit = w.audit ++ [c.event result] ∧
      (result = .success ↔ (step resolve w c).2.ret = some true) ∧
      ((step resolve w c).1.record c.filename).map Replica.ofRecord =
        replayEvent c.filename ((w.record c.filename).map Replica.ofRecord) (c.event result) := by
  have h := step_effect resolve w c
  generalize (step resolve w c).1 = w', (step resolve w c).2 = r at h
  cases h with
  | refused result hresult =>
    refine ⟨result, rfl, iff_of_false hresult (fun h => by cases h), (replayEvent_of_not_succeeds ?_ _).symm⟩
    rw [AuditEvent.succeeds, beq_false_of_ne (show (c.event result).result ≠ .success from hresult), Bool.false_and]
  | created p content hop hp hnew =>
    refine ⟨.success, rfl, iff_of_true rfl rfl, ?_⟩
    have hcreate : (c.event .success).action = .create := by
      rw [Call.event, hop]
      rfl
    have hrecord : (w.filesMeta ++ [newFileMeta c.filename c.username c.group p]).find? (nameMatches c.filename) =
        some (newFileMeta c.filename c.username c.group p) := find_append_new_self hc hnew _ _ _
    have howner : (newFileMeta c.filename c.username c.group p).owner.str = c.username.take (maxUsername - 1) := by
      unfold newFileMeta
      exact CharArray.zero_strncpy_str _ _ (Nat.sub_le _ _)
    rw [replayEvent_lifecycle (succeeds_event c) (.inl hcreate), Replica.ofEvent, if_pos hcreate]
    show ((w.filesMeta ++ [newFileMeta c.filename c.username c.group p]).find? (nameMatches c.filename)).map _ = _
    rw [hrecord, Option.map_some, Replica.ofRecord, howner]
    rfl
  | read pass bufSize m file hop =>
    refine ⟨.success, rfl, iff_of_true rfl rfl, (replayEvent_of_action ?_ ?_ _).symm⟩
    · rw [Call.event, hop]
      rfl
    · rw [Call.event, hop]
      rfl
  | written pass content append m hop =>
    refine ⟨.success, rfl, iff_of_true rfl rfl, (replayEvent_of_action ?_ ?_ _).symm⟩
    · rw [Call.event, hop]
      cases append <;> rfl
    · rw [Call.event, hop]
      cases append <;> rfl
  | deleted m hop hm hperm =>
    refine ⟨.success, rfl, iff_of_true rfl rfl, ?_⟩
    have hdelete : (c.event .success).action = .delete := by
      rw [Call.event, hop]
      rfl
    have hcreate : ¬ (c.event .success).action = .create := by
      rw [hdelete]
      exact Action.noConfusion
    rw [replayEvent_lifecycle (succeeds_event c) (.inr hdelete), Replica.ofEvent, if_neg hcreate]
    show (((w.filesMeta.take maxRecords).filter (fun m => !nameMatches c.filename m)).find? (nameMatches c.filename)).map _ = _
    rw [find_filter_self]
    rfl
  | transformed p expect setTo m file hop hm hperm hflag hfile =>
    refine ⟨.success, rfl, iff_of_true rfl rfl, ?_⟩
    have haction : (c.event .success).action = .encrypt ∨ (c.event .success).action = .decrypt := by
      rw [Call.event]
      exact hop.imp (fun h => by rw [h.1]; rfl) (fun h => by rw [h.1]; rfl)
    have hencrypted : ((m.setFlag setTo).isEncrypted == 1) = ((c.event .success).action == .encrypt) := by
      rcases hop with ⟨hop, -, rfl⟩ | ⟨hop, -, rfl⟩ <;> rw [Call.event, hop] <;> rfl
    have hrecord : (mapMatching c.filename (·.setFlag setTo) (w.filesMeta.take maxRecords)).find? (nameMatches c.filename) =
        some (m.setFlag setTo) := by
      rw [List.take_of_length_le hbound, find_mapMatching_self c.filename (fun m => setFlag_filename m setTo)]
      exact congrArg (Option.map _) hm
    rw [replayEvent_cipher (succeeds_event c) haction, hm, Option.map_some, Option.map_some]
    show ((mapMatching c.filename (·.setFlag setTo) (w.filesMeta.take maxRecords)).find? (nameMatches c.filename)).map _ = _
    rw [hrecord, Option.map_some, Replica.ofRecord, setFlag_owner, hencrypted]
    rfl
  | chmodded p hop hp =>
    refine ⟨_, rfl, ?_, ?_⟩
    · show _ ↔ some ((w.filesMeta.take maxRecords).any (nameMatches c.filename)) = some true
      cases (w.filesMeta.take maxRecords).any (nameMatches c.filename) with
      | true => exact iff_of_true rfl rfl
      | false => exact iff_of_false (fun h => by cases h) (fun h => by cases h)
    · rw [replayEvent_of_action (by rw [Call.event, hop]; rfl) (by rw [Call.event, hop]; rfl)]
      show ((mapMatching c.filename (·.setPermissions p) (w.filesMeta.take maxRecords)).find? (nameMatches c.filename)).map _ = _
      rw [List.take_of_length_le hbound, find_mapMatching_self c.filename (fun m => setPermissions_filename m p), Option.map_map]
      rfl

/-- So it does to the replica and the record of any file. -/
theorem step_replay (hc : c.filename.length < maxFilename) (hbound : w.filesMeta.length ≤ maxRecords) :
    ∃ e, (step resolve w c).1.audit = w.audit ++ [e] ∧ Logs c (step resolve w c).2 e ∧
      ∀ f : CString, f.length < maxFilename →
        ((step resolve w c).1.record f).map Replica.ofRecord = replayEvent f ((w.record f).map Replica.ofRecord) e := by
  obtain ⟨result, haudit, hret, hself⟩ := step_replay_self resolve w c hc hbound
  refine ⟨c.event result, haudit, ⟨rfl, rfl, rfl, rfl, hret⟩, ?_⟩
  intro f hf
  by_cases hfile : f = c.filename
  · rw [hfile]
    exact hself
  · have hother : (c.event result).succeeds f = false := by
      rw [AuditEvent.succeeds, beq_false_of_ne (show (c.event result).target ≠ f from fun h => hfile h.symm), Bool.and_false]
    rw [step_record_ne resolve w c hf hc hfile hbound, replayEvent_of_not_succeeds hother]

/-- After a run the journal has one event for each call, those of its first calls in front, and its replay gives every record. -/
theorem run_replay (calls : List Call) (hnames : ∀ c ∈ calls, c.filename.length < maxFilename)
    (hbound : ∀ as c bs, calls = as ++ c :: bs → (Runs.final (step resolve) World.empty as).filesMeta.length ≤ maxRecords) :
    List.Forall₂ (fun x e => Logs x.1 x.2 e) (Runs.trace (step resolve) World.empty calls)
        (Runs.final (step resolve) World.empty calls).audit ∧
      (∀ n, (Runs.final (step resolve) World.empty (calls.take n)).audit =
        (Runs.final (step resolve) World.empty calls).audit.take n) ∧
      ∀ f : CString, f.length < maxFilename →
        ((Runs.final (step resolve) World.empty calls).record f).map Replica.ofRecord =
          replay f (Runs.final (step resolve) World.empty calls).audit := by
  induction calls using List.reverseRecOn with
  | nil => exact ⟨.nil, fun n => by rw [List.take_nil]; exact List.take_nil.symm, fun f _ => rfl⟩
  | append_singleton calls c ih =>
    obtain ⟨hlogs, hfirst, hreplay⟩ := ih (fun c' hc' => hnames c' (List.mem_append_left _ hc')) (by
      rintro as c' bs rfl
      exact hbound as c' (bs ++ [c]) (by simp))
    obtain ⟨e, haudit, hlog, hrecords⟩ := step_replay resolve (Runs.final (step resolve) World.empty calls) c
      (hnames c (List.mem_append_right calls List.mem_cons_self)) (hbound calls c [] rfl)
    have hlength : (Runs.final (step resolve) World.empty calls).audit.length = calls.length := by
      rw [← hlogs.length_eq, Runs.length_trace]
    rw [Runs.final_concat, Runs.trace_concat, haudit]
    refine ⟨List.rel_append hlogs (.cons hlog .nil), fun n => ?_, fun f hf => ?_⟩
    · rcases Nat.lt_or_ge calls.length n with hlt | hge
      · have hle : calls.length + 1 ≤ n := hlt
        rw [List.take_of_length_le (by simpa using hle), Runs.final_concat, haudit,
          List.take_of_length_le (by simpa [hlength] using hle)]
      · rw [List.take_append_of_le_length hge, List.take_append_of_le_length (hlength ▸ hge), hfirst]
    · rw [hrecords f hf, hreplay f hf, replay, replay, List.foldl_concat]

end JournalAux

/-- Alice creates a file and encrypts it, Bob may not delete it. -/
def journaled : List Call :=
  [Call.of "alice" "staff" "notes" (.create (some (cstring "rw-r-----")) (cstring "text")),
    Call.of "alice" "staff" "notes" (.encrypt (cstring "key")), Call.of "bob" "staff" "notes" .delete]

end OsSecurity.Fms
