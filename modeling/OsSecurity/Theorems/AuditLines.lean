import OsSecurity.Fms.Auth
import OsSecurity.Lib.Cut
import Mathlib.Data.List.Nodup

/-!
# What an audit line says

The fields of a line are written as they are, so a username can hold the words between them: behind it the line goes on as if it were
the line of another user. That is the only way in which two events have one line.
-/

namespace OsSecurity.Fms

open CLib

/-- The username of an event goes on, behind that of another one, like the line of that one; the target of the other goes on like the
line of the first. -/
def Forges (e e' : AuditEvent) : Prop :=
  ∃ x, e.username.bytes = e'.username.bytes ++ bytes " action=" ++ e'.action.text ++ bytes " target=" ++ x ∧
    e'.target.bytes = x ++ bytes " action=" ++ e.action.text ++ bytes " target=" ++ e.target.bytes ∧ e.result = e'.result

namespace AuditLinesAux

/-! ## The words of a line -/

/-- No two actions are written alike. -/
theorem action_text_injective : Function.Injective Action.text := by
  intro a b h
  have hnodup : ([Action.register, .login, .logout, .create, .read, .write, .append, .delete, .encrypt, .decrypt, .chmod].map
      Action.text).Nodup := by decide +kernel
  exact List.inj_on_of_nodup_map hnodup (by cases a <;> simp) (by cases b <;> simp) h

/-- No two results are written alike. -/
theorem outcome_text_injective : Function.Injective Outcome.text := by
  intro a b h
  have hnodup : ([Outcome.success, .failed, .metaExistsOrInvalid, .ioError, .notFound, .permissionDenied, .storageMissing,
      .memoryError, .wrongState, .invalidInput, .alreadyExists, .unknownUser, .wrongPassword].map Outcome.text).Nodup := by
    decide +kernel
  exact List.inj_on_of_nodup_map hnodup (by cases a <;> simp) (by cases b <;> simp) h

/-- The action of a line ends at the next blank. -/
theorem blank_notMem_action (a : Action) : 32 ∉ bytes "action=" ++ a.text := by
  cases a <;> decide

/-- The result of a line is what stands behind its last blank. -/
theorem blank_notMem_outcome (r : Outcome) : 32 ∉ bytes "result=" ++ r.text ++ [10] := by
  cases r <;> decide

theorem blank_action : bytes " action=" = 32 :: bytes "action=" := rfl

theorem blank_target : bytes " target=" = 32 :: bytes "target=" := rfl

/-- The line of an event behind its username, cut at its blanks. -/
def behindUser (e : AuditEvent) : List UInt8 :=
  32 :: (bytes "action=" ++ e.action.text ++
    32 :: (bytes "target=" ++ e.target.bytes ++ 32 :: (bytes "result=" ++ e.result.text ++ [10])))

/-- A line with a username, cut behind the username. -/
theorem line_eq {e : AuditEvent} (hu : e.username.bytes ≠ []) :
    e.line = bytes "[" ++ e.timestr ++ bytes "] user=" ++ (e.username.bytes ++ behindUser e) := by
  have hresult : bytes " result=" = 32 :: bytes "result=" := rfl
  rw [AuditEvent.line, if_neg hu, blank_action, blank_target, hresult, behindUser]
  simp only [List.append_assoc, List.cons_append]

/-- Where the one username goes on behind the other: it ends there, or holds the action of the other and the beginning of its
target. -/
theorem behindUser_cases {e e' : AuditEvent} {w : List UInt8} (h : behindUser e' = w ++ behindUser e) :
    (w = [] ∧ e.action = e'.action ∧ e.target = e'.target ∧ e.result = e'.result) ∨
      ∃ x, w = bytes " action=" ++ e'.action.text ++ bytes " target=" ++ x ∧
        e'.target.bytes = x ++ bytes " action=" ++ e.action.text ++ bytes " target=" ++ e.target.bytes ∧ e.result = e'.result := by
  have hresult : bytes "result=" ++ e'.result.text ++ [10] = bytes "result=" ++ e.result.text ++ [10] → e.result = e'.result := by
    intro heq
    rw [List.append_left_inj, List.append_right_inj] at heq
    exact (outcome_text_injective heq).symm
  unfold behindUser at h
  cases w with
  | nil =>
    obtain ⟨haction, hrest⟩ := Cut.first_inj (blank_notMem_action _) (blank_notMem_action _) (List.cons.inj h).2
    obtain ⟨htarget, hlast⟩ := Cut.last_inj (blank_notMem_outcome _) (blank_notMem_outcome _) hrest
    refine .inl ⟨rfl, ?_, ?_, hresult hlast⟩
    · exact action_text_injective (List.append_cancel_left haction).symm
    · exact CString.ext (List.append_cancel_left htarget).symm
  | cons c w =>
    obtain ⟨rfl, htail⟩ := List.cons.inj h
    rcases Cut.cons_eq_cases (blank_notMem_action _) htail with ⟨-, hrest⟩ | ⟨y, rfl, hrest⟩
    · -- the target of the one does not begin like the action of the other
      exact absurd (congrArg List.head? hrest) (by simp [show bytes "target=" = 116 :: bytes "arget=" from rfl,
        show bytes "action=" = 97 :: bytes "ction=" from rfl])
    · have hcut : ∀ a b c : List UInt8, y ++ 32 :: (a ++ 32 :: (b ++ 32 :: c)) = (y ++ 32 :: (a ++ 32 :: b)) ++ 32 :: c := by
        simp
      rw [hcut] at hrest
      obtain ⟨htarget, hlast⟩ := Cut.last_inj (blank_notMem_outcome _) (blank_notMem_outcome _) hrest
      obtain ⟨x, rfl, hx⟩ : ∃ x, y = bytes "target=" ++ x ∧
          e'.target.bytes = x ++ 32 :: (bytes "action=" ++ e.action.text ++ 32 :: (bytes "target=" ++ e.target.bytes)) := by
        rcases List.append_eq_append_iff.mp htarget with ⟨x, hy, hx⟩ | ⟨z, hword, hz⟩
        · exact ⟨x, hy, hx⟩
        · cases z with
          | nil => exact ⟨[], by rw [hword, List.append_nil, List.append_nil], by rw [hz]; rfl⟩
          | cons d z =>
            obtain ⟨rfl, -⟩ := List.cons.inj hz
            exact absurd (hword ▸ List.mem_append_right y List.mem_cons_self) (by decide)
      refine .inr ⟨x, ?_, ?_, hresult hlast⟩
      · simp [blank_action, blank_target]
      · simp [hx, blank_action, blank_target]

/-- An event whose line is that of another one behind the username of that one. -/
theorem behindUser_of_forges {e e' : AuditEvent} (h : Forges e e') :
    e.username.bytes ++ behindUser e = e'.username.bytes ++ behindUser e' := by
  obtain ⟨x, hu, ht, hr⟩ := h
  rw [hu, behindUser, behindUser, ht, hr]
  simp [blank_action, blank_target]

/-- Two lines whose usernames differ by `w`: then `w` is empty, or it holds the forged action and target. -/
theorem forges_of_append {e e' : AuditEvent} {w : List UInt8} (hu : e.username.bytes = e'.username.bytes ++ w)
    (h : behindUser e' = w ++ behindUser e) :
    (e.username = e'.username ∧ e.action = e'.action ∧ e.target = e'.target ∧ e.result = e'.result) ∨ Forges e e' := by
  rcases behindUser_cases h with ⟨rfl, hsame⟩ | ⟨x, rfl, hx⟩
  · exact .inl ⟨CString.ext (by rw [hu, List.append_nil]), hsame⟩
  · exact .inr ⟨x, by rw [hu]; simp only [List.append_assoc], hx⟩

end AuditLinesAux

/-- Two events with the same timestamp, whose usernames are not empty, have the same line if and only if they have the same username,
action, target and result, or one of them forges the other. -/
theorem line_eq_iff {e e' : AuditEvent} (htime : e.timestr = e'.timestr) (hu : e.username.bytes ≠ [])
    (hu' : e'.username.bytes ≠ []) :
    e.line = e'.line ↔
      (e.username = e'.username ∧ e.action = e'.action ∧ e.target = e'.target ∧ e.result = e'.result) ∨
        Forges e e' ∨ Forges e' e := by
  rw [AuditLinesAux.line_eq hu, AuditLinesAux.line_eq hu', htime, List.append_right_inj]
  constructor
  · intro h
    rcases List.append_eq_append_iff.mp h with ⟨w, hw, hrest⟩ | ⟨w, hw, hrest⟩
    · rcases AuditLinesAux.forges_of_append hw hrest with ⟨h1, h2, h3, h4⟩ | hforges
      · exact .inl ⟨h1.symm, h2.symm, h3.symm, h4.symm⟩
      · exact .inr (.inr hforges)
    · rcases AuditLinesAux.forges_of_append hw hrest with hsame | hforges
      · exact .inl hsame
      · exact .inr (.inl hforges)
  · rintro (⟨h1, h2, h3, h4⟩ | hforges | hforges)
    · rw [h1, AuditLinesAux.behindUser, AuditLinesAux.behindUser, h2, h3, h4]
    · exact AuditLinesAux.behindUser_of_forges hforges
    · exact (AuditLinesAux.behindUser_of_forges hforges).symm

/-- A user reads a file, and a user whose name begins like that line reads another one. -/
def honest : AuditEvent :=
  { timestr := bytes "T", username := cstring "a", action := .read, target := cstring "b action=READ target=c", result := .success }

/-- The other event: its username is how the line of the first one begins. -/
def forged : AuditEvent :=
  { timestr := bytes "T", username := cstring "a action=READ target=b", action := .read, target := cstring "c", result := .success }

/-- Both usernames can be registered, and both events have one line. -/
theorem honest_line_forged :
    isAcceptable honest.username (cstring "secret") (cstring "staff") = true ∧
      isAcceptable forged.username (cstring "secret") (cstring "staff") = true ∧
      (0 < honest.target.length ∧ honest.target.length < maxFilename ∧ 10 ∉ honest.target.bytes) ∧
      (0 < forged.target.length ∧ forged.target.length < maxFilename ∧ 10 ∉ forged.target.bytes) ∧
      honest.timestr = forged.timestr ∧ honest.line = forged.line ∧ honest.username ≠ forged.username ∧
      honest.target ≠ forged.target := by
  decide +kernel

/-- So one of the two forges the other. -/
theorem line_eq_iff_forged : Forges honest forged ∨ Forges forged honest := by
  have hline : honest.line = forged.line := by decide +kernel
  have htime : honest.timestr = forged.timestr := rfl
  rcases (line_eq_iff htime (by decide) (by decide)).mp hline with ⟨husername, -⟩ | hforges
  · exact absurd husername (by decide)
  · exact hforges

end OsSecurity.Fms
