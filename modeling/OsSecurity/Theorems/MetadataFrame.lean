import OsSecurity.Lemmas.Perms
import Mathlib.Data.List.Forall2

/-!
# The frame law of the metadata store

`chmod_file`, `set_encrypted_flag` and `delete_file_meta` share one loop that reads the records into a staging array and writes
them back. The frame law says that this leaves the records of other files alone. It holds of a database that fits the array;
of a larger one the loop keeps the first 1024 records only.
-/

namespace OsSecurity.Fms

open CLib

/-- A permission string `is_valid_perm_string` accepts. -/
def PermString := { p : CString // isValidPermString (some p) = true }

/-- The operations that rewrite the records. -/
inductive MetaOp where
  | chmod (p : PermString)
  | setFlag (isEncrypted : Int)
  | delete

/-- The database after an operation on a filename. -/
def MetaOp.run (io : Io) (db : List FileMeta) (f : CString) : MetaOp → List FileMeta
  | .chmod p => (chmodFile io db f (some p.1)).1
  | .setFlag e => (setEncryptedFlag io db f e).1
  | .delete => (deleteFileMeta io db f).1

/-- The frame law: the records of other filenames are there, as they were and in their order; a record of the filename is
changed in its permissions only, changed in its flag only, or gone. The value -1 stands for no change of the flag. -/
def FrameLaw (f : CString) : MetaOp → List FileMeta → List FileMeta → Prop
  | .chmod p, db, db' =>
    List.Forall₂ (fun m m' => if m.name = f then m' = { m with permissions := m'.permissions } ∧ m'.permissions.str = p.1
      else m' = m) db db'
  | .setFlag e, db, db' =>
    List.Forall₂ (fun m m' => if m.name = f then m' = { m with isEncrypted := m'.isEncrypted } ∧ (e ≠ -1 → m'.isEncrypted = e)
      else m' = m) db db'
  | .delete, db, db' => db' = db.filter (fun m => m.name ≠ f)

/-- What an operation writes for a record it takes for one of its filename. -/
def MetaOp.onRecord : MetaOp → FileMeta → List FileMeta
  | .chmod p, m => [m.setPermissions p.1]
  | .setFlag e, m => [m.setFlag e]
  | .delete, _ => []

/-- When an operation keeps to the frame law. The staging array holds the whole database, or what it does not hold is to be
deleted anyway; and the operation does not touch a record whose filename field is full, without a NUL, and only begins the
argument (such a record compares equal on `MAX_FILENAME` bytes). -/
def MetaOp.Fits (op : MetaOp) (f : CString) (db : List FileMeta) : Prop :=
  (match op with
    | .delete => ∀ m ∈ db.drop maxRecords, m.name = f
    | _ => db.length ≤ maxRecords) ∧
  ∀ m ∈ db.take maxRecords, nameMatches f m = true → m.name = f ∨ op.onRecord m = [m]

namespace FrameAux

/-- A record that carries the name compares equal to it. -/
theorem nameMatches_of_name {f : CString} {m : FileMeta} (h : m.name = f) : nameMatches f m = true := by
  rw [nameMatches_iff (h ▸ name_length_le m)]
  exact h

/-- A record with its permissions set differs in them only. -/
theorem setPermissions_eq (m : FileMeta) (p : CString) :
    m.setPermissions p = { m with permissions := (m.setPermissions p).permissions } := rfl

/-- A record with its flag set differs in it only. -/
theorem setFlag_eq (m : FileMeta) (e : Int) : m.setFlag e = { m with isEncrypted := (m.setFlag e).isEncrypted } := by
  unfold FileMeta.setFlag
  split <;> rfl

theorem setFlag_isEncrypted (m : FileMeta) {e : Int} (he : e ≠ -1) : (m.setFlag e).isEncrypted = e := by
  rw [FileMeta.setFlag, if_pos he]

/-- A relation between the records of a list and what a map makes of its first `n` relates them all exactly when there are no
others and the relation holds of each. -/
theorem forall₂_map_take {α β : Type*} (R : α → β → Prop) (g : α → β) (n : Nat) (l : List α) :
    List.Forall₂ R l ((l.take n).map g) ↔ l.length ≤ n ∧ ∀ x ∈ l.take n, R x (g x) := by
  constructor
  · intro h
    have hl : l.length ≤ n := by
      have := h.length_eq
      rw [List.length_map, List.length_take] at this
      omega
    rw [List.take_of_length_le hl] at h ⊢
    rw [List.forall₂_map_right_iff, List.forall₂_same] at h
    exact ⟨hl, h⟩
  · rintro ⟨hl, h⟩
    rw [List.take_of_length_le hl] at h ⊢
    rw [List.forall₂_map_right_iff, List.forall₂_same]
    exact h

/-- One predicate filters the front of a list as another filters the whole of it exactly when it lets through no fewer of the
front and the other lets nothing of the rest through, if it lets through no more. -/
theorem filter_take_eq_filter {α : Type*} (p q : α → Bool) (hpq : ∀ x, p x = true → q x = true) (n : Nat) (l : List α) :
    (l.take n).filter p = l.filter q ↔ (∀ x ∈ l.drop n, q x = false) ∧ ∀ x ∈ l.take n, q x = true → p x = true := by
  have hsplit : l.filter q = (l.take n).filter q ++ (l.drop n).filter q := by
    rw [← List.filter_append, List.take_append_drop]
  have hp : (l.take n).filter p = ((l.take n).filter q).filter p := by
    rw [List.filter_filter]
    refine List.filter_congr ?_
    intro x _
    cases hx : p x with
    | false => rfl
    | true => simp [hpq x hx]
  have hle : ((l.take n).filter p).length ≤ ((l.take n).filter q).length := by
    rw [hp]
    exact List.length_filter_le _ _
  constructor
  · intro h
    have hlen := congrArg List.length (h.trans hsplit)
    rw [List.length_append] at hlen
    have hnil : (l.drop n).filter q = [] := List.length_eq_zero_iff.mp (by omega)
    rw [hsplit, hnil, List.append_nil] at h
    refine ⟨fun x hx => by simpa using List.filter_eq_nil_iff.mp hnil x hx, ?_⟩
    intro x hx hq
    have hm : x ∈ (l.take n).filter q := List.mem_filter.mpr ⟨hx, hq⟩
    rw [← h] at hm
    exact (List.mem_filter.mp hm).2
  · rintro ⟨hdrop, htake⟩
    have hnil : (l.drop n).filter q = [] := List.filter_eq_nil_iff.mpr (fun x hx => by simp [hdrop x hx])
    rw [hsplit, hnil, List.append_nil]
    refine List.filter_congr ?_
    intro x hx
    cases hq : q x with
    | true => exact htake x hx hq
    | false =>
      cases hpx : p x with
      | false => rfl
      | true => exact absurd (hpq x hpx) (by simp [hq])

end FrameAux

open FrameAux

/-- The three operations meet the frame law exactly on the databases that fit. -/
theorem frameLaw_iff (timestr : List UInt8) (db : List FileMeta) (f : CString) (op : MetaOp) :
    FrameLaw f op db (op.run (Io.allOk timestr) db f) ↔ op.Fits f db := by
  have hio := (Io.allOk_allOk timestr).rewrites
  cases op with
  | chmod p =>
    simp only [FrameLaw, MetaOp.run, chmodFile_eq db f hio p.2, mapMatching, forall₂_map_take, MetaOp.Fits, MetaOp.onRecord,
      List.cons.injEq, and_true]
    refine and_congr_right (fun _ => forall₂_congr (fun m _ => ?_))
    by_cases hf : m.name = f
    · simp only [hf, if_true, nameMatches_of_name hf, true_or, implies_true, iff_true]
      exact ⟨setPermissions_eq m p.1, (setPermissions_permissions m p.2).1⟩
    · by_cases hm : nameMatches f m = true <;> simp [hf, hm]
  | setFlag e =>
    simp only [FrameLaw, MetaOp.run, setEncryptedFlag_eq db f hio, mapMatching, forall₂_map_take, MetaOp.Fits, MetaOp.onRecord,
      List.cons.injEq, and_true]
    refine and_congr_right (fun _ => forall₂_congr (fun m _ => ?_))
    by_cases hf : m.name = f
    · simp only [hf, if_true, nameMatches_of_name hf, true_or, implies_true, iff_true]
      exact ⟨setFlag_eq m e, setFlag_isEncrypted m⟩
    · by_cases hm : nameMatches f m = true <;> simp [hf, hm]
  | delete =>
    have hpq : ∀ m : FileMeta, (!nameMatches f m) = true → decide (m.name ≠ f) = true := by
      intro m hm
      refine decide_eq_true (fun hf => ?_)
      simp [nameMatches_of_name hf] at hm
    simp only [FrameLaw, MetaOp.run, deleteFileMeta_eq db f hio, MetaOp.Fits, MetaOp.onRecord, filter_take_eq_filter _ _ hpq]
    refine and_congr (forall₂_congr (fun m _ => by simp)) (forall₂_congr ?_)
    intro m _
    by_cases hf : m.name = f <;> by_cases hm : nameMatches f m = true <;> simp [hf, hm]

namespace FrameAux

/-- The files of the counterexample, one more than the staging array holds: `a0`, `a1`, ..., each of `alice` and `staff`. -/
def crowded : List FileMeta :=
  (List.range (maxRecords + 1)).map (fun i => newFileMeta (CString.ofMem [UInt8.ofNat (97 + i / 40), UInt8.ofNat (48 + i % 40)])
    (cstring "alice") (cstring "staff") (cstring "rw-r-----"))

theorem crowded_length : crowded.length = maxRecords + 1 := by
  rw [crowded, List.length_map, List.length_range]

end FrameAux

/-- A chmod of `a0` in a database of 1025 files loses a record. -/
theorem frameLaw_fails_beyond_1024 :
    ¬ FrameLaw (cstring "a0") (.chmod ⟨cstring "rw-------", by decide⟩) crowded
      (MetaOp.run (Io.allOk (bytes "2026-01-01 00:00:00")) crowded (cstring "a0")
        (.chmod ⟨cstring "rw-------", by decide⟩)) := by
  intro h
  have hlen := List.Forall₂.length_eq h
  simp only [MetaOp.run, chmodFile_eq _ _ (Io.allOk_allOk _).rewrites (p := cstring "rw-------") (by decide),
    mapMatching_length, List.length_take, crowded_length] at hlen
  omega

end OsSecurity.Fms
