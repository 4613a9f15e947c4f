import OsSecurity.Lemmas.FileOps
import OsSecurity.Lib.Runs

/-!
# Read confidentiality

Two worlds that differ in the bytes of one file only look alike to a user whom the file's record denies reading, through every
run without a chmod. The relation kept along a run is `Alike`: the records are the same, the stored bytes are the same but for
the file's, and these are the same or hidden from the user. A file once deleted and created again has the same bytes in both
worlds, so it may be hidden or not.
-/

namespace OsSecurity.Fms

open CLib

variable {Obj : Type*} [DecidableEq Obj] (resolve : List UInt8 → Obj)

/-- Two worlds that a user of a group tells apart at most by the bytes of a file that it may not read. -/
structure Alike (f username group : CString) (s t : World Obj) : Prop where
  filesMeta : s.filesMeta = t.filesMeta
  others : ∀ o, o ≠ storageObj resolve f → s.disk o = t.disk o
  present : (s.disk (storageObj resolve f)).isSome = (t.disk (storageObj resolve f)).isSome
  hidden : s.disk (storageObj resolve f) = t.disk (storageObj resolve f) ∨
    ∀ m, s.record f = some m → checkPermission username group m .read = false

namespace AlikeAux

variable {resolve} {names : Set CString} {f username group : CString} {s t : World Obj}

omit [DecidableEq Obj] in
theorem record_eq (h : Alike resolve f username group s t) (g : CString) : t.record g = s.record g := by
  rw [World.record, World.record, h.filesMeta]

omit [DecidableEq Obj] in
/-- What is logged does not matter. -/
theorem logged (h : Alike resolve f username group s t) (c : Call) (o : Outcome) :
    Alike resolve f username group (s.logged c o) (t.logged c o) :=
  ⟨h.filesMeta, h.others, h.present, h.hidden⟩

omit [DecidableEq Obj] in
/-- The worlds agree on the bytes of every other file. -/
theorem disk_ne (hdist : Distinct resolve names) (h : Alike resolve f username group s t) {g : CString} (hf : f ∈ names)
    (hg : g ∈ names) (hne : g ≠ f) : s.disk (storageObj resolve g) = t.disk (storageObj resolve g) :=
  h.others _ (hdist.ne hg hf hne)

omit [DecidableEq Obj] in
/-- A file is present in both worlds or in neither. -/
theorem isSome_eq (hdist : Distinct resolve names) (h : Alike resolve f username group s t) (hf : f ∈ names)
    {g : CString} (hg : g ∈ names) :
    (s.disk (storageObj resolve g)).isSome = (t.disk (storageObj resolve g)).isSome := by
  by_cases hne : g = f
  · rw [hne]; exact h.present
  · rw [disk_ne hdist h hf hg hne]

/-- Storing the same bytes for another file keeps the relation, when no record of `f` comes to grant more. -/
theorem store_other (h : Alike resolve f username group s t) {g : CString} (hne : storageObj resolve f ≠ storageObj resolve g)
    {db : List FileMeta} (b : Option (List UInt8))
    (hdeny : (∀ m, s.record f = some m → checkPermission username group m .read = false) →
      ∀ m, db.find? (nameMatches f) = some m → checkPermission username group m .read = false) :
    Alike resolve f username group ({ s with filesMeta := db }.store resolve g b) ({ t with filesMeta := db }.store resolve g b)
    := by
  refine ⟨rfl, fun o hof => ?_, ?_, ?_⟩
  · by_cases hog : o = storageObj resolve g
    · subst hog
      rw [store_disk_self, store_disk_self]
    · rw [store_disk_ne resolve _ _ _ hog, store_disk_ne resolve _ _ _ hog]
      exact h.others o hof
  · rw [store_disk_ne resolve _ _ _ hne, store_disk_ne resolve _ _ _ hne]
    exact h.present
  · rw [store_disk_ne resolve _ _ _ hne, store_disk_ne resolve _ _ _ hne]
    exact h.hidden.imp_right hdeny

/-- Storing bytes for the file itself keeps the relation, when they are the same or the file stays hidden. -/
theorem store_self (h : Alike resolve f username group s t) {d : List FileMeta} {a b : Option (List UInt8)}
    (hsome : a.isSome = b.isSome)
    (hhidden : a = b ∨ ∀ m, d.find? (nameMatches f) = some m → checkPermission username group m .read = false) :
    Alike resolve f username group ({ s with filesMeta := d }.store resolve f a) ({ t with filesMeta := d }.store resolve f b)
    := by
  refine ⟨rfl, fun o hof => ?_, ?_, ?_⟩
  · rw [store_disk_ne resolve _ _ _ hof, store_disk_ne resolve _ _ _ hof]
    exact h.others o hof
  · rw [store_disk_self, store_disk_self]
    exact hsome
  · rw [store_disk_self, store_disk_self]
    exact hhidden

/-- Storing bytes for any file keeps the relation, when they are the same or the file is `f` and stays hidden, and no record of `f` comes
to grant more. -/
theorem store_alike (hdist : Distinct resolve names) (hf : f ∈ names) {g : CString} (hg : g ∈ names)
    (h : Alike resolve f username group s t) {d : List FileMeta} {a b : Option (List UInt8)} (hsome : a.isSome = b.isSome)
    (hbytes : a = b ∨ g = f ∧ ∀ m, d.find? (nameMatches f) = some m → checkPermission username group m .read = false)
    (hdeny : f ≠ g → (∀ m, s.record f = some m → checkPermission username group m .read = false) →
      ∀ m, d.find? (nameMatches f) = some m → checkPermission username group m .read = false) :
    Alike resolve f username group ({ s with filesMeta := d }.store resolve g a) ({ t with filesMeta := d }.store resolve g b)
    := by
  by_cases hne : f = g
  · rw [← hne]
    exact store_self h hsome (hbytes.imp_right (·.2))
  · obtain rfl : a = b := hbytes.resolve_right (fun hd => hne hd.1.symm)
    exact store_other h (hdist.ne hf hg hne) a (hdeny hne)

/-- Removing records, or setting flags, among the first records grants nothing. -/
theorem deny_filter {db : List FileMeta} (hf : f.length < maxFilename) {g : CString} (hg : g.length < maxFilename)
    (hdeny : ∀ m, db.find? (nameMatches f) = some m → checkPermission username group m .read = false) (n : Nat) :
    ∀ m, ((db.take n).filter (fun m => !nameMatches g m)).find? (nameMatches f) = some m →
      checkPermission username group m .read = false := by
  intro m hm
  by_cases hne : f = g
  · subst hne
    rw [find_filter_self] at hm
    nomatch hm
  · rw [find_filter_ne (Nat.le_of_lt hf) (Nat.le_of_lt hg) hne] at hm
    exact hdeny m (find_of_take hm)

theorem deny_setFlag {db : List FileMeta} (g : CString)
    (hdeny : ∀ m, db.find? (nameMatches f) = some m → checkPermission username group m .read = false) (e : Int) (n : Nat) :
    ∀ m, (mapMatching g (·.setFlag e) (db.take n)).find? (nameMatches f) = some m →
      checkPermission username group m .read = false := by
  intro m hm
  rw [find_mapMatching f g (fun m => setFlag_filename m e)] at hm
  obtain ⟨m', hm', rfl⟩ := Option.map_eq_some_iff.mp hm
  have hd := hdeny m' (find_of_take hm')
  by_cases hg : nameMatches g m' = true
  · rw [if_pos hg, checkPermission_setFlag]
    exact hd
  · rw [if_neg hg]
    exact hd

omit [DecidableEq Obj] in
/-- The file's bytes are present in both worlds, and the same in both if they are not hidden. -/
theorem disk_cases (hdist : Distinct resolve names) (h : Alike resolve f username group s t) (hf : f ∈ names)
    {g : CString} (hg : g ∈ names) :
    s.disk (storageObj resolve g) = none ∧ t.disk (storageObj resolve g) = none ∨
      ∃ b b', s.disk (storageObj resolve g) = some b ∧ t.disk (storageObj resolve g) = some b' ∧
        (b = b' ∨ g = f ∧ ∀ m, s.record f = some m → checkPermission username group m .read = false) := by
  have hsome := isSome_eq hdist h hf hg
  have heq : s.disk (storageObj resolve g) = t.disk (storageObj resolve g) ∨
      g = f ∧ ∀ m, s.record f = some m → checkPermission username group m .read = false := by
    by_cases hne : g = f
    · subst hne
      exact h.hidden.imp_right (fun hd => ⟨rfl, hd⟩)
    · exact .inl (disk_ne hdist h hf hg hne)
  cases hs : s.disk (storageObj resolve g) with
  | none =>
    refine .inl ⟨rfl, ?_⟩
    rw [hs] at hsome
    exact Option.isSome_eq_false_iff.mp hsome.symm |> Option.isNone_iff_eq_none.mp
  | some b =>
    rw [hs] at hsome heq
    obtain ⟨b', hb'⟩ := Option.isSome_iff_exists.mp hsome.symm
    rw [hb'] at heq
    exact .inr ⟨b, b', rfl, hb', heq.imp_left Option.some.inj⟩

/-- One call keeps the relation. -/
theorem step_alike (hdist : Distinct resolve names) (hf : f ∈ names) (c : Call) (hc : c.filename ∈ names)
    (hop : ∀ p, c.op ≠ .chmod p) (h : Alike resolve f username group s t) :
    Alike resolve f username group (step resolve s c).1 (step resolve t c).1 := by
  have hrec := record_eq h c.filename
  have hmeta := h.filesMeta
  have htransform : ∀ {p : CString} {expect setTo : Int}, c.op.IsTransform p expect setTo →
      Alike resolve f username group (step resolve s c).1 (step resolve t c).1 := by
    intro p expect setTo hop
    rw [step_transform resolve s c hop, step_transform resolve t c hop, hrec]
    cases hm : s.record c.filename with
    | none => exact logged h c _
    | some m =>
      dsimp only
      split_ifs with hperm hflag
      · rcases disk_cases hdist h hf hc with ⟨hs, ht⟩ | ⟨b, b', hs, ht, hb⟩
        · simp only [hs, ht]
          exact logged h c _
        · simp only [hs, ht, ← hmeta]
          refine logged (store_alike (a := some (xorCipher p b)) (b := some (xorCipher p b')) hdist hf hc h rfl ?_
            (fun _ hd => deny_setFlag c.filename hd setTo maxRecords)) c _
          exact hb.imp (congrArg (fun b => some (xorCipher p b)))
            (fun hd => ⟨hd.1, deny_setFlag c.filename hd.2 setTo maxRecords⟩)
      · exact logged h c _
      · exact logged h c _
  cases hop' : c.op with
  | create permStr content =>
    rw [step_create resolve s c hop', step_create resolve t c hop', hrec]
    cases permStr with
    | none => exact logged h c _
    | some p =>
      dsimp only
      split_ifs with hnew
      · rw [← hmeta]
        refine logged (store_alike hdist hf hc h rfl (.inl rfl) ?_) c _
        intro hne hd m hm
        rw [find_append_new_ne (hdist.fits f hf) (hdist.fits _ hc) hne] at hm
        exact hd m hm
      · exact logged h c _
  | read pass bufSize =>
    rw [step_read resolve s c hop', step_read resolve t c hop', hrec]
    cases hm : s.record c.filename with
    | none => exact logged h c _
    | some m =>
      dsimp only
      split_ifs with hperm
      · rcases disk_cases hdist h hf hc with ⟨hs, ht⟩ | ⟨b, b', hs, ht, -⟩ <;> simp only [hs, ht] <;> exact logged h c _
      · exact logged h c _
  | write pass content append =>
    rw [step_write resolve s c hop', step_write resolve t c hop', hrec]
    cases hm : s.record c.filename with
    | none => exact logged h c _
    | some m =>
      by_cases hperm : checkPermission c.username c.group m .write = true
      · simp only [if_pos hperm]
        have hself : { t with filesMeta := s.filesMeta } = t := by rw [hmeta]
        have hold : (s.disk (storageObj resolve c.filename)).getD [] = (t.disk (storageObj resolve c.filename)).getD [] ∨
            c.filename = f ∧ ∀ m, s.record f = some m → checkPermission username group m .read = false := by
          rcases disk_cases hdist h hf hc with ⟨hs, ht⟩ | ⟨b, b', hs, ht, hb⟩
          · exact .inl (by rw [hs, ht])
          · exact hb.imp_left (fun hb => by rw [hs, ht, hb])
        generalize (s.disk (storageObj resolve c.filename)).getD [] = old at hold
        generalize (t.disk (storageObj resolve c.filename)).getD [] = old' at hold
        generalize cipherIfEncrypted m pass content.bytes = buf
        have hstore := store_alike (d := s.filesMeta) (a := some ((if append then old else []) ++ buf))
          (b := some ((if append then old' else []) ++ buf)) hdist hf hc h rfl (hold.imp_left (fun he => by rw [he])) (fun _ hd => hd)
        rw [hself] at hstore
        exact logged hstore c _
      · simp only [if_neg hperm]
        exact logged h c _
  | delete =>
    rw [step_delete resolve s c hop', step_delete resolve t c hop', hrec]
    cases hm : s.record c.filename with
    | none => exact logged h c _
    | some m =>
      dsimp only
      split_ifs with hperm
      · rw [← hmeta]
        exact logged (store_alike hdist hf hc h rfl (.inl rfl) (fun _ hd => deny_filter (hdist.fits f hf) (hdist.fits _ hc) hd maxRecords)) c _
      · exact logged h c _
  | encrypt p => exact htransform (.inl ⟨hop', rfl, rfl⟩)
  | decrypt p => exact htransform (.inr ⟨hop', rfl, rfl⟩)
  | chmod p => exact absurd hop' (hop p)

/-- The user gets the same reply in both worlds. -/
theorem step_reply (hdist : Distinct resolve names) (hf : f ∈ names) (c : Call) (hc : c.filename ∈ names)
    (hop : ∀ p, c.op ≠ .chmod p) (hu : c.username = username) (hg : c.group = group)
    (h : Alike resolve f username group s t) : (step resolve s c).2 = (step resolve t c).2 := by
  have hrec := record_eq h c.filename
  have htransform : ∀ {p : CString} {expect setTo : Int}, c.op.IsTransform p expect setTo →
      (step resolve s c).2 = (step resolve t c).2 := by
    intro p expect setTo hop
    rw [step_transform resolve s c hop, step_transform resolve t c hop, hrec]
    cases hm : s.record c.filename with
    | none => rfl
    | some m =>
      dsimp only
      split_ifs with hperm hflag
      · rcases disk_cases hdist h hf hc with ⟨hs, ht⟩ | ⟨b, b', hs, ht, -⟩ <;> simp only [hs, ht]
      · rfl
      · rfl
  cases hop' : c.op with
  | create permStr content =>
    rw [step_create resolve s c hop', step_create resolve t c hop', hrec]
    cases permStr with
    | none => rfl
    | some p =>
      dsimp only
      split_ifs <;> rfl
  | read pass bufSize =>
    rw [step_read resolve s c hop', step_read resolve t c hop', hrec]
    cases hm : s.record c.filename with
    | none => rfl
    | some m =>
      dsimp only
      split_ifs with hperm
      · rcases disk_cases hdist h hf hc with ⟨hs, ht⟩ | ⟨b, b', hs, ht, hb⟩
        · simp only [hs, ht]
        · -- The bytes read are the same: a hidden file has been denied.
          have hb : b = b' := by
            refine hb.resolve_right ?_
            intro hd
            have hdeny := hd.2 m (hd.1 ▸ hm)
            rw [← hu, ← hg, hperm] at hdeny
            nomatch hdeny
          simp only [hs, ht, hb]
      · rfl
  | write pass content append =>
    rw [step_write resolve s c hop', step_write resolve t c hop', hrec]
    cases hm : s.record c.filename with
    | none => rfl
    | some m => by_cases hperm : checkPermission c.username c.group m .write = true <;> simp only [hperm] <;> rfl
  | delete =>
    rw [step_delete resolve s c hop', step_delete resolve t c hop', hrec]
    cases hm : s.record c.filename with
    | none => rfl
    | some m =>
      dsimp only
      split_ifs <;> rfl
  | encrypt p => exact htransform (.inl ⟨hop', rfl, rfl⟩)
  | decrypt p => exact htransform (.inr ⟨hop', rfl, rfl⟩)
  | chmod p => exact absurd hop' (hop p)

end AlikeAux

open AlikeAux

/-- A user whom the record of a file denies reading gets the same replies in every run without a chmod, by any users, with names that
denote distinct objects, from two worlds that are equal except for the bytes of the file. -/
theorem read_noninterference {names : Set CString} (hdist : Distinct resolve names) {f username group : CString} (hf : f ∈ names)
    {s t : World Obj} (hmeta : s.filesMeta = t.filesMeta)
    (hothers : ∀ o, o ≠ storageObj resolve f → s.disk o = t.disk o)
    (hpresent : (s.disk (storageObj resolve f)).isSome = (t.disk (storageObj resolve f)).isSome)
    {m : FileMeta} (hm : s.record f = some m) (hdeny : checkPermission username group m .read = false)
    (calls : List Call) (hcalls : ∀ c ∈ calls, c.filename ∈ names ∧ ∀ p, c.op ≠ .chmod p) :
    (Runs.trace (step resolve) s calls).filter (fun e => e.1.username = username ∧ e.1.group = group) =
      (Runs.trace (step resolve) t calls).filter (fun e => e.1.username = username ∧ e.1.group = group) := by
  have hst : Alike resolve f username group s t := by
    refine ⟨hmeta, hothers, hpresent, .inr ?_⟩
    intro m' hm'
    obtain rfl := Option.some.inj (hm.symm.trans hm')
    exact hdeny
  refine Runs.unwinding (fun c : Call => decide (c.username = username ∧ c.group = group))
    (fun s t c hc h => step_alike hdist hf c hc.1 hc.2 h) (fun s t c hc h hlow => ?_) hst hcalls
  have hlow := of_decide_eq_true hlow
  exact step_reply hdist hf c hc.1 hc.2 hlow.1 hlow.2 h

namespace AlikeAux

/-- The world with a private file of alice's that holds a secret. -/
def secretWorld (secret : String) : World (List UInt8) :=
  (step id World.empty (.of "alice" "staff" "notes.txt" (.create (some (cstring "rw--w----")) (cstring secret)))).1

end AlikeAux

/-- Bob, who may write to alice's file but not read it, reads it, appends to it and reads it again after alice encrypted it. -/
theorem read_noninterference_notes :
    let calls := [Call.of "bob" "staff" "notes.txt" (.read none 4096),
      .of "bob" "staff" "notes.txt" (.write none (cstring "!") true),
      .of "alice" "staff" "notes.txt" (.encrypt (cstring "a")),
      .of "bob" "staff" "notes.txt" (.read (some (cstring "a")) 4096)]
    (Runs.trace (step id) (secretWorld "one") calls).filter (fun e => e.1.username = cstring "bob" ∧ e.1.group = cstring "staff") =
      (Runs.trace (step id) (secretWorld "two") calls).filter
        (fun e => e.1.username = cstring "bob" ∧ e.1.group = cstring "staff") := by
  refine read_noninterference id distinct_id (f := cstring "notes.txt") (m := newFileMeta (cstring "notes.txt") (cstring "alice")
    (cstring "staff") (cstring "rw--w----")) (show (cstring "notes.txt").length < maxFilename by decide) (by decide) (fun o ho => ?_) (by decide) (by decide) (by decide) _ ?_
  · rw [secretWorld, secretWorld, step_disk_ne _ _ _ ho, step_disk_ne _ _ _ ho]
  · intro c hc
    simp only [List.mem_cons, List.not_mem_nil, or_false] at hc
    have hfits : (cstring "notes.txt").length < maxFilename := by decide
    rcases hc with rfl | rfl | rfl | rfl <;> exact ⟨hfits, nofun⟩

end OsSecurity.Fms
