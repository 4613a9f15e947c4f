import OsSecurity.Lemmas.Cipher
import OsSecurity.Lemmas.FileOps
import OsSecurity.Lib.Runs

/-!
# The round trip of encryption and decryption

From the encryption of a file to its decryption with the same passphrase, through reads of the file, attempts to encrypt it
again, changes of its permissions and whatever happens to other files, the file stays sealed: flagged, and its bytes the cipher
of the original ones.
-/

namespace OsSecurity.Fms

open CLib

variable {Obj : Type*} [DecidableEq Obj] (resolve : List UInt8 → Obj)

/-- The operations that leave a sealed file sealed. -/
inductive FsOp.Harmless : FsOp → Prop
  | read (pass : Option CString) (bufSize : UInt64) : Harmless (.read pass bufSize)
  | encrypt (p : CString) : Harmless (.encrypt p)
  | chmod (permStr : Option CString) : Harmless (.chmod permStr)

/-- The file holds the cipher of the content and its record, if it has one, says so. -/
structure Sealed (f p : CString) (content : List UInt8) (w : World Obj) : Prop where
  disk : w.disk (storageObj resolve f) = some (xorCipher p content)
  flag : ∀ m, w.record f = some m → m.isEncrypted = 1

namespace SealedAux

variable {resolve} {f p : CString} {content : List UInt8} {w : World Obj}

/-- A successful encryption seals the file. -/
theorem sealed_of_encrypt {enc : Call} (hop : enc.op = .encrypt p)
    (hcontent : w.disk (storageObj resolve enc.filename) = some content) (hret : (step resolve w enc).2.ret = some true) :
    Sealed resolve enc.filename p content (step resolve w enc).1 := by
  obtain ⟨m, file, -, -, hfile, hdisk, hrec⟩ := step_transform_ok resolve w enc (.inl ⟨hop, rfl, rfl⟩) hret
  obtain rfl := Option.some.inj (hcontent.symm.trans hfile)
  refine ⟨hdisk, ?_⟩
  intro m' hm'
  rw [hrec] at hm'
  obtain ⟨m₀, -, rfl⟩ := Option.map_eq_some_iff.mp hm'
  rfl

/-- A harmless operation on a sealed file leaves it sealed. -/
theorem sealed_step_self {c : Call} (hop : c.op.Harmless) (hs : Sealed resolve c.filename p content w) :
    Sealed resolve c.filename p content (step resolve w c).1 := by
  have h := step_effect resolve w c
  generalize (step resolve w c).1 = w', (step resolve w c).2 = r at h
  cases h with
  | refused | read => exact ⟨hs.disk, hs.flag⟩
  | chmodded q =>
    refine ⟨hs.disk, ?_⟩
    intro m' hm'
    have hrec : ((w.filesMeta.take maxRecords).find? (nameMatches c.filename)).map (·.setPermissions q) = some m' := by
      rw [← find_mapMatching_self c.filename (fun m => setPermissions_filename m q)]
      exact hm'
    obtain ⟨m, hm, rfl⟩ := Option.map_eq_some_iff.mp hrec
    exact hs.flag m (find_of_take hm)
  | transformed q expect setTo m file hop' hm hperm hflag =>
    -- Neither a second encryption nor a decryption that is not the last.
    obtain ⟨-, rfl, -⟩ | ⟨he, -, -⟩ := hop'
    · rw [hs.flag m hm] at hflag
      nomatch hflag
    · rw [he] at hop
      nomatch hop
  | created q d hop' => rw [hop'] at hop; nomatch hop
  | written q d a m hop' => rw [hop'] at hop; nomatch hop
  | deleted m hop' => rw [hop'] at hop; nomatch hop

/-- An operation on another file leaves the file sealed. -/
theorem sealed_step_ne {names : Set CString} (hdist : Distinct resolve names) (hf : f ∈ names) {c : Call}
    (hc : c.filename ∈ names) (hne : f ≠ c.filename) (hs : Sealed resolve f p content w) :
    Sealed resolve f p content (step resolve w c).1 :=
  ⟨(step_disk_ne resolve w c (hdist.ne hf hc hne)).trans hs.disk,
    fun m hm => hs.flag m (record_of_step_ne resolve w c (hdist.fits f hf) (hdist.fits _ hc) hne hm)⟩

theorem sealed_step {names : Set CString} (hdist : Distinct resolve names) (hf : f ∈ names) {c : Call}
    (hc : c.filename ∈ names) (hop : c.filename = f → c.op.Harmless) (hs : Sealed resolve f p content w) :
    Sealed resolve f p content (step resolve w c).1 := by
  by_cases hne : c.filename = f
  · subst hne
    exact sealed_step_self (hop rfl) hs
  · exact sealed_step_ne hdist hf hc (fun h => hne h.symm) hs

/-- An attempt to encrypt a sealed file is refused. -/
theorem encrypt_refused {c : Call} (hs : Sealed resolve c.filename p content w) {q : CString} (hop : c.op = .encrypt q) :
    (step resolve w c).2.ret = some false := by
  rw [step_transform resolve w c (.inl ⟨hop, rfl, rfl⟩)]
  cases hm : w.record c.filename with
  | none => rfl
  | some m =>
    have hflag : ¬ m.isEncrypted = 0 := by
      rw [hs.flag m hm]
      decide
    simp only [if_neg hflag]
    split_ifs <;> rfl

/-- A read of a sealed file with its passphrase gives the content, as far as the buffer holds it. -/
theorem read_content {c : Call} (hs : Sealed resolve c.filename p content w) {b : UInt64} (hop : c.op = .read (some p) b)
    (hret : (step resolve w c).2.ret = some true) :
    (step resolve w c).2.buffer = some (content.take (b - 1).toNat) := by
  rw [step_read resolve w c hop] at hret ⊢
  cases hm : w.record c.filename with
  | none =>
    rw [hm] at hret
    exact absurd (Option.some.inj hret) Bool.false_ne_true
  | some m =>
    simp only [hm, hs.disk] at hret ⊢
    split_ifs at hret ⊢ with hperm
    · have hflag : m.isEncrypted ≠ 0 := by
        rw [hs.flag m hm]
        decide
      simp only [cipherIfEncrypted, if_pos hflag, xorCipher_take, xorCipher_xorCipher]
    · exact absurd (Option.some.inj hret) Bool.false_ne_true

/-- A successful decryption of a sealed file gives the content back and clears the flag. -/
theorem decrypt_content {dec : Call} (hs : Sealed resolve dec.filename p content w) (hop : dec.op = .decrypt p)
    (hret : (step resolve w dec).2.ret = some true) (hbound : w.filesMeta.length ≤ maxRecords) :
    (step resolve w dec).1.disk (storageObj resolve dec.filename) = some content ∧
      ∃ m, (step resolve w dec).1.record dec.filename = some m ∧ m.isEncrypted = 0 := by
  obtain ⟨m, file, hm, -, hfile, hdisk, hrec⟩ := step_transform_ok resolve w dec (.inr ⟨hop, rfl, rfl⟩) hret
  obtain rfl := Option.some.inj (hs.disk.symm.trans hfile)
  refine ⟨?_, m.setFlag 0, ?_, rfl⟩
  · rw [hdisk, xorCipher_xorCipher]
  · rw [hrec, List.take_of_length_le hbound]
    exact congrArg (Option.map _) hm

end SealedAux

open SealedAux

/-- From a successful encryption of a file to a successful decryption with the same passphrase, through reads of the file,
attempts to encrypt it, changes of its permissions and any calls on other files, whose names denote objects of their own: every attempt to encrypt it returns 0, every
successful read with the passphrase gives the original content as far as the buffer holds it, and at the end the file holds
the original content and is not flagged. -/
theorem encrypt_decrypt_run {names : Set CString} (hdist : Distinct resolve names) (f p : CString) (hf : f ∈ names) (w : World Obj)
    (content : List UInt8) (hcontent : w.disk (storageObj resolve f) = some content)
    (enc dec : Call) (henc : enc.filename = f ∧ enc.op = .encrypt p) (hdec : dec.filename = f ∧ dec.op = .decrypt p)
    (between : List Call)
    (hbetween : ∀ c ∈ between, c.filename ∈ names ∧ (c.filename = f → c.op.Harmless))
    (hret : (step resolve w enc).2.ret = some true)
    (hret' : (step resolve (Runs.final (step resolve) (step resolve w enc).1 between) dec).2.ret = some true)
    (hbound : (Runs.final (step resolve) (step resolve w enc).1 between).filesMeta.length ≤ maxRecords) :
    (∀ e ∈ Runs.trace (step resolve) (step resolve w enc).1 between, e.1.filename = f →
      (∀ q, e.1.op = .encrypt q → e.2.ret = some false) ∧
      ∀ b, e.1.op = .read (some p) b → e.2.ret = some true → 1 ≤ b → e.2.buffer = some (content.take (b.toNat - 1))) ∧
    let w' := (step resolve (Runs.final (step resolve) (step resolve w enc).1 between) dec).1
    w'.disk (storageObj resolve f) = some content ∧ ∃ m, w'.record f = some m ∧ m.isEncrypted = 0 := by
  obtain ⟨rfl, henc⟩ := henc
  have hsealed := sealed_of_encrypt henc hcontent hret
  have hstep : ∀ (w : World Obj) (c : Call), (c.filename ∈ names ∧ (c.filename = enc.filename → c.op.Harmless)) →
      Sealed resolve enc.filename p content w → Sealed resolve enc.filename p content (step resolve w c).1 :=
    fun w c hc hs => sealed_step hdist hf hc.1 hc.2 hs
  constructor
  · refine Runs.trace_invariant (Q := fun c r => c.filename = enc.filename → (∀ q, c.op = .encrypt q → r.ret = some false) ∧
      ∀ b, c.op = .read (some p) b → r.ret = some true → 1 ≤ b → r.buffer = some (content.take (b.toNat - 1))) hstep ?_
      hsealed hbetween
    intro w c _ hs hname
    rw [← hname] at hs
    refine ⟨fun q hop => encrypt_refused hs hop, ?_⟩
    intro b hop hret hb
    rw [read_content hs hop hret, UInt64.toNat_sub_of_le _ _ hb]
    rfl
  · have hlast := Runs.final_invariant hstep hsealed hbetween
    obtain ⟨hname, hdec⟩ := hdec
    rw [← hname] at hlast ⊢
    exact decrypt_content hlast hdec hret' hbound

namespace SealedAux

/-- Alice's file in the clear. -/
def notesWorld : World (List UInt8) :=
  (step id World.empty (.of "alice" "staff" "notes.txt" (.create (some (cstring "rw-r-----")) (cstring "hello")))).1

/-- What happens between the encryption and the decryption of alice's file. -/
def notesCalls : List Call :=
  [.of "bob" "staff" "notes.txt" (.read (some (cstring "a")) 4), .of "alice" "staff" "notes.txt" (.encrypt (cstring "a")),
    .of "bob" "staff" "todo.txt" (.create (some (cstring "rw-------")) (cstring "buy milk")),
    .of "bob" "staff" "notes.txt" (.chmod (some (cstring "rw-------"))), .of "bob" "staff" "todo.txt" .delete]

theorem notesCalls_harmless :
    ∀ c ∈ notesCalls, c.filename.length < maxFilename ∧ (c.filename = cstring "notes.txt" → c.op.Harmless) := by
  intro c hc
  simp only [notesCalls, List.mem_cons, List.not_mem_nil, or_false] at hc
  rcases hc with rfl | rfl | rfl | rfl | rfl
  · exact ⟨by decide, fun _ => .read _ _⟩
  · exact ⟨by decide, fun _ => .encrypt _⟩
  · exact ⟨by decide, fun h => absurd h (by decide)⟩
  · exact ⟨by decide, fun _ => .chmod _⟩
  · exact ⟨by decide, fun h => absurd h (by decide)⟩

end SealedAux

/-- Alice encrypts her file and decrypts it in the end. -/
theorem encrypt_decrypt_run_notes :
    let enc := Call.of "alice" "staff" "notes.txt" (.encrypt (cstring "a"))
    let dec := Call.of "alice" "staff" "notes.txt" (.decrypt (cstring "a"))
    let w := (step id (Runs.final (step id) (step id notesWorld enc).1 notesCalls) dec).1
    w.disk (storageObj id (cstring "notes.txt")) = some (bytes "hello") ∧
      ∃ m, w.record (cstring "notes.txt") = some m ∧ m.isEncrypted = 0 :=
  (encrypt_decrypt_run id distinct_id (cstring "notes.txt") (cstring "a")
    (show (cstring "notes.txt").length < maxFilename by decide) notesWorld (bytes "hello") (by decide) _ _
    ⟨rfl, rfl⟩ ⟨rfl, rfl⟩ notesCalls notesCalls_harmless (by decide +kernel) (by decide +kernel) (by decide +kernel)).2

end OsSecurity.Fms
