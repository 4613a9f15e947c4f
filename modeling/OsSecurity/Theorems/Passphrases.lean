import OsSecurity.Lemmas.Session
import OsSecurity.Lemmas.Cipher

/-!
# The passphrase at the menu

A blank line stands for no passphrase where a file is read or written, and for the empty passphrase where it is encrypted or decrypted.
So a file that was encrypted with a blank line is shown as it is stored. And where the file is the log, the line that its encryption logs
stands behind the ciphertext.
-/

namespace OsSecurity.Fms

open CLib

/-- What is asked before a file is encrypted. -/
def encryptPrompts : List UInt8 := menu ++ bytes "Filename: " ++ bytes "Passphrase: "

/-- What is asked before a file is read. -/
def readPrompts : List UInt8 := menu ++ bytes "Filename: " ++ bytes "Passphrase (leave blank if not encrypted): "

/-- The line that an encryption logs is not read with the file: it goes elsewhere, or nowhere, or behind what the buffer holds. -/
def Undisturbed {Obj : Type*} (paths : Paths Obj) (io : Io) (f content : CString) : Prop :=
  paths.storage f ≠ paths.auditLog ∨ io.ok .auditAppend = false ∨ content.length = 4095

namespace PassphrasesAux

variable {Obj : Type*} [DecidableEq Obj] {paths : Paths Obj}

/-! ## What was printed -/

omit [DecidableEq Obj] in
/-- The text of a success is printed where 1 was returned. -/
theorem afterCall_done {user : User} {stdin : List UInt8} {out : Disk Obj × Reply} {prompts done failed : List UInt8}
    (hdone : done ≠ []) (hne : failed ≠ done) (h : (afterCall user stdin out prompts (fun _ => done) failed).2 = prompts ++ done) :
    out.2.ret = some true ∧ (afterCall user stdin out prompts (fun _ => done) failed).1.disk = out.1 := by
  unfold afterCall at h ⊢
  cases hret : out.2.ret with
  | none =>
    simp only [hret] at h
    exact absurd (List.self_eq_append_right.mp h) hdone
  | some ret =>
    cases ret with
    | true => exact ⟨rfl, rfl⟩
    | false =>
      simp only [hret] at h
      exact absurd (List.append_cancel_left h) hne

theorem contentText_inj {a b : CString} : contentText a = contentText b ↔ a = b := by
  refine ⟨fun h => CString.ext ?_, congrArg contentText⟩
  exact List.append_cancel_left (List.append_cancel_right h)

/-- The content is shown where the read filled the buffer with it. -/
theorem shows_iff (io : Io) (user : User) (stdin : List UInt8) (d : Disk Obj) (t : List UInt8) (f content : CString)
    (pass : Option CString) :
    (afterCall user stdin (d.exec paths io (user.call t f (.read pass readBufSize))) readPrompts
        (fun reply => contentText (CString.ofMem (reply.buffer.getD []))) (bytes "Failed: file not found or permission denied.\n")).2 =
          readPrompts ++ contentText content ↔
      ∃ buffer, (d.fsReadFile paths io user.username.str user.group.str f pass readBufSize).2 = some buffer ∧
        CString.ofMem buffer = content := by
  unfold afterCall User.call Disk.exec
  dsimp only
  cases hbuffer : (d.fsReadFile paths io user.username.str user.group.str f pass readBufSize).2 with
  | none =>
    refine iff_of_false (fun h => ?_) (by simp)
    -- the one text begins with `F`, the other with `-`
    have hfirst : (some 70 : Option UInt8) = some 45 := congrArg List.head? (List.append_cancel_left h)
    exact absurd hfirst (by decide)
  | some buffer =>
    simp only [Option.isSome_some, Option.getD_some, List.append_cancel_left_eq, contentText_inj, Option.some.injEq, exists_eq_left']

/-! ## What is read -/

theorem passArg_of_ne {s : CString} (h : s.bytes ≠ []) : passArg s = some s := by
  rw [passArg, if_pos]
  cases hs : s.bytes with
  | nil => exact absurd hs h
  | cons x l =>
    have hx : x ∈ s.bytes := by rw [hs]; exact List.mem_cons_self
    intro h0
    exact s.noNul (h0 ▸ hx)

theorem passArg_of_nil {s : CString} (h : s.bytes = []) : passArg s = none := by
  rw [passArg, h]
  rfl

/-- What a read gives of a file whose record and bytes are there: nothing when one of its two `fopen`s fails. -/
theorem read_eq {io : Io} {d : Disk Obj} {username group f : CString} {m : FileMeta} {file : List UInt8} (pass : Option CString)
    (hm : d.record paths f = some m) (hread : checkPermission username group m .read = true)
    (hfile : d (paths.storage f) = some file) :
    (d.fsReadFile paths io username group f pass readBufSize).2 =
      if io.ok .findRead = true ∧ io.ok .storageOpen = true then some (cipherIfEncrypted m pass (file.take 4095)) else none := by
  unfold Disk.fsReadFile Disk.findFileMeta Disk.openRead
  unfold Disk.record at hm
  cases hfind : io.ok .findRead with
  | false => simp
  | true =>
    cases hopen : io.ok .storageOpen with
    | false => simp [hm, hread]
    | true =>
      simp only [if_true, hm, hread, hfile, Bool.not_true, Bool.false_eq_true, if_false, and_self]
      rfl

/-- No record, no content. -/
theorem read_eq_none {io : Io} {d : Disk Obj} {username group f : CString} {pass : Option CString} (hm : d.record paths f = none) :
    (d.fsReadFile paths io username group f pass readBufSize).2 = none := by
  unfold Disk.fsReadFile Disk.findFileMeta
  unfold Disk.record at hm
  cases hfind : io.ok .findRead with
  | false => simp
  | true => simp [hm]

/-- A string is in front of what was read if what is behind it begins with a NUL, or is nothing. -/
theorem ofMem_append_iff {front : List UInt8} {content : CString} (hlen : front.length = content.length) (rest : List UInt8) :
    CString.ofMem (front ++ rest) = content ↔ front = content.bytes ∧ rest.headD 0 = 0 := by
  have hcstr : cstr (content.bytes ++ rest) = content.bytes ++ cstr rest := by
    refine List.takeWhile_append_of_pos ?_
    intro x hx
    have hne : x ≠ 0 := fun h => content.noNul (h ▸ hx)
    simpa using hne
  rw [CString.ext_iff]
  constructor
  · intro h
    have hstr : cstr (front ++ rest) = content.bytes := h
    have hprefix : content.bytes <+: front ++ rest := hstr ▸ List.takeWhile_prefix _
    obtain rfl : content.bytes = front :=
      (List.prefix_of_prefix_length_le hprefix (List.prefix_append front rest) (Nat.le_of_eq hlen.symm)).eq_of_length hlen.symm
    rw [hcstr, List.append_right_eq_self] at hstr
    exact ⟨rfl, (cstr_eq_nil_iff rest).mp hstr⟩
  · rintro ⟨rfl, hrest⟩
    show cstr (content.bytes ++ rest) = content.bytes
    rw [hcstr, (cstr_eq_nil_iff rest).mpr hrest, List.append_nil]

/-! ## A text is no database -/

omit [DecidableEq Obj] in
/-- Bytes without a NUL hold no record of a name that was typed: the name in a record fills its field. -/
theorem record_text {d : Disk Obj} {f text : CString} (hf : f.length < maxFilename) (hfile : d paths.filesDb = some text.bytes) :
    d.record paths f = none := by
  rw [Disk.record, List.find?_eq_none]
  intro m hm hmatch
  rw [Disk.filesMeta, Disk.metaRecords, hfile] at hm
  obtain ⟨r, hr, rfl⟩ := List.mem_map.mp hm
  obtain ⟨mem, rfl, hlength, hsub⟩ := metaLayout.mem_records text.bytes hr
  have hfield : maxFilename ≤ mem.length := by
    rw [hlength]
    decide
  have hbytes : (takeField maxFilename mem).1.bytes = mem.take maxFilename := takeField_of_le hfield
  have hname : (metaLayout.decode mem).toFileMeta.name.bytes = mem.take maxFilename := by
    show cstr (takeField maxFilename mem).1.bytes = mem.take maxFilename
    rw [hbytes]
    exact cstr_of_noNul (fun h => text.noNul (hsub (List.mem_of_mem_take h)))
  have heq := (nameMatches_iff (Nat.le_of_lt hf) _).mp hmatch
  rw [CString.ext_iff, hname] at heq
  have hlen := congrArg List.length heq
  rw [List.length_take_of_le hfield] at hlen
  exact absurd hlen (Nat.ne_of_gt hf)

/-! ## What an encryption leaves -/

/-- What stands behind the ciphertext: nothing, or the line of the encryption, which begins with a bracket. -/
inductive Tail (paths : Paths Obj) (io : Io) (f : CString) : List UInt8 → Prop
  | none (h : paths.storage f ≠ paths.auditLog ∨ io.ok .auditAppend = false) : Tail paths io f []
  | line (hlog : paths.storage f = paths.auditLog) (hio : io.ok .auditAppend = true) (rest : List UInt8) : Tail paths io f (91 :: rest)

/-- The log as it is read behind what else the file holds. -/
theorem logAction_tail {io : Io} {d : Disk Obj} {f : CString} {file : List UInt8} (hfile : d (paths.storage f) = some file)
    (username : CString) (action : Action) (target : CString) (result : Outcome) :
    ∃ tail, d.logAction paths io username action target result (paths.storage f) = some (file ++ tail) ∧ Tail paths io f tail := by
  by_cases hlog : paths.storage f = paths.auditLog
  · cases hio : io.ok .auditAppend with
    | true =>
      rw [hlog] at hfile ⊢
      rw [Disk.logAction_log hio, hfile, Option.getD_some]
      exact ⟨_, rfl, .line hlog hio _⟩
    | false =>
      rw [Disk.logAction_failed hio, hfile]
      exact ⟨[], by rw [List.append_nil], .none (.inr hio)⟩
  · rw [Disk.logAction_ne hlog, hfile]
    exact ⟨[], by rw [List.append_nil], .none (.inl hlog)⟩

/-- An encryption that is reported as a success found the file in the clear, stored its cipher, had the flag set, and logged. -/
theorem encrypt_reported {env : Env} {user : User} {stdin : List UInt8} {d : Disk Obj} {f s content : CString} {m : FileMeta}
    (hencrypt : answers [choiceSize, maxFilename, maxPassword] stdin = [cstring "7", f, s]) (hm : d.record paths f = some m)
    (hfile : d (paths.storage f) = some content.bytes)
    (hok : (sessionTurn paths env user stdin d).2 = encryptPrompts ++ bytes "File encrypted.\n") :
    m.isEncrypted = 0 ∧
      (sessionTurn paths env user stdin d).1.disk.filesMeta paths = (setEncryptedFlag env.io (d.filesMeta paths) f 1).1 ∧
      ∃ tail, (sessionTurn paths env user stdin d).1.disk (paths.storage f) = some (xorCipher s content.bytes ++ tail) ∧
        Tail paths env.io f tail := by
  have hdb : paths.storage f ≠ paths.filesDb := by
    intro heq
    rw [heq] at hfile
    have hf : f.length < maxFilename := (answers_three hencrypt).2.1 ▸ readLine_length_lt (by decide) _
    rw [record_text hf hfile] at hm
    cases hm
  rw [sessionTurn_encrypt paths env user d hencrypt] at hok ⊢
  obtain ⟨hret, hdisk⟩ := afterCall_done (by decide) (by decide) hok
  rw [hdisk]
  have haccepted : d.TransformAccepted paths env.io user.username.str user.group.str f 0 := by
    by_contra hrefused
    obtain ⟨result, hout⟩ := Disk.transformFile_refused s 1 .encrypt hrefused
    have hfalse : (d.exec paths env.io (user.call env.io.timestr f (.encrypt s))).2.ret = some false := congrArg (·.2) hout
    exact absurd (hret.symm.trans hfalse) (by decide)
  obtain ⟨m', file, hm', hplain, hfile', hout⟩ := Disk.transformFile_accepted s 1 .encrypt haccepted
  obtain rfl := Option.some.inj (hm'.symm.trans hm)
  obtain rfl := Option.some.inj (hfile'.symm.trans hfile)
  split_ifs at hout with hrewrite
  · have hafter : (d.exec paths env.io (user.call env.io.timestr f (.encrypt s))).1 = _ := congrArg (·.1) hout
    rw [hafter]
    refine ⟨hplain, ?_, ?_⟩
    · rw [Disk.filesMeta_logAction, Disk.setEncryptedFlag_stored hdb (by decide) (by decide)]
    · exact logAction_tail (Disk.setEncryptedFlag_file hdb _) _ _ _ _
  · have hdied : (d.exec paths env.io (user.call env.io.timestr f (.encrypt s))).2.ret = none := congrArg (·.2) hout
    exact absurd (hret.symm.trans hdied) (by decide)

/-! ## What is read then -/

omit [DecidableEq Obj] in
/-- The bytes as they are stored show the content where the key bytes are zero and no line is read behind it. -/
theorem raw_iff {io : Io} {f s content : CString} {tail : List UInt8} (htail : Tail paths io f tail) (hlen : content.length ≤ 4095) :
    CString.ofMem ((xorCipher s content.bytes ++ tail).take 4095) = content ↔
      (∀ j < content.length, cipherKey s j = 0) ∧ Undisturbed paths io f content := by
  have hfront : (xorCipher s content.bytes).length = content.length := xorCipher_length s content.bytes
  rw [List.take_append, hfront, List.take_of_length_le (hfront.trans_le hlen), ofMem_append_iff hfront, xorCipher_eq_self_iff]
  refine and_congr Iff.rfl ?_
  cases htail with
  | none h => exact iff_of_true (by simp) (h.elim .inl (fun h => .inr (.inl h)))
  | line hlog hio rest =>
    rcases Nat.lt_or_eq_of_le hlen with hlt | heq
    · obtain ⟨n, hn⟩ : ∃ n, 4095 - content.length = n + 1 := ⟨4095 - content.length - 1, by omega⟩
      rw [hn]
      refine iff_of_false (by simp) ?_
      rintro (h | h | h)
      · exact h hlog
      · rw [hio] at h
        cases h
      · omega
    · rw [heq, Nat.sub_self]
      exact iff_of_true rfl (.inr (.inr heq))

omit [DecidableEq Obj] in
/-- The bytes deciphered show the content where no line is read behind it, or its first byte is deciphered to a NUL. -/
theorem deciphered_iff {io : Io} {f s content : CString} {tail : List UInt8} (htail : Tail paths io f tail)
    (hlen : content.length ≤ 4095) :
    CString.ofMem (xorCipher s ((xorCipher s content.bytes ++ tail).take 4095)) = content ↔
      Undisturbed paths io f content ∨ cipherKey s content.length = 91 := by
  have hfront : content.bytes.length = content.length := rfl
  rw [xorCipher_take, xorCipher_append, List.take_append, hfront, List.take_of_length_le hlen, ofMem_append_iff hfront]
  refine (and_iff_right rfl).trans ?_
  cases htail with
  | none h => exact iff_of_true (by simp) (.inl (h.elim .inl (fun h => .inr (.inl h))))
  | line hlog hio rest =>
    rcases Nat.lt_or_eq_of_le hlen with hlt | heq
    · obtain ⟨n, hn⟩ : ∃ n, 4095 - content.length = n + 1 := ⟨4095 - content.length - 1, by omega⟩
      have hdisturbed : ¬Undisturbed paths io f content := by
        rintro (h | h | h)
        · exact h hlog
        · rw [hio] at h
          cases h
        · omega
      rw [hn, Keystream.cipher_cons, List.take_succ_cons, List.headD_cons, UInt8.xor_eq_zero_iff]
      exact ⟨fun h => .inr h.symm, fun h => (h.resolve_left hdisturbed).symm⟩
    · rw [heq, Nat.sub_self]
      exact iff_of_true rfl (.inl (.inr (.inr heq)))

/-- What is read of the file after its encryption, with what the line stands for. -/
theorem read_encrypted_iff {io io' : Io} {d d' : Disk Obj} {username group f s content : CString} {m : FileMeta} {tail : List UInt8}
    (hm : d.record paths f = some m) (hplain : m.isEncrypted = 0) (hperm : checkPermission username group m .read = true)
    (htail : Tail paths io f tail) (hfile : d' (paths.storage f) = some (xorCipher s content.bytes ++ tail))
    (hlen : content.length ≤ 4095) (hmeta : d'.filesMeta paths = (setEncryptedFlag io (d.filesMeta paths) f 1).1) :
    (∃ buffer, (d'.fsReadFile paths io' username group f (passArg s) readBufSize).2 = some buffer ∧ CString.ofMem buffer = content) ↔
      (io'.ok .findRead = true ∧ io'.ok .storageOpen = true) ∧
        (io.rewrites = true → (((d.filesMeta paths).take maxRecords).find? (nameMatches f)).isSome) ∧
        (io.rewrites = true ∧ s.bytes ≠ [] ∧ (Undisturbed paths io f content ∨ cipherKey s content.length = 91) ∨
          (∀ j < content.length, cipherKey s j = 0) ∧ Undisturbed paths io f content) := by
  cases hio : io.rewrites with
  | false =>
    have hrecord : d'.record paths f = some m := by
      rw [Disk.record, hmeta, setEncryptedFlag, rewriteMetaMatching_failed _ _ hio]
      exact hm
    rw [read_eq (passArg s) hrecord hperm hfile, cipherIfEncrypted_plain hplain]
    split_ifs with hopens
    · simp [hopens, raw_iff htail hlen]
    · simp [hopens]
  | true =>
    have hrecord : d'.record paths f = (((d.filesMeta paths).take maxRecords).find? (nameMatches f)).map (·.setFlag 1) := by
      rw [Disk.record, hmeta, setEncryptedFlag_eq _ _ hio]
      exact find_mapMatching_self f (fun m => setFlag_filename m 1) _
    cases hstaged : ((d.filesMeta paths).take maxRecords).find? (nameMatches f) with
    | none =>
      rw [hstaged] at hrecord
      simp [read_eq_none hrecord]
    | some m' =>
      obtain rfl := Option.some.inj ((find_of_take hstaged).symm.trans hm)
      rw [hstaged] at hrecord
      rw [read_eq (passArg s) hrecord ((checkPermission_setFlag _ _ _ _ _).trans hperm) hfile]
      split_ifs with hopens
      · by_cases hs : s.bytes = []
        · rw [passArg_of_nil hs]
          simp [hopens, hs, cipherIfEncrypted, raw_iff htail hlen]
        · have hflag : (m'.setFlag 1).isEncrypted ≠ 0 := by simp [FileMeta.setFlag]
          rw [passArg_of_ne hs, cipherIfEncrypted_sealed hflag]
          simp only [Option.some.injEq, exists_eq_left', deciphered_iff htail hlen, hopens, hs, ne_eq, not_false_eq_true, true_and,
            Option.isSome_some, implies_true, and_self]
          exact ⟨.inl, fun h => h.elim id (fun h => .inl h.2)⟩
      · simp [hopens]

end PassphrasesAux

open PassphrasesAux

/-- For every file of at most 4095 bytes that the user may read, and all answers: where the choice to encrypt it is reported as a success,
the choice to read it with the same passphrase line shows its content if and only if the read's `fopen`s succeed, the record was staged
if the records were rewritten, and either they were, the line is not blank and the line of the log does not show behind the content, or
the key bytes of the line are zero along the content and the line of the log is not read. -/
theorem passphrase_iff {Obj : Type*} [DecidableEq Obj] (paths : Paths Obj) (env env' : Env) (user : User)
    (stdin stdin' : List UInt8) (d : Disk Obj) (f s content : CString) (m : FileMeta)
    (hencrypt : answers [choiceSize, maxFilename, maxPassword] stdin = [cstring "7", f, s])
    (hread : answers [choiceSize, maxFilename, maxPassword] stdin' = [cstring "2", f, s]) (hm : d.record paths f = some m)
    (hperm : checkPermission user.username.str user.group.str m .read = true)
    (hfile : d (paths.storage f) = some content.bytes) (hlen : content.length ≤ 4095)
    (hok : (turn paths env { screen := .session user, stdin := stdin, disk := d }).2 = encryptPrompts ++ bytes "File encrypted.\n") :
    let d' := (turn paths env { screen := .session user, stdin := stdin, disk := d }).1.disk
    (turn paths env' { screen := .session user, stdin := stdin', disk := d' }).2 = readPrompts ++ contentText content ↔
      (env'.io.ok .findRead = true ∧ env'.io.ok .storageOpen = true) ∧
        (env.io.rewrites = true → (((d.filesMeta paths).take maxRecords).find? (nameMatches f)).isSome) ∧
        (env.io.rewrites = true ∧ s.bytes ≠ [] ∧ (Undisturbed paths env.io f content ∨ cipherKey s content.length = 91) ∨
          (∀ j < content.length, cipherKey s j = 0) ∧ Undisturbed paths env.io f content) := by
  obtain ⟨hplain, hmeta, tail, hdisk, htail⟩ := encrypt_reported hencrypt hm hfile hok
  intro d'
  change (sessionTurn paths env' user stdin' d').2 = _ ↔ _
  rw [sessionTurn_read paths env' user d' hread]
  refine (shows_iff env'.io user _ d' _ f content (passArg s)).trans ?_
  exact read_encrypted_iff hm hplain hperm htail hdisk hlen hmeta

/-- Alice, as she is registered. -/
def aliceUser : User := newUser (cstring "alice") (cstring "staff") (CharArray.zero saltLen) (CharArray.zero hashLen)

/-- Her file, and its record. -/
def aliceDisk : Disk (List (List UInt8)) :=
  (Disk.empty.store ((processPaths [bytes "srv"]).storage (cstring "notes")) (some (bytes "text"))).store
    (processPaths [bytes "srv"]).filesDb
    (some (metaLayout.file [Disk.newMetaRecord (cstring "notes") (cstring "alice") (cstring "staff") (cstring "rw-------")]))

/-- A turn in which all calls succeed. -/
def calm : Env := { io := Io.allOk [], salt := CharArray.zero saltLen }

/-- She encrypts it with a blank line and reads it with a blank line. -/
theorem blank_not_shown :
    let paths := processPaths [bytes "srv"]
    let encrypted := turn paths calm { screen := .session aliceUser, stdin := bytes "7\nnotes\n\n", disk := aliceDisk }
    encrypted.2 = encryptPrompts ++ bytes "File encrypted.\n" ∧
      (turn paths calm { screen := .session aliceUser, stdin := bytes "2\nnotes\n\n", disk := encrypted.1.disk }).2 ≠
        readPrompts ++ contentText (cstring "text") := by
  decide +kernel

/-- With the line `key` she reads her text. -/
theorem passphrase_iff_key :
    let paths := processPaths [bytes "srv"]
    let encrypted := turn paths calm { screen := .session aliceUser, stdin := bytes "7\nnotes\nkey\n", disk := aliceDisk }
    (turn paths calm { screen := .session aliceUser, stdin := bytes "2\nnotes\nkey\n", disk := encrypted.1.disk }).2 =
      readPrompts ++ contentText (cstring "text") :=
  (passphrase_iff (processPaths [bytes "srv"]) calm calm aliceUser (bytes "7\nnotes\nkey\n") (bytes "2\nnotes\nkey\n") aliceDisk
    (cstring "notes") (cstring "key") (cstring "text")
    (newFileMeta (cstring "notes") (cstring "alice") (cstring "staff") (cstring "rw-------"))
    (by decide +kernel) (by decide +kernel) (by decide +kernel) (by decide +kernel) (by decide +kernel) (by decide +kernel)
    (by decide +kernel)).mpr ⟨⟨rfl, rfl⟩, fun _ => by decide +kernel, .inl ⟨rfl, by decide, .inl (.inl (by decide +kernel))⟩⟩

end OsSecurity.Fms
