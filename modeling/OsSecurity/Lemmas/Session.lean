import OsSecurity.Fms.Session
import OsSecurity.Lemmas.Disk
import OsSecurity.Lib.Runs
import Mathlib.Tactic.SplitIfs

/-!
# Helpers about the menus

What `read_line` makes of the first line of its stream, and what a turn takes off `stdin`: the lines that its calls of `read_line` read,
at least one while there is something to read, and nothing at the end.
-/

namespace OsSecurity.Fms

open CLib

/-! ## `read_line` -/

/-- At the end of the input a line is empty. -/
theorem readLine_nil (size : Nat) : readLine size [] = (CString.ofMem [], []) := rfl

/-- Before it `fgets` takes what fits of the line. -/
theorem readLine_of_ne (size : Nat) {stdin : List UInt8} (h : stdin ≠ []) :
    readLine size stdin =
      (CString.ofMem (chomp (readUntilNewline (size - 1) stdin).1), (readUntilNewline (size - 1) stdin).2) := by
  rw [readLine, fgets, if_neg h]
  rfl

/-- The string is the first line, cut to the buffer. -/
theorem readLine_line (size : Nat) (stdin : List UInt8) :
    (readLine size stdin).1.bytes = cstr ((lineOf stdin).take (size - 1)) := by
  by_cases hnil : stdin = []
  · subst hnil
    rw [readLine_nil, lineOf_nil, List.take_nil]
    rfl
  · rw [readLine_of_ne size hnil]
    exact cstr_chomp_read (size - 1) stdin

/-- What is read into a buffer leaves room for the NUL. -/
theorem readLine_length_lt {size : Nat} (hsize : 0 < size) (stdin : List UInt8) : (readLine size stdin).1.length < size := by
  have hle : (readLine size stdin).1.length ≤ ((lineOf stdin).take (size - 1)).length := by
    rw [CString.length, readLine_line]
    exact cstr_length_le _
  rw [List.length_take] at hle
  omega

/-- What is left of `stdin`: the lines behind the first, or what of the first did not fit and the lines behind it. -/
theorem readLine_rest {size : Nat} (hsize : 2 ≤ size) (stdin : List UInt8) :
    (readLine size stdin).2 = if (lineOf stdin).length < size - 1 then dropLine stdin else stdin.drop (size - 1) := by
  by_cases hnil : stdin = []
  · subst hnil
    rw [readLine_nil, lineOf_nil, List.length_nil, if_pos (Nat.sub_pos_of_lt hsize)]
    rfl
  · rw [readLine_of_ne size hnil]
    split_ifs with hlt
    · rw [readUntilNewline_of_lt hlt]
    · rw [readUntilNewline_of_le (Nat.not_lt.mp hlt)]

/-- A line fits a buffer: with its newline and a NUL, or without a newline at the end of the stream. -/
def Fits (size : Nat) (stdin : List UInt8) : Prop := (lineOf stdin).length + 2 ≤ size ∨ 10 ∉ stdin ∧ stdin.length + 1 ≤ size

/-- The next call begins with the next line if and only if this one fits. -/
theorem readLine_rest_iff {size : Nat} (hsize : 2 ≤ size) (stdin : List UInt8) :
    (readLine size stdin).2 = dropLine stdin ↔ Fits size stdin := by
  rw [readLine_rest hsize, Fits]
  split_ifs with hlt
  · exact iff_of_true rfl (.inl (by omega))
  · rw [drop_eq_dropLine_iff (Nat.not_lt.mp hlt)]
    constructor
    · rintro ⟨hten, hlen⟩
      exact .inr ⟨hten, by omega⟩
    · rintro (hfits | ⟨hten, hlen⟩)
      · omega
      · exact ⟨hten, by omega⟩

/-- A prompt takes at least one byte where there is one. -/
theorem readLine_rest_length_lt {size : Nat} (hsize : 2 ≤ size) {stdin : List UInt8} (h : stdin ≠ []) :
    (readLine size stdin).2.length < stdin.length := by
  rw [readLine_rest hsize]
  split_ifs with hlt
  · exact dropLine_length_lt h
  · have hpos := List.length_pos_iff.mpr h
    rw [List.length_drop]
    omega

/-- A password that was read fits behind the salt. -/
theorem hashPassword_readLine (stdin : List UInt8) (salt : CharArray saltLen) :
    (hashPassword (readLine maxPassword stdin).1 salt).isSome := by
  have hlen : (readLine maxPassword stdin).1.length ≤ maxPassword := by
    rw [CString.length, readLine_line]
    refine (cstr_length_le _).trans ?_
    rw [List.length_take]
    omega
  rw [hashPassword, if_pos hlen]
  rfl

/-- A call of `read_line` as a step on `stdin`. -/
def readStep (stdin : List UInt8) (size : Nat) : List UInt8 × CString := ((readLine size stdin).2, (readLine size stdin).1)

/-- What is left of `stdin` is what calls of `read_line` leave, at least one and each with room for a byte. -/
def Reads (stdin rest : List UInt8) : Prop :=
  ∃ size sizes, 2 ≤ size ∧ (∀ n ∈ sizes, 2 ≤ n) ∧ rest = Runs.final readStep stdin (size :: sizes)

/-- A prompt leaves no more than there was. -/
theorem readStep_length_le {size : Nat} (hsize : 2 ≤ size) (stdin : List UInt8) : (readStep stdin size).1.length ≤ stdin.length := by
  by_cases hnil : stdin = []
  · subst hnil
    exact Nat.le_refl 0
  · exact Nat.le_of_lt (readLine_rest_length_lt hsize hnil)

/-- So do several prompts. -/
theorem Reads.length_lt {stdin rest : List UInt8} (h : Reads stdin rest) (hne : stdin ≠ []) : rest.length < stdin.length := by
  obtain ⟨size, sizes, hsize, hsizes, rfl⟩ := h
  have hfirst : (readStep stdin size).1.length < stdin.length := readLine_rest_length_lt hsize hne
  have hrest : (Runs.final readStep (readStep stdin size).1 sizes).length ≤ (readStep stdin size).1.length :=
    Runs.final_invariant (I := fun s => s.length ≤ (readStep stdin size).1.length) (P := fun n => 2 ≤ n)
      (fun s n hn hs => Nat.le_trans (readStep_length_le hn s) hs) (Nat.le_refl _) hsizes
  exact Nat.lt_of_le_of_lt hrest hfirst

/-! ## Turns -/

/-- One of the two loops goes on. -/
def Console.Alive {Obj : Type*} (c : Console Obj) : Prop := c.screen ≠ .returned ∧ c.screen ≠ .died

section

variable {Obj : Type*} [DecidableEq Obj] (paths : Paths Obj)

omit [DecidableEq Obj] in
/-- A call of the modules reads no input. -/
theorem afterCall_stdin (user : User) (stdin : List UInt8) (out : Disk Obj × Reply) (prompts : List UInt8)
    (done : Reply → List UInt8) (failed : List UInt8) : (afterCall user stdin out prompts done failed).1.stdin = stdin := by
  unfold afterCall
  split <;> rfl

/-- The menu before a login reads at its prompts. -/
theorem loginTurn_reads (env : Env) (stdin : List UInt8) (d : Disk Obj) : Reads stdin (loginTurn paths env stdin d).1.stdin := by
  unfold loginTurn ask
  dsimp only
  split_ifs
  · refine ⟨choiceSize, [maxUsername, maxPassword], by decide, by decide, ?_⟩
    split <;> rfl
  · refine ⟨choiceSize, [maxUsername, maxPassword, maxGroup], by decide, by decide, ?_⟩
    split <;> rfl
  · exact ⟨choiceSize, [], by decide, by decide, rfl⟩
  · exact ⟨choiceSize, [], by decide, by decide, rfl⟩

/-- The menu of a session reads at its prompts. -/
theorem sessionTurn_reads (env : Env) (user : User) (stdin : List UInt8) (d : Disk Obj) :
    Reads stdin (sessionTurn paths env user stdin d).1.stdin := by
  unfold sessionTurn ask
  dsimp only
  split_ifs
  · exact ⟨choiceSize, [maxFilename, permStrSize, maxLine], by decide, by decide, afterCall_stdin _ _ _ _ _ _⟩
  · exact ⟨choiceSize, [maxFilename, maxPassword], by decide, by decide, afterCall_stdin _ _ _ _ _ _⟩
  · exact ⟨choiceSize, [maxFilename, maxPassword, maxLine], by decide, by decide, afterCall_stdin _ _ _ _ _ _⟩
  · exact ⟨choiceSize, [maxFilename], by decide, by decide, afterCall_stdin _ _ _ _ _ _⟩
  · exact ⟨choiceSize, [maxFilename, permStrSize], by decide, by decide, afterCall_stdin _ _ _ _ _ _⟩
  · exact ⟨choiceSize, [maxFilename, maxPassword], by decide, by decide, afterCall_stdin _ _ _ _ _ _⟩
  · exact ⟨choiceSize, [maxFilename, maxPassword], by decide, by decide, afterCall_stdin _ _ _ _ _ _⟩
  · exact ⟨choiceSize, [], by decide, by decide, rfl⟩
  · exact ⟨choiceSize, [], by decide, by decide, rfl⟩

/-- A turn of either loop takes off `stdin` what its calls of `read_line` read. -/
theorem turn_reads (env : Env) {c : Console Obj} (h : c.Alive) : Reads c.stdin (turn paths env c).1.stdin := by
  unfold turn
  cases hscreen : c.screen with
  | login => exact loginTurn_reads paths env c.stdin c.disk
  | session user => exact sessionTurn_reads paths env user c.stdin c.disk
  | returned => exact absurd hscreen h.1
  | died => exact absurd hscreen h.2

/-- What calls of `read_line` return. -/
def answers (sizes : List Nat) (stdin : List UInt8) : List CString := (Runs.trace readStep stdin sizes).map (·.2)

/-- The answers to three prompts. -/
theorem answers_three {size size' size'' : Nat} {stdin : List UInt8} {a b c : CString}
    (h : answers [size, size', size''] stdin = [a, b, c]) :
    (readLine size stdin).1 = a ∧ (readLine size' (readLine size stdin).2).1 = b ∧
      (readLine size'' (readLine size' (readLine size stdin).2).2).1 = c := by
  obtain ⟨ha, htail⟩ := List.cons.inj h
  obtain ⟨hb, htail⟩ := List.cons.inj htail
  exact ⟨ha, hb, (List.cons.inj htail).1⟩

/-- The choices of the menu that ask for a filename. -/
def fileChoices : List CString := ["1", "2", "3", "4", "5", "6", "7", "8"].map cstring

/-- The filename that a turn gives to its call, where it makes one on a file. -/
def Console.typedFilename {Obj : Type*} (c : Console Obj) : Option CString :=
  match c.screen with
  | .session _ =>
    if (readLine choiceSize c.stdin).1 ∈ fileChoices then some (readLine maxFilename (readLine choiceSize c.stdin).2).1 else none
  | .login | .returned | .died => none

/-- The choice `2`, with a filename and a passphrase. -/
theorem sessionTurn_read (env : Env) (user : User) {stdin : List UInt8} (d : Disk Obj) {f s : CString}
    (h : answers [choiceSize, maxFilename, maxPassword] stdin = [cstring "2", f, s]) :
    sessionTurn paths env user stdin d =
      afterCall user (Runs.final readStep stdin [choiceSize, maxFilename, maxPassword])
        (d.exec paths env.io (user.call env.io.timestr f (.read (passArg s) readBufSize)))
        (menu ++ bytes "Filename: " ++ bytes "Passphrase (leave blank if not encrypted): ")
        (fun reply => contentText (CString.ofMem (reply.buffer.getD []))) (bytes "Failed: file not found or permission denied.\n") := by
  obtain ⟨hchoice, hf, hs⟩ := answers_three h
  unfold sessionTurn ask
  dsimp only
  rw [hchoice, hf, hs, if_neg (by decide), if_pos (by decide)]
  rfl

/-- The choice `7`, with a filename and a passphrase. -/
theorem sessionTurn_encrypt (env : Env) (user : User) {stdin : List UInt8} (d : Disk Obj) {f s : CString}
    (h : answers [choiceSize, maxFilename, maxPassword] stdin = [cstring "7", f, s]) :
    sessionTurn paths env user stdin d =
      afterCall user (Runs.final readStep stdin [choiceSize, maxFilename, maxPassword])
        (d.exec paths env.io (user.call env.io.timestr f (.encrypt s))) (menu ++ bytes "Filename: " ++ bytes "Passphrase: ")
        (fun _ => bytes "File encrypted.\n") (bytes "Failed: file not found, permission denied, or already encrypted.\n") := by
  obtain ⟨hchoice, hf, hs⟩ := answers_three h
  unfold sessionTurn ask
  dsimp only
  rw [hchoice, hf, hs, if_neg (by decide), if_neg (by decide), if_neg (by decide), if_neg (by decide), if_neg (by decide),
    if_pos (by decide)]
  rfl

/-- The choice `8`, with a filename and a passphrase. -/
theorem sessionTurn_decrypt (env : Env) (user : User) {stdin : List UInt8} (d : Disk Obj) {f s : CString}
    (h : answers [choiceSize, maxFilename, maxPassword] stdin = [cstring "8", f, s]) :
    sessionTurn paths env user stdin d =
      afterCall user (Runs.final readStep stdin [choiceSize, maxFilename, maxPassword])
        (d.exec paths env.io (user.call env.io.timestr f (.decrypt s))) (menu ++ bytes "Filename: " ++ bytes "Passphrase: ")
        (fun _ => bytes "File decrypted.\n") (bytes "Failed: file not found, permission denied, or not encrypted.\n") := by
  obtain ⟨hchoice, hf, hs⟩ := answers_three h
  unfold sessionTurn ask
  dsimp only
  rw [hchoice, hf, hs, if_neg (by decide), if_neg (by decide), if_neg (by decide), if_neg (by decide), if_neg (by decide),
    if_neg (by decide), if_pos (by decide)]
  rfl

/-- At the end of `stdin` every choice is empty, and the program stays where it is. -/
theorem turn_at_end (env : Env) {c : Console Obj} (h : c.Alive) (hend : c.stdin = []) : (turn paths env c).1 = c := by
  obtain ⟨screen, stdin, d⟩ := c
  obtain rfl : stdin = [] := hend
  cases screen with
  | login => rfl
  | session user => rfl
  | returned => exact absurd rfl h.1
  | died => exact absurd rfl h.2

/-- A program that has ended has no turn. -/
theorem turn_of_not_alive (env : Env) {c : Console Obj} (h : ¬c.Alive) : (turn paths env c).1 = c := by
  obtain ⟨screen, stdin, d⟩ := c
  cases screen with
  | login => exact absurd ⟨by simp, by simp⟩ h
  | session user => exact absurd ⟨by simp, by simp⟩ h
  | returned => rfl
  | died => rfl

/-! ## Where the process dies -/

omit [DecidableEq Obj] in
/-- The program dies in the call, or goes on. -/
theorem afterCall_died_iff (user : User) (stdin : List UInt8) (out : Disk Obj × Reply) (prompts : List UInt8)
    (done : Reply → List UInt8) (failed : List UInt8) :
    (afterCall user stdin out prompts done failed).1.screen = .died ↔ out.2.ret = none := by
  unfold afterCall
  split <;> simp [*]

/-- A call of `auth.c` with a password that was read returns. -/
theorem auth_login_ret (io : Io) (d : Disk Obj) (username : CString) (stdin : List UInt8) :
    (d.authExec paths io (.login username (readLine maxPassword stdin).1)).2.ret ≠ none := by
  unfold Disk.authExec Disk.loginUser
  dsimp only
  split
  · simp
  · rename_i u _
    obtain ⟨hash, hhash⟩ := Option.isSome_iff_exists.mp (hashPassword_readLine stdin u.salt)
    rw [hhash]
    dsimp only
    split_ifs <;> simp

/-- `register_user` returns for every password that a prompt can give. -/
theorem auth_register_ret (io : Io) (d : Disk Obj) (username group : CString) (stdin : List UInt8)
    (salt : CharArray saltLen) :
    (d.authExec paths io (.register (some username) (some (readLine maxPassword stdin).1) (some group) salt)).2.ret ≠ none := by
  obtain ⟨hash, hhash⟩ := Option.isSome_iff_exists.mp (hashPassword_readLine stdin salt)
  unfold Disk.authExec Disk.registerUser
  dsimp only
  rw [hhash]
  dsimp only
  split_ifs <;> simp

/-- No turn of the first menu dies. -/
theorem loginTurn_ne_died (env : Env) (stdin : List UInt8) (d : Disk Obj) : (loginTurn paths env stdin d).1.screen ≠ .died := by
  unfold loginTurn ask
  dsimp only
  split_ifs
  · split
    · rename_i hret
      exact absurd hret (auth_login_ret paths env.io d _ _)
    · simp
    · simp
  · split
    · rename_i hret
      exact absurd hret (auth_register_ret paths env.io d _ _ _ _)
    · simp
    · simp
  · simp
  · simp

/-- The process dies in this turn: a file that is to be encrypted or decrypted passes the checks, and cannot be opened for writing. -/
def Console.Dies (io : Io) (c : Console Obj) : Prop :=
  ∃ user f p, c.screen = .session user ∧ io.ok .storageRewrite = false ∧
    (answers [choiceSize, maxFilename, maxPassword] c.stdin = [cstring "7", f, p] ∧
        c.disk.TransformAccepted paths io user.username.str user.group.str f 0 ∨
      answers [choiceSize, maxFilename, maxPassword] c.stdin = [cstring "8", f, p] ∧
        c.disk.TransformAccepted paths io user.username.str user.group.str f 1)

omit [DecidableEq Obj] in
/-- A choice is compared as a string. -/
theorem strcmp_choice (choice : CString) (s : String) : strcmp choice.bytes (bytes s) = 0 ↔ choice = cstring s := by
  rw [strcmp_eq_zero_iff, cstr_bytes, CString.ext_iff]
  rfl

/-- A call dies in a transformation only. -/
theorem call_died_iff (io : Io) (d : Disk Obj) (user : User) (t : List UInt8) (f : CString) (op : FsOp) :
    (d.exec paths io (user.call t f op)).2.ret = none ↔
      io.ok .storageRewrite = false ∧
        ((∃ p, op = .encrypt p) ∧ d.TransformAccepted paths io user.username.str user.group.str f 0 ∨
          (∃ p, op = .decrypt p) ∧ d.TransformAccepted paths io user.username.str user.group.str f 1) := by
  unfold User.call Disk.exec
  cases op with
  | encrypt p => simp [Reply.ofRet, Disk.fsEncryptFile, Disk.transformFile_died_iff, and_comm]
  | decrypt p => simp [Reply.ofRet, Disk.fsDecryptFile, Disk.transformFile_died_iff, and_comm]
  | create permStr content => simp [Reply.ofRet]
  | read pass size => simp
  | write pass content append => simp [Reply.ofRet]
  | delete => simp [Reply.ofRet]
  | chmod permStr => simp [Reply.ofRet]

/-- Another choice does not make the process die. -/
theorem sessionTurn_ne_died (env : Env) (user : User) (stdin : List UInt8) (d : Disk Obj)
    (h7 : (readLine choiceSize stdin).1 ≠ cstring "7") (h8 : (readLine choiceSize stdin).1 ≠ cstring "8") :
    (sessionTurn paths env user stdin d).1.screen ≠ .died := by
  unfold sessionTurn ask
  simp only [strcmp_choice, h7, h8, if_false]
  split_ifs <;> simp [afterCall_died_iff, call_died_iff]

/-- A turn of a session dies just then. -/
theorem sessionTurn_died_iff (env : Env) (user : User) (stdin : List UInt8) (d : Disk Obj) :
    (sessionTurn paths env user stdin d).1.screen = .died ↔
      Console.Dies paths env.io { screen := .session user, stdin := stdin, disk := d } := by
  obtain ⟨choice, f, p, hanswers⟩ : ∃ choice f p, answers [choiceSize, maxFilename, maxPassword] stdin = [choice, f, p] :=
    ⟨_, _, _, rfl⟩
  unfold Console.Dies
  by_cases h7 : choice = cstring "7"
  · subst h7
    have hne : cstring "7" ≠ cstring "8" := by decide
    rw [sessionTurn_encrypt paths env user d hanswers, afterCall_died_iff, call_died_iff]
    simp [hanswers, hne]
  · by_cases h8 : choice = cstring "8"
    · subst h8
      rw [sessionTurn_decrypt paths env user d hanswers, afterCall_died_iff, call_died_iff]
      simp [hanswers, h7]
    · have hchoice := (answers_three hanswers).1
      refine iff_of_false (sessionTurn_ne_died paths env user stdin d (hchoice ▸ h7) (hchoice ▸ h8)) ?_
      simp [hanswers, h7, h8]

/-- A turn of either loop dies in the second `fopen` of a transformation, and nowhere else. -/
theorem turn_died_iff (env : Env) {c : Console Obj} (h : c.Alive) :
    (turn paths env c).1.screen = .died ↔ c.Dies paths env.io := by
  obtain ⟨screen, stdin, d⟩ := c
  cases screen with
  | login =>
    refine iff_of_false (loginTurn_ne_died paths env stdin d) ?_
    rintro ⟨user, f, p, hscreen, -⟩
    cases hscreen
  | session user => exact sessionTurn_died_iff paths env user stdin d
  | returned => exact absurd rfl h.1
  | died => exact absurd rfl h.2

end

end OsSecurity.Fms
