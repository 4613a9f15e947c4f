import OsSecurity.Fms.Disk
import OsSecurity.Lib.Stdio

/-!
# The file manager: the menus (`main.c`)

`main` goes back and forth between `login_screen` and `session_loop`, and each of these reads a choice, asks for what the choice needs,
and calls the other modules. One `turn` is one iteration of either loop; a `Console` is where the program is, what is left of `stdin`,
and the files on disk.
-/

namespace OsSecurity.Fms

open CLib

/-- `read_line`: the string in `buf` and what is left of `stdin`. At its end `buf` is empty. -/
def readLine (size : Nat) (stdin : List UInt8) : CString × List UInt8 :=
  match fgets size stdin with
  | some (buf, rest) =>
    let len := (CString.ofMem buf).length
    (CString.ofMem (if 0 < len ∧ buf.getD (len - 1) 0 = 10 then buf.set (len - 1) 0 else buf), rest)
  | none => (CString.ofMem [], stdin)

/-- A program that reads a line and goes on with it. -/
def ask {α : Type*} (size : Nat) (stdin : List UInt8) (next : CString → List UInt8 → α) : α :=
  next (readLine size stdin).1 (readLine size stdin).2

/-- The size of `choice`. -/
abbrev choiceSize : Nat := 8

/-- The size of `perm_str`. -/
abbrev permStrSize : Nat := 16

/-- `MAX_LINE`, the size of `content`. -/
abbrev maxLine : Nat := 512

/-- `sizeof(read_buf)`. -/
abbrev readBufSize : UInt64 := 4096

/-- `(passphrase[0] != '\0') ? passphrase : NULL`. -/
def passArg (passphrase : CString) : Option CString := if passphrase.bytes.headD 0 ≠ 0 then some passphrase else none

/-- Where the program is. -/
inductive Screen where
  | login
  | session (user : User)
  /-- `main` has returned. -/
  | returned
  /-- The process died in a call. -/
  | died
  deriving DecidableEq

structure Console (Obj : Type*) where
  screen : Screen
  stdin : List UInt8
  disk : Disk Obj

/-- The program when `login_screen` begins, on an input and the files there are. -/
def Console.start {Obj : Type*} (stdin : List UInt8) (disk : Disk Obj) : Console Obj :=
  { screen := .login, stdin := stdin, disk := disk }

/-- What the system does during a turn: how its calls go, and the salt that `rand` gives. -/
structure Env where
  io : Io
  salt : CharArray saltLen

/-- A call of `fileops.c` or `chmod_file`, with the username and the group of `current_user`. -/
def User.call (user : User) (timestr : List UInt8) (filename : CString) (op : FsOp) : Call :=
  { username := user.username.str, group := user.group.str, filename := filename, op := op, timestr := timestr }

section

variable {Obj : Type*} [DecidableEq Obj] (paths : Paths Obj)

/-! ## What is printed -/

/-- `print_banner`. -/
def banner : List UInt8 :=
  bytes "\n=========================================\n" ++ bytes " Secure File Management System - ST5004CEM\n" ++
    bytes "=========================================\n"

def loginMenu : List UInt8 := bytes "\n1) Login\n2) Register\n3) Exit\nChoice: "

/-- `print_menu`. -/
def menu : List UInt8 :=
  bytes "\n--- File Menu ---\n" ++ bytes "1) Create file\n" ++ bytes "2) Read file\n" ++ bytes "3) Write/overwrite file\n" ++
    bytes "4) Append to file\n" ++ bytes "5) Delete file\n" ++ bytes "6) Change permissions (chmod)\n" ++
    bytes "7) Encrypt file\n" ++ bytes "8) Decrypt file\n" ++ bytes "9) Logout\n" ++ bytes "Choice: "

def welcome (user : User) : List UInt8 :=
  bytes "Login successful. Welcome, " ++ user.username.str.bytes ++ bytes " (group: " ++ user.group.str.bytes ++ bytes ").\n"

/-- What is printed of `read_buf`. -/
def contentText (readBuf : CString) : List UInt8 := bytes "--- Content ---\n" ++ readBuf.bytes ++ bytes "\n---------------\n"

def writtenText (append : Bool) : List UInt8 :=
  bytes "File " ++ (if append then bytes "appended" else bytes "written") ++ bytes ".\n"

/-! ## The loops -/

/-- The rest of a branch of `session_loop` whose call returned: one of two texts is printed, and the loop goes on. -/
def afterCall (user : User) (stdin : List UInt8) (out : Disk Obj × Reply) (prompts : List UInt8) (done : Reply → List UInt8)
    (failed : List UInt8) : Console Obj × List UInt8 :=
  match out.2.ret with
  | some true => ({ screen := .session user, stdin := stdin, disk := out.1 }, prompts ++ done out.2)
  | some false => ({ screen := .session user, stdin := stdin, disk := out.1 }, prompts ++ failed)
  | none => ({ screen := .died, stdin := stdin, disk := out.1 }, prompts)

/-- An iteration of `login_screen`, with what it prints. -/
def loginTurn (env : Env) (stdin : List UInt8) (d : Disk Obj) : Console Obj × List UInt8 :=
  ask choiceSize stdin fun choice stdin =>
    if strcmp choice.bytes (bytes "1") = 0 then
      ask maxUsername stdin fun username stdin =>
      ask maxPassword stdin fun password stdin =>
        let prompts := loginMenu ++ bytes "Username: " ++ bytes "Password: "
        let out := d.authExec paths env.io (.login username password)
        match out.2.ret, out.2.user with
        | none, _ => ({ screen := .died, stdin := stdin, disk := out.1 }, prompts)
        | some _, some user => ({ screen := .session user, stdin := stdin, disk := out.1 }, prompts ++ welcome user)
        | some _, none =>
          ({ screen := .login, stdin := stdin, disk := out.1 }, prompts ++ bytes "Login failed: invalid username or password.\n")
    else if strcmp choice.bytes (bytes "2") = 0 then
      ask maxUsername stdin fun username stdin =>
      ask maxPassword stdin fun password stdin =>
      ask maxGroup stdin fun group stdin =>
        let prompts := loginMenu ++ bytes "Choose a username: " ++ bytes "Choose a password: " ++
          bytes "Choose a group (e.g. staff, guest): "
        let out := d.authExec paths env.io (.register (some username) (some password) (some group) env.salt)
        match out.2.ret with
        | none => ({ screen := .died, stdin := stdin, disk := out.1 }, prompts)
        | some true =>
          ({ screen := .login, stdin := stdin, disk := out.1 }, prompts ++ bytes "Registration successful. You can now log in.\n")
        | some false =>
          ({ screen := .login, stdin := stdin, disk := out.1 },
            prompts ++ bytes "Registration failed (username may already exist, or input invalid).\n")
    else if strcmp choice.bytes (bytes "3") = 0 then
      ({ screen := .returned, stdin := stdin, disk := d }, loginMenu ++ bytes "Goodbye.\n")
    else ({ screen := .login, stdin := stdin, disk := d }, loginMenu ++ bytes "Invalid choice.\n")

/-- An iteration of `session_loop`, with what it prints. After a logout `main` prints the banner and goes to `login_screen`. -/
def sessionTurn (env : Env) (user : User) (stdin : List UInt8) (d : Disk Obj) : Console Obj × List UInt8 :=
  let prompts := menu ++ bytes "Filename: "
  let passPrompt := bytes "Passphrase (leave blank if not encrypted): "
  ask choiceSize stdin fun choice stdin =>
    if strcmp choice.bytes (bytes "1") = 0 then
      ask maxFilename stdin fun filename stdin =>
      ask permStrSize stdin fun permStr stdin =>
      ask maxLine stdin fun content stdin =>
        afterCall user stdin (d.exec paths env.io (user.call env.io.timestr filename (.create (some permStr) content)))
          (prompts ++ bytes "Initial permissions (e.g. rw-r-----): " ++ bytes "Content: ")
          (fun _ => bytes "File created.\n") (bytes "Failed: invalid permission string, or file already exists.\n")
    else if strcmp choice.bytes (bytes "2") = 0 then
      ask maxFilename stdin fun filename stdin =>
      ask maxPassword stdin fun passphrase stdin =>
        afterCall user stdin (d.exec paths env.io (user.call env.io.timestr filename (.read (passArg passphrase) readBufSize)))
          (prompts ++ passPrompt) (fun reply => contentText (CString.ofMem (reply.buffer.getD [])))
          (bytes "Failed: file not found or permission denied.\n")
    else if strcmp choice.bytes (bytes "3") = 0 ∨ strcmp choice.bytes (bytes "4") = 0 then
      let append : Bool := strcmp choice.bytes (bytes "4") = 0
      ask maxFilename stdin fun filename stdin =>
      ask maxPassword stdin fun passphrase stdin =>
      ask maxLine stdin fun content stdin =>
        afterCall user stdin (d.exec paths env.io (user.call env.io.timestr filename (.write (passArg passphrase) content append)))
          (prompts ++ passPrompt ++ bytes "Content: ") (fun _ => writtenText append)
          (bytes "Failed: file not found or permission denied.\n")
    else if strcmp choice.bytes (bytes "5") = 0 then
      ask maxFilename stdin fun filename stdin =>
        afterCall user stdin (d.exec paths env.io (user.call env.io.timestr filename .delete)) prompts (fun _ => bytes "File deleted.\n")
          (bytes "Failed: file not found or permission denied.\n")
    else if strcmp choice.bytes (bytes "6") = 0 then
      ask maxFilename stdin fun filename stdin =>
      ask permStrSize stdin fun permStr stdin =>
        afterCall user stdin (d.exec paths env.io (user.call env.io.timestr filename (.chmod (some permStr))))
          (prompts ++ bytes "New permissions (e.g. rwxr-x---): ") (fun _ => bytes "Permissions updated.\n")
          (bytes "Failed: file not found or invalid permission string.\n")
    else if strcmp choice.bytes (bytes "7") = 0 then
      ask maxFilename stdin fun filename stdin =>
      ask maxPassword stdin fun passphrase stdin =>
        afterCall user stdin (d.exec paths env.io (user.call env.io.timestr filename (.encrypt passphrase)))
          (prompts ++ bytes "Passphrase: ") (fun _ => bytes "File encrypted.\n")
          (bytes "Failed: file not found, permission denied, or already encrypted.\n")
    else if strcmp choice.bytes (bytes "8") = 0 then
      ask maxFilename stdin fun filename stdin =>
      ask maxPassword stdin fun passphrase stdin =>
        afterCall user stdin (d.exec paths env.io (user.call env.io.timestr filename (.decrypt passphrase)))
          (prompts ++ bytes "Passphrase: ") (fun _ => bytes "File decrypted.\n")
          (bytes "Failed: file not found, permission denied, or not encrypted.\n")
    else if strcmp choice.bytes (bytes "9") = 0 then
      ({ screen := .login, stdin := stdin,
          disk := d.logAction paths env.io user.username.str .logout (cstring "-") .success },
        menu ++ bytes "Logging out.\n" ++ banner)
    else ({ screen := .session user, stdin := stdin, disk := d }, menu ++ bytes "Invalid choice.\n")

/-- One iteration of the loop the program is in, with what it prints. -/
def turn (env : Env) (c : Console Obj) : Console Obj × List UInt8 :=
  match c.screen with
  | .login => loginTurn paths env c.stdin c.disk
  | .session user => sessionTurn paths env user c.stdin c.disk
  | .returned => (c, [])
  | .died => (c, [])

/-- The program after `n` turns. -/
def play (envs : Nat → Env) (c : Console Obj) : Nat → Console Obj
  | 0 => c
  | n + 1 => (turn paths (envs n) (play envs c n)).1

end

end OsSecurity.Fms
