import OsSecurity.Lib.CString

/-!
# The file manager: constants and records (`common.h`)
-/

namespace OsSecurity.Fms

open CLib

abbrev maxUsername : Nat := 32
abbrev maxPassword : Nat := 64
abbrev maxGroup : Nat := 32
abbrev maxFilename : Nat := 64
abbrev saltLen : Nat := 16
abbrev hashLen : Nat := 32
abbrev permStringLen : Nat := 9

/-- A record of `users.dat`. -/
structure User where
  username : CharArray maxUsername
  group : CharArray maxGroup
  salt : CharArray saltLen
  hash : CharArray hashLen
  deriving DecidableEq

/-- A record of `files_meta.dat`. -/
structure FileMeta where
  filename : CharArray maxFilename
  owner : CharArray maxUsername
  group : CharArray maxGroup
  /-- Nine bits of `rwxrwxrwx` or `-`, and a terminating NUL. -/
  permissions : CharArray (permStringLen + 1)
  /-- 0 = plaintext, 1 = encrypted. -/
  isEncrypted : Int
  deriving DecidableEq

/-- The kinds of access a permission string grants. -/
inductive PermType where
  | read | write | execute
  deriving DecidableEq, Repr

/-- The value of the enumerator: the offset of the bit in an actor's three. -/
def PermType.index : PermType → Nat
  | .read => 0
  | .write => 1
  | .execute => 2

end OsSecurity.Fms
