import OsSecurity.Fms.Common
import OsSecurity.Lib.Keystream

/-!
# The file manager: SHA-256 and the XOR cipher (`crypto.c`)

The buffered SHA-256 of the program, word for word: a context with a 64-byte buffer filled one byte at a time, the padding
written into that buffer in one of two branches, and the bit count kept next to it. The buffer of a context on the stack is not
initialised, so `sha256On` takes what it holds as an argument.
-/

namespace OsSecurity.Fms

open CLib

/-- The eight words of `ctx->state`, and the working variables of a round. -/
structure Words where
  (a b c d e f g h : UInt32)
  deriving DecidableEq

/-- `SHA256_CTX`. -/
structure Sha256Ctx where
  data : CharArray 64
  datalen : Nat
  bitlen : UInt64
  state : Words
  deriving DecidableEq

def rotRight (a b : UInt32) : UInt32 := (a >>> b) ||| (a <<< (32 - b))
def ch (x y z : UInt32) : UInt32 := (x &&& y) ^^^ (~~~x &&& z)
def maj (x y z : UInt32) : UInt32 := (x &&& y) ^^^ (x &&& z) ^^^ (y &&& z)
def ep0 (x : UInt32) : UInt32 := rotRight x 2 ^^^ rotRight x 13 ^^^ rotRight x 22
def ep1 (x : UInt32) : UInt32 := rotRight x 6 ^^^ rotRight x 11 ^^^ rotRight x 25
def sig0 (x : UInt32) : UInt32 := rotRight x 7 ^^^ rotRight x 18 ^^^ (x >>> 3)
def sig1 (x : UInt32) : UInt32 := rotRight x 17 ^^^ rotRight x 19 ^^^ (x >>> 10)

/-- The table `k[64]`. -/
def k : List UInt32 :=
  [0x428a2f98, 0x71374491, 0xb5c0fbcf, 0xe9b5dba5, 0x3956c25b, 0x59f111f1, 0x923f82a4, 0xab1c5ed5,
    0xd807aa98, 0x12835b01, 0x243185be, 0x550c7dc3, 0x72be5d74, 0x80deb1fe, 0x9bdc06a7, 0xc19bf174,
    0xe49b69c1, 0xefbe4786, 0x0fc19dc6, 0x240ca1cc, 0x2de92c6f, 0x4a7484aa, 0x5cb0a9dc, 0x76f988da,
    0x983e5152, 0xa831c66d, 0xb00327c8, 0xbf597fc7, 0xc6e00bf3, 0xd5a79147, 0x06ca6351, 0x14292967,
    0x27b70a85, 0x2e1b2138, 0x4d2c6dfc, 0x53380d13, 0x650a7354, 0x766a0abb, 0x81c2c92e, 0x92722c85,
    0xa2bfe8a1, 0xa81a664b, 0xc24b8b70, 0xc76c51a3, 0xd192e819, 0xd6990624, 0xf40e3585, 0x106aa070,
    0x19a4c116, 0x1e376c08, 0x2748774c, 0x34b0bcb5, 0x391c0cb3, 0x4ed8aa4a, 0x5b9cca4f, 0x682e6ff3,
    0x748f82ee, 0x78a5636f, 0x84c87814, 0x8cc70208, 0x90befffa, 0xa4506ceb, 0xbef9a3f7, 0xc67178f2]

/-- `m[i]` for `i < 16`: the big-endian word at byte `j = 4 * i` of the block. -/
def loadWord (data : List UInt8) (j : Nat) : UInt32 :=
  ((data.getD j 0).toUInt32 <<< 24) ||| ((data.getD (j + 1) 0).toUInt32 <<< 16) |||
    ((data.getD (j + 2) 0).toUInt32 <<< 8) ||| (data.getD (j + 3) 0).toUInt32

/-- One turn of the loop that fills `m[16..63]`: `m` holds `m[0..i-1]`. -/
def extendSchedule (m : List UInt32) (i : Nat) : List UInt32 :=
  m ++ [sig1 (m.getD (i - 2) 0) + m.getD (i - 7) 0 + sig0 (m.getD (i - 15) 0) + m.getD (i - 16) 0]

/-- The array `m[64]`. -/
def schedule (data : List UInt8) : List UInt32 :=
  (List.range' 16 48).foldl extendSchedule ((List.range 16).map (fun i => loadWord data (4 * i)))

/-- One turn of the round loop. -/
def sha256Round (m : List UInt32) (s : Words) (i : Nat) : Words :=
  let t1 := s.h + ep1 s.e + ch s.e s.f s.g + k.getD i 0 + m.getD i 0
  let t2 := ep0 s.a + maj s.a s.b s.c
  ⟨t1 + t2, s.a, s.b, s.c, s.d + t1, s.e, s.f, s.g⟩

/-- `sha256_transform`, on `ctx->state`. -/
def sha256Transform (state : Words) (data : List UInt8) : Words :=
  let r := (List.range 64).foldl (sha256Round (schedule data)) state
  ⟨state.a + r.a, state.b + r.b, state.c + r.c, state.d + r.d, state.e + r.e, state.f + r.f, state.g + r.g, state.h + r.h⟩

/-- `sha256_init`, on a context whose buffer holds `data`. -/
def sha256Init (data : CharArray 64) : Sha256Ctx :=
  { data := data, datalen := 0, bitlen := 0,
    state := ⟨0x6a09e667, 0xbb67ae85, 0x3c6ef372, 0xa54ff53a, 0x510e527f, 0x9b05688c, 0x1f83d9ab, 0x5be0cd19⟩ }

/-- One turn of the loop of `sha256_update`. -/
def updateByte (ctx : Sha256Ctx) (b : UInt8) : Sha256Ctx :=
  let data := ctx.data.set ctx.datalen b
  if ctx.datalen + 1 = 64 then
    { data := data, datalen := 0, bitlen := ctx.bitlen + 512, state := sha256Transform ctx.state data.bytes }
  else { ctx with data := data, datalen := ctx.datalen + 1 }

/-- `sha256_update`. -/
def sha256Update (ctx : Sha256Ctx) (data : List UInt8) : Sha256Ctx := data.foldl updateByte ctx

/-- `while (i < bound) data[i++] = 0x00`. -/
def fillZero (data : CharArray 64) (i bound : Nat) : CharArray 64 :=
  (List.range' i (bound - i)).foldl (fun d j => d.set j 0) data

/-- The eight assignments `data[63] = bitlen`, ..., `data[56] = bitlen >> 56`. -/
def storeBitlen (data : CharArray 64) (bitlen : UInt64) : CharArray 64 :=
  (((((((data.set 63 bitlen.toUInt8).set 62 (bitlen >>> 8).toUInt8).set 61 (bitlen >>> 16).toUInt8).set 60
    (bitlen >>> 24).toUInt8).set 59 (bitlen >>> 32).toUInt8).set 58 (bitlen >>> 40).toUInt8).set 57
    (bitlen >>> 48).toUInt8).set 56 (bitlen >>> 56).toUInt8

/-- The bytes `hash[4j..4j+3]` that the output loops take from `state[j]`. -/
def wordBytes (w : UInt32) : List UInt8 :=
  (List.range 4).map (fun i => ((w >>> (24 - UInt32.ofNat i * 8)) &&& 0x000000ff).toUInt8)

/-- The output loops of `sha256_final`. -/
def storeHash (s : Words) : CharArray hashLen :=
  ⟨[s.a, s.b, s.c, s.d, s.e, s.f, s.g, s.h].flatMap wordBytes, rfl⟩

/-- `sha256_final`. -/
def sha256Final (ctx : Sha256Ctx) : CharArray hashLen :=
  let i := ctx.datalen
  let (data, state) :=
    if ctx.datalen < 56 then (fillZero (ctx.data.set i 0x80) (i + 1) 56, ctx.state)
    else
      let data := fillZero (ctx.data.set i 0x80) (i + 1) 64
      -- The block is full before the length fits: it is compressed, and the length goes into a block of its own.
      (fillZero data 0 56, sha256Transform ctx.state data.bytes)
  let bitlen := ctx.bitlen + UInt64.ofNat ctx.datalen * 8
  storeHash (sha256Transform state (storeBitlen data bitlen).bytes)

/-- `sha256`, with a context whose buffer holds `fill` before the call. -/
def sha256On (fill : CharArray 64) (data : List UInt8) : CharArray hashLen :=
  sha256Final (sha256Update (sha256Init fill) data)

/-- `sha256`. What the buffer of the context holds does not matter (`sha256On_eq_sha256`). -/
def sha256 (data : List UInt8) : CharArray hashLen := sha256On (CharArray.zero 64) data

/-- `hash_password`, or `none` for a password that does not fit behind the salt: the code does not check it, and writes behind the end
of its buffer. -/
def hashPassword (password : CString) (salt : CharArray saltLen) : Option (CharArray hashLen) :=
  if password.length ≤ maxPassword then some (sha256 (salt.bytes ++ password.bytes)) else none

/-- The key byte of position `i`: `key[i % HASH_LEN]`, where `key` is the hash of the passphrase. -/
def cipherKey (passphrase : CString) (i : Nat) : UInt8 := (sha256 passphrase.bytes).bytes.getD (i % hashLen) 0

/-- `xor_cipher` on a whole buffer. -/
def xorCipher (passphrase : CString) (buffer : List UInt8) : List UInt8 :=
  Keystream.cipher (· ^^^ ·) (cipherKey passphrase) 0 buffer

end OsSecurity.Fms
