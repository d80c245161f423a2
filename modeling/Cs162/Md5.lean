import Cs162.Lib.MessageDigest

/-!
# Message digests

`md5.c` and the hash `kvconstants.h` makes of it. A context has four registers, a count of the
bytes so far in two words (`lo` has its low 29 bits, `hi` the next 32) and the bytes that do not
make a whole block yet. `STEP` changes one register, so there is one function for each of the four
ways it is used.

A context starts as the memory it is allocated in: every field of an `Md5Ctx` may hold anything
before `Init`, and the buffer still does after it.
-/

namespace Cs162

open CLib

/-- The two ways `SET` and `GET` are compiled. -/
inductive Processor
  | unaligned
  | portable
deriving DecidableEq

structure Md5Regs where
  a : UInt32
  b : UInt32
  c : UInt32
  d : UInt32
deriving DecidableEq

/-- `MD5_CTX`, without the words of the block at hand (`block`). -/
structure Md5Ctx extends Md5Regs where
  lo : UInt32
  hi : UInt32
  buffer : Buffer UInt8 64
deriving DecidableEq

namespace Md5

def F (x y z : UInt32) : UInt32 := z ^^^ (x &&& (y ^^^ z))

def G (x y z : UInt32) : UInt32 := y ^^^ (z &&& (x ^^^ y))

def H (x y z : UInt32) : UInt32 := (x ^^^ y) ^^^ z

def H2 (x y z : UInt32) : UInt32 := x ^^^ (y ^^^ z)

def I (x y z : UInt32) : UInt32 := y ^^^ (x ||| ~~~z)

/-- What `STEP` leaves in `a`. -/
def step (f : UInt32 → UInt32 → UInt32 → UInt32) (a b c d x t s : UInt32) : UInt32 :=
  let a := a + (f b c d + x + t)
  let a := (a <<< s) ||| ((a &&& 0xffffffff) >>> (32 - s))
  a + b

section Body

variable (f : UInt32 → UInt32 → UInt32 → UInt32) (x t s : UInt32) (r : Md5Regs)

def stepA : Md5Regs := { r with a := step f r.a r.b r.c r.d x t s }

def stepD : Md5Regs := { r with d := step f r.d r.a r.b r.c x t s }

def stepC : Md5Regs := { r with c := step f r.c r.d r.a r.b x t s }

def stepB : Md5Regs := { r with b := step f r.b r.c r.d r.a x t s }

end Body

def round1 (set : ℕ → UInt32) (r : Md5Regs) : Md5Regs :=
  r
    |> stepA F (set 0) 0xd76aa478 7
    |> stepD F (set 1) 0xe8c7b756 12
    |> stepC F (set 2) 0x242070db 17
    |> stepB F (set 3) 0xc1bdceee 22
    |> stepA F (set 4) 0xf57c0faf 7
    |> stepD F (set 5) 0x4787c62a 12
    |> stepC F (set 6) 0xa8304613 17
    |> stepB F (set 7) 0xfd469501 22
    |> stepA F (set 8) 0x698098d8 7
    |> stepD F (set 9) 0x8b44f7af 12
    |> stepC F (set 10) 0xffff5bb1 17
    |> stepB F (set 11) 0x895cd7be 22
    |> stepA F (set 12) 0x6b901122 7
    |> stepD F (set 13) 0xfd987193 12
    |> stepC F (set 14) 0xa679438e 17
    |> stepB F (set 15) 0x49b40821 22

def round2 (set : ℕ → UInt32) (r : Md5Regs) : Md5Regs :=
  r
    |> stepA G (set 1) 0xf61e2562 5
    |> stepD G (set 6) 0xc040b340 9
    |> stepC G (set 11) 0x265e5a51 14
    |> stepB G (set 0) 0xe9b6c7aa 20
    |> stepA G (set 5) 0xd62f105d 5
    |> stepD G (set 10) 0x02441453 9
    |> stepC G (set 15) 0xd8a1e681 14
    |> stepB G (set 4) 0xe7d3fbc8 20
    |> stepA G (set 9) 0x21e1cde6 5
    |> stepD G (set 14) 0xc33707d6 9
    |> stepC G (set 3) 0xf4d50d87 14
    |> stepB G (set 8) 0x455a14ed 20
    |> stepA G (set 13) 0xa9e3e905 5
    |> stepD G (set 2) 0xfcefa3f8 9
    |> stepC G (set 7) 0x676f02d9 14
    |> stepB G (set 12) 0x8d2a4c8a 20

def round3 (set : ℕ → UInt32) (r : Md5Regs) : Md5Regs :=
  r
    |> stepA H (set 5) 0xfffa3942 4
    |> stepD H2 (set 8) 0x8771f681 11
    |> stepC H (set 11) 0x6d9d6122 16
    |> stepB H2 (set 14) 0xfde5380c 23
    |> stepA H (set 1) 0xa4beea44 4
    |> stepD H2 (set 4) 0x4bdecfa9 11
    |> stepC H (set 7) 0xf6bb4b60 16
    |> stepB H2 (set 10) 0xbebfbc70 23
    |> stepA H (set 13) 0x289b7ec6 4
    |> stepD H2 (set 0) 0xeaa127fa 11
    |> stepC H (set 3) 0xd4ef3085 16
    |> stepB H2 (set 6) 0x04881d05 23
    |> stepA H (set 9) 0xd9d4d039 4
    |> stepD H2 (set 12) 0xe6db99e5 11
    |> stepC H (set 15) 0x1fa27cf8 16
    |> stepB H2 (set 2) 0xc4ac5665 23

def round4 (set : ℕ → UInt32) (r : Md5Regs) : Md5Regs :=
  r
    |> stepA I (set 0) 0xf4292244 6
    |> stepD I (set 7) 0x432aff97 10
    |> stepC I (set 14) 0xab9423a7 15
    |> stepB I (set 5) 0xfc93a039 21
    |> stepA I (set 12) 0x655b59c3 6
    |> stepD I (set 3) 0x8f0ccc92 10
    |> stepC I (set 10) 0xffeff47d 15
    |> stepB I (set 1) 0x85845dd1 21
    |> stepA I (set 8) 0x6fa87e4f 6
    |> stepD I (set 15) 0xfe2ce6e0 10
    |> stepC I (set 6) 0xa3014314 15
    |> stepB I (set 13) 0x4e0811a1 21
    |> stepA I (set 4) 0xf7537e82 6
    |> stepD I (set 11) 0xbd3af235 10
    |> stepC I (set 2) 0x2ad7d2bb 15
    |> stepB I (set 9) 0xeb86d391 21

/-- `SET`: a word read as it lies in memory, or put together from its bytes. Where it is put
together it is also kept in `block`, for `GET` to find. -/
def set : Processor → List UInt8 → ℕ → UInt32
  | .unaligned, ptr, n => UInt32.ofNat (leNat ((ptr.drop (n * 4)).take 4))
  | .portable, ptr, n =>
    (ptr.getD (n * 4) 0).toUInt32 ||| ((ptr.getD (n * 4 + 1) 0).toUInt32 <<< 8) |||
      ((ptr.getD (n * 4 + 2) 0).toUInt32 <<< 16) ||| ((ptr.getD (n * 4 + 3) 0).toUInt32 <<< 24)

variable (p : Processor)

/-- The inside of the loop of `body`. -/
def bodyBlock (saved : Md5Regs) (ptr : List UInt8) : Md5Regs :=
  let r := round4 (set p ptr) (round3 (set p ptr) (round2 (set p ptr) (round1 (set p ptr) saved)))
  ⟨r.a + saved.a, r.b + saved.b, r.c + saved.c, r.d + saved.d⟩

/-- The loop of `body`, which goes round once more than `n` times. -/
def bodyLoop : ℕ → Md5Regs → List UInt8 → Md5Regs × List UInt8
  | 0, r, ptr => (bodyBlock p r ptr, ptr.drop 64)
  | n + 1, r, ptr => bodyLoop n (bodyBlock p r ptr) (ptr.drop 64)

/-- `body`, for a positive multiple of 64 bytes, with the pointer it returns. -/
def body (ctx : Md5Ctx) (data : List UInt8) (size : UInt64) : Md5Ctx × List UInt8 :=
  let done := bodyLoop p ((size / 64).toNat - 1) ctx.toMd5Regs data
  ({ ctx with toMd5Regs := done.1 }, done.2)

end Md5

open Md5

/-- `MD5_Init`. -/
def md5Init (ctx : Md5Ctx) : Md5Ctx :=
  { ctx with
    a := 0x67452301
    b := 0xefcdab89
    c := 0x98badcfe
    d := 0x10325476
    lo := 0
    hi := 0 }

variable (p : Processor)

/-- `MD5_Update` once the buffer holds nothing. -/
def md5UpdateBlocks (ctx : Md5Ctx) (data : List UInt8) (size : UInt64) : Md5Ctx :=
  if 64 ≤ size then
    let done := body p ctx data (size &&& ~~~0x3f)
    let size := size &&& 0x3f
    { done.1 with buffer := done.1.buffer.write 0 (done.2.take size.toNat) }
  else { ctx with buffer := ctx.buffer.write 0 (data.take size.toNat) }

/-- `MD5_Update`. -/
def md5Update (ctx : Md5Ctx) (data : List UInt8) (size : UInt64) : Md5Ctx :=
  let savedLo := ctx.lo
  let lo := ((savedLo.toUInt64 + size) &&& 0x1fffffff).toUInt32
  let hi := if lo < savedLo then ctx.hi + 1 else ctx.hi
  let hi := (hi.toUInt64 + (size >>> 29)).toUInt32
  let ctx := { ctx with lo, hi }
  let used := savedLo.toUInt64 &&& 0x3f
  if used ≠ 0 then
    let available := 64 - used
    if size < available then
      { ctx with buffer := ctx.buffer.write used.toNat (data.take size.toNat) }
    else
      let ctx := { ctx with buffer := ctx.buffer.write used.toNat (data.take available.toNat) }
      let data := data.drop available.toNat
      let size := size - available
      md5UpdateBlocks p (body p ctx ctx.buffer.items 64).1 data size
  else md5UpdateBlocks p ctx data size

/-- The bytes of a word, as `MD5_Final` stores them. -/
def wordBytes (w : UInt32) : List UInt8 :=
  [w.toUInt8, (w >>> 8).toUInt8, (w >>> 16).toUInt8, (w >>> 24).toUInt8]

/-- The last block of `MD5_Final`: zeros, the count in bits, and `body`. -/
def md5FinalBlock (ctx : Md5Ctx) (used available : UInt64) : Md5Ctx :=
  let ctx :=
    { ctx with buffer := ctx.buffer.write used.toNat (.replicate (available - 8).toNat 0) }
  let ctx := { ctx with lo := ctx.lo <<< 3 }
  let ctx := { ctx with buffer := ctx.buffer.write 56 (wordBytes ctx.lo ++ wordBytes ctx.hi) }
  (body p ctx ctx.buffer.items 64).1

/-- `MD5_Final`: the result, and the context it clears. -/
def md5Final (ctx : Md5Ctx) : List UInt8 × Md5Ctx :=
  let used := ctx.lo.toUInt64 &&& 0x3f
  let ctx := { ctx with buffer := ctx.buffer.write used.toNat [0x80] }
  let used := used + 1
  let available := 64 - used
  let ctx :=
    if available < 8 then
      let ctx :=
        { ctx with buffer := ctx.buffer.write used.toNat (.replicate available.toNat 0) }
      md5FinalBlock p (body p ctx ctx.buffer.items 64).1 0 64
    else md5FinalBlock p ctx used available
  (wordBytes ctx.a ++ wordBytes ctx.b ++ wordBytes ctx.c ++ wordBytes ctx.d,
    ⟨⟨0, 0, 0, 0⟩, 0, 0, ⟨.replicate 64 0, List.length_replicate⟩⟩)

/-- `strhash64`, in a context that starts as `stack`. -/
def strhash64 (stack : Md5Ctx) (str : CStr) : UInt64 :=
  let ctx := md5Update p (md5Init stack) str.bytes (UInt64.ofNat str.strlen)
  UInt64.ofNat (leNat ((md5Final p ctx).1.take 8))

end Cs162
