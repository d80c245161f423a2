import Cs162.Lib.Blocks
import Cs162.Lib.Bytes

/-!
# The MD5 message digest

What MD5 computes of a message, in the terms it is specified in. Four words go through 64 steps
for each block of 16 words, every step making one new word and rotating the four; the round a step
is in decides its function, its word of the block and its shift. The message is padded to whole
blocks first, its length in bits in the last eight bytes.
-/

namespace CLib

namespace MessageDigest

/-- The four words of the state. -/
@[ext] structure Words where
  a : UInt32
  b : UInt32
  c : UInt32
  d : UInt32
deriving DecidableEq

/-- A word rotated to the left. -/
def rotl (x : UInt32) (s : ℕ) : UInt32 := ⟨x.toBitVec.rotateLeft s⟩

/-- The function of a round: a choice by the first word, one by the last, the parity, and the
fourth of its own. -/
def auxiliary : ℕ → UInt32 → UInt32 → UInt32 → UInt32
  | 0, x, y, z => (x &&& y) ||| (~~~x &&& z)
  | 1, x, y, z => (x &&& z) ||| (y &&& ~~~z)
  | 2, x, y, z => x ^^^ y ^^^ z
  | _, x, y, z => y ^^^ (x ||| ~~~z)

/-- The word of the block that step `i` takes. -/
def wordIndex (i : ℕ) : ℕ :=
  match i / 16 with
  | 0 => i % 16
  | 1 => (5 * i + 1) % 16
  | 2 => (3 * i + 5) % 16
  | _ => 7 * i % 16

/-- The shifts of a round, which its steps use in turn. -/
def shifts : ℕ → List ℕ
  | 0 => [7, 12, 17, 22]
  | 1 => [5, 9, 14, 20]
  | 2 => [4, 11, 16, 23]
  | _ => [6, 10, 15, 21]

def shift (i : ℕ) : ℕ := (shifts (i / 16)).getD (i % 4) 0

/-- Entry `i` is the integer part of `2 ^ 32 * |sin (i + 1)|`. -/
def sines : List UInt32 :=
  [0xd76aa478, 0xe8c7b756, 0x242070db, 0xc1bdceee, 0xf57c0faf, 0x4787c62a, 0xa8304613, 0xfd469501,
    0x698098d8, 0x8b44f7af, 0xffff5bb1, 0x895cd7be, 0x6b901122, 0xfd987193, 0xa679438e, 0x49b40821,
    0xf61e2562, 0xc040b340, 0x265e5a51, 0xe9b6c7aa, 0xd62f105d, 0x02441453, 0xd8a1e681, 0xe7d3fbc8,
    0x21e1cde6, 0xc33707d6, 0xf4d50d87, 0x455a14ed, 0xa9e3e905, 0xfcefa3f8, 0x676f02d9, 0x8d2a4c8a,
    0xfffa3942, 0x8771f681, 0x6d9d6122, 0xfde5380c, 0xa4beea44, 0x4bdecfa9, 0xf6bb4b60, 0xbebfbc70,
    0x289b7ec6, 0xeaa127fa, 0xd4ef3085, 0x04881d05, 0xd9d4d039, 0xe6db99e5, 0x1fa27cf8, 0xc4ac5665,
    0xf4292244, 0x432aff97, 0xab9423a7, 0xfc93a039, 0x655b59c3, 0x8f0ccc92, 0xffeff47d, 0x85845dd1,
    0x6fa87e4f, 0xfe2ce6e0, 0xa3014314, 0x4e0811a1, 0xf7537e82, 0xbd3af235, 0x2ad7d2bb, 0xeb86d391]

def sine (i : ℕ) : UInt32 := sines.getD i 0

/-- One step with its function, its word of the block, its constant and its shift. -/
def step (f : UInt32 → UInt32 → UInt32 → UInt32) (x t : UInt32) (s : ℕ) (w : Words) : Words :=
  ⟨w.d, w.b + rotl (w.a + f w.b w.c w.d + x + t) s, w.b, w.c⟩

/-- The first `i` steps on a block. -/
def steps (block : ℕ → UInt32) : ℕ → Words → Words
  | 0, w => w
  | i + 1, w =>
    step (auxiliary (i / 16)) (block (wordIndex i)) (sine i) (shift i) (steps block i w)

/-- Word `j` of a block of bytes. -/
def blockWord (bytes : List UInt8) (j : ℕ) : UInt32 := UInt32.ofNat (leNat ((bytes.drop (4 * j)).take 4))

/-- What a block does to the state. -/
def compress (w : Words) (bytes : List UInt8) : Words :=
  let w' := steps (blockWord bytes) 64 w
  ⟨w'.a + w.a, w'.b + w.b, w'.c + w.c, w'.d + w.d⟩

def initial : Words := ⟨0x67452301, 0xefcdab89, 0x98badcfe, 0x10325476⟩

/-- Zeros behind the mark, up to eight bytes before the end of a block. -/
def zeros (len : ℕ) : ℕ := (119 - len % 64) % 64

/-- What is put behind a message of `len` bytes. -/
def padding (len : ℕ) : List UInt8 :=
  0x80 :: (List.replicate (zeros len) 0 ++ leBytes 8 (8 * len))

def render (w : Words) : List UInt8 :=
  leBytes 4 w.a.toNat ++ leBytes 4 w.b.toNat ++ leBytes 4 w.c.toNat ++ leBytes 4 w.d.toNat

/-- The digest of a message. -/
def digest (msg : List UInt8) : List UInt8 :=
  render (absorb 64 compress initial (msg ++ padding msg.length))

/-- The digest of `abc`. -/
example : digest [97, 98, 99] = [0x90, 0x01, 0x50, 0x98, 0x3c, 0xd2, 0x4f, 0xb0,
    0xd6, 0x96, 0x3f, 0x7d, 0x28, 0xe1, 0x7f, 0x72] := by decide +kernel

@[simp] theorem length_digest (msg : List UInt8) : (digest msg).length = 16 := by
  simp only [digest, render, List.length_append, length_leBytes]

end MessageDigest

end CLib
