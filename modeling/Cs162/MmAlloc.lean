import Cs162.Lib.Memory

/-!
# The allocator

`mm_alloc.c`. The heap is the memory between the initial break and the program break. A block is a
`struct s_block` header with `size` bytes of data behind it, and the blocks are linked both ways
through their headers. Addresses and sizes are 64-bit words; `0` is `NULL`.

`grant` says whether the operating system grants the call's `sbrk`. `none` is a call that does not
return: a walk of the list that meets more blocks than there are addresses is on a cycle, and what
`mm_malloc` writes past the program break ends the process.
-/

namespace Cs162

open CLib

/-- Arithmetic on `size_t`. -/
def word (n : ℕ) : ℕ := n % 2 ^ 64

/-- `sizeof(struct s_block)`. -/
def sizeofSBlock : ℕ := 32

namespace SBlock

variable (m : Memory) (b : ℕ)

def prev : ℕ := m.load b 8

def next : ℕ := m.load (b + 8) 8

def free : ℕ := m.load (b + 16) 4

def size : ℕ := m.load (b + 24) 8

def setPrev (v : ℕ) : Memory := m.store b 8 v

def setNext (v : ℕ) : Memory := m.store (b + 8) 8 v

def setFree (v : ℕ) : Memory := m.store (b + 16) 4 v

def setSize (v : ℕ) : Memory := m.store (b + 24) 8 v

/-- The address of `b->data`. -/
def data : ℕ := b + sizeofSBlock

end SBlock

open SBlock

def setContentsSafe (m : Memory) (b next prev free s : ℕ) : Memory :=
  let m := setNext m b next
  let m := setPrev m b prev
  let m := setFree m b free
  setSize m b s

/-- The allocator's state: the memory, its global variable and the program break, with the break
the program started with. -/
structure Heap where
  mem : Memory
  globalBase : ℕ
  start : ℕ
  brk : ℕ

/-- The loop of `free_block_or_nah`, with `curr` and what is stored through `last`. -/
def freeBlockLoop (m : Memory) (size : ℕ) : ℕ → ℕ → ℕ → Option (ℕ × ℕ)
  | 0, _, _ => none
  | fuel + 1, curr, last =>
    if curr ≠ 0 ∧ (free m curr = 0 ∨ SBlock.size m curr < size) then
      freeBlockLoop m size fuel (next m curr) curr
    else some (curr, last)

def freeBlockOrNah (h : Heap) (last size : ℕ) : Option (ℕ × ℕ) :=
  freeBlockLoop h.mem size (2 ^ 64) h.globalBase last

/-- The first half of `combine_block`. -/
def combineNext (m : Memory) (b : ℕ) : Memory :=
  let sizeJustFreed := size m b
  if next m b ≠ 0 ∧ free m (next m b) = 1 then
    let sizeInFront := size m (next m b)
    setContentsSafe m b (next m (next m b)) (prev m b) 1
      (word (sizeJustFreed + sizeofSBlock + sizeInFront))
  else m

/-- The second half of `combine_block`. -/
def combinePrev (m : Memory) (b : ℕ) : Memory × ℕ :=
  if prev m b ≠ 0 ∧ free m (prev m b) = 1 then
    let m := setContentsSafe m (prev m b) (next m b) (prev m (prev m b)) 1
      (word (size m (prev m b) + sizeofSBlock + size m b))
    (m, prev m b)
  else (m, b)

def combineBlock (m : Memory) (b : ℕ) : Memory × ℕ := combinePrev (combineNext m b) b

/-- `sbrk` with the word `increment` read as an `intptr_t`. The break stays in the address space
and does not go below where it started. -/
def sbrk (h : Heap) (increment : ℕ) (grant : Bool) : Option Heap :=
  let brk : ℤ := h.brk + if increment < 2 ^ 63 then (increment : ℤ) else increment - 2 ^ 64
  if grant ∧ h.start ≤ brk ∧ brk < 2 ^ 64 then some { h with brk := brk.toNat } else none

/-- The new block may end past the break, where the sum has wrapped or is negative for `sbrk`. -/
def extendHeap (h : Heap) (prevEnd s : ℕ) (grant : Bool) : Option (Heap × ℕ) :=
  let block := h.brk
  match sbrk h (word (sizeofSBlock + s)) grant with
  | none => some (h, 0)
  | some h =>
    if data block + s ≤ h.brk then
      let m := if prevEnd ≠ 0 then setNext h.mem prevEnd block else h.mem
      let m := setContentsSafe m block 0 prevEnd 0 s
      some ({ h with mem := m.memset (data block) 0 s }, block)
    else none

def splitBlockSafe (m : Memory) (b firstSize : ℕ) : Memory :=
  let entireSize := size m b
  let secondSize := word (entireSize + 2 ^ 64 - firstSize + 2 ^ 64 - sizeofSBlock)
  let entireblocknext := next m b
  let secondBlock := word (b + sizeofSBlock + firstSize)
  let m := setContentsSafe m b secondBlock (prev m b) 0 firstSize
  let m := m.memset (data b) 0 firstSize
  if secondBlock ≠ 0 then
    let m := setFree m secondBlock 1
    let m := setNext m secondBlock entireblocknext
    let m := setPrev m secondBlock b
    setSize m secondBlock secondSize
  else m

/-- What `mm_malloc` does with a free block it has found. -/
def takeBlock (m : Memory) (block size : ℕ) : Memory :=
  if SBlock.size m block < word (size + sizeofSBlock + 4) then
    setFree (m.memset (data block) 0 (SBlock.size m block)) block 0
  else
    let m := splitBlockSafe m block size
    setFree (m.memset (data block) 0 (SBlock.size m block)) block 0

/-- Whether a block is split and the second header is past the break. -/
def SplitsPast (h : Heap) (block size : ℕ) : Prop :=
  word (size + sizeofSBlock + 4) ≤ SBlock.size h.mem block ∧
    h.brk < data block + size + sizeofSBlock

instance (h : Heap) (block size : ℕ) : Decidable (SplitsPast h block size) :=
  inferInstanceAs (Decidable (_ ∧ _))

def mmMalloc (h : Heap) (size : ℕ) (grant : Bool) : Option (Heap × ℕ) :=
  if size = 0 then some (h, 0)
  else if h.globalBase = 0 then do
    let (h, block) ← extendHeap h 0 size grant
    if block = 0 then some (h, 0) else some ({ h with globalBase := block }, data block)
  else do
    let (block, last) ← freeBlockOrNah h h.globalBase size
    if block = 0 then
      let (h, block) ← extendHeap h last size grant
      if block = 0 then some (h, 0) else some (h, data block)
    else if SplitsPast h block size then none
    else some ({ h with mem := takeBlock h.mem block size }, data block)

def mmFree (h : Heap) (ptr : ℕ) : Heap :=
  if ptr = 0 then h
  else
    let block := ptr - sizeofSBlock
    { h with mem := (combineBlock (setFree h.mem block 1) block).1 }

/-- What `mm_realloc` does once `mm_malloc` has returned new memory: the contents move over. -/
def moveContents (m : Memory) (newPtr ptr size : ℕ) : Memory :=
  let blockSize := SBlock.size m (ptr - sizeofSBlock)
  if blockSize < size then (m.memset newPtr 0 size).memcpy newPtr ptr blockSize
  else m.memcpy newPtr ptr size

def mmRealloc (h : Heap) (ptr size : ℕ) (grant : Bool) : Option (Heap × ℕ) :=
  if ptr = 0 then mmMalloc h size grant
  else if size = 0 then some (h, 0)
  else do
    let (h, newPtr) ← mmMalloc h size grant
    if newPtr = 0 then some (h, 0)
    else some (mmFree { h with mem := moveContents h.mem newPtr ptr size } ptr, newPtr)

end Cs162
