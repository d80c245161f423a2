import Cs162.MmAlloc
import Mathlib.Data.List.Nodup

/-!
# The blocks of the heap

`Lays m a bs stop nx` says that memory holds the headers of the blocks `bs`, one behind the other
from `a` to `stop`, each linked to the next by its `next` field and the last one to `nx`. What a
block's `prev` field holds is recorded in the block and not restricted, because the allocator does
not keep it right. `Tiled` is `Lays` for the whole heap.

Each of the allocator's functions writes in the blocks it changes and nowhere else, so the blocks
before and after them stay (`Lays.congr`).
-/

namespace Cs162

open CLib CLib.Memory

/-- A block, with what its header says except for `next`. -/
structure Block where
  addr : ℕ
  prev : ℕ
  isFree : Bool
  size : ℕ

/-- The address behind the block's data. -/
def Block.stop (b : Block) : ℕ := b.addr + sizeofSBlock + b.size

structure HeaderAt (m : Memory) (b : Block) (nx : ℕ) : Prop where
  prev : SBlock.prev m b.addr = b.prev
  next : SBlock.next m b.addr = nx
  free : SBlock.free m b.addr = b.isFree.toNat
  size : SBlock.size m b.addr = b.size

/-- The address a list of blocks starts at, or else `nx`. -/
def firstAddr : List Block → ℕ → ℕ
  | [], nx => nx
  | b :: _, _ => b.addr

/-- The address of the last block, or else `last`. -/
def lastAddr : List Block → ℕ → ℕ
  | [], last => last
  | b :: bs, _ => lastAddr bs b.addr

def Lays (m : Memory) : ℕ → List Block → ℕ → ℕ → Prop
  | a, [], stop, _ => a = stop
  | a, b :: bs, stop, nx =>
    b.addr = a ∧ HeaderAt m b (firstAddr bs nx) ∧ Lays m b.stop bs stop nx

variable {m m' : Memory} {a b lo hi stop nx : ℕ} {bs xs ys : List Block}

/-! ## Headers -/

theorem setContentsSafe_only (m : Memory) (b next prev free s : ℕ) :
    Only b (b + sizeofSBlock) m (setContentsSafe m b next prev free s) := by
  unfold setContentsSafe sizeofSBlock
  refine ((((Only.refl _ _ m).store _ ?_).store _ ?_).store _ ?_).store _ ?_ <;> omega

theorem headerAt_setContentsSafe (m : Memory) {b : Block} (hnx : nx < 2 ^ 64)
    (hprev : b.prev < 2 ^ 64) (hsize : b.size < 2 ^ 64) :
    HeaderAt (setContentsSafe m b.addr nx b.prev b.isFree.toNat b.size) b nx := by
  have hfree : b.isFree.toNat < 2 ^ 32 := by cases b.isFree <;> decide
  unfold setContentsSafe SBlock.setNext SBlock.setPrev SBlock.setFree SBlock.setSize
  refine ⟨?_, ?_, ?_, ?_⟩
  · rw [SBlock.prev, load_store_of_disjoint (by omega), load_store_of_disjoint (by omega),
      load_store, Nat.mod_eq_of_lt (by omega)]
  · rw [SBlock.next, load_store_of_disjoint (by omega), load_store_of_disjoint (by omega),
      load_store_of_disjoint (by omega), load_store, Nat.mod_eq_of_lt (by omega)]
  · rw [SBlock.free, load_store_of_disjoint (by omega), load_store,
      Nat.mod_eq_of_lt (by omega)]
  · rw [SBlock.size, load_store, Nat.mod_eq_of_lt (by omega)]

theorem HeaderAt.congr {b : Block} (h : HeaderAt m b nx) (ho : Only lo hi m m')
    (hb : b.addr + sizeofSBlock ≤ lo ∨ hi ≤ b.addr) : HeaderAt m' b nx := by
  unfold sizeofSBlock at hb
  refine ⟨?_, ?_, ?_, ?_⟩
  · rw [← h.prev]
    exact ho.load (by omega)
  · rw [← h.next]
    exact ho.load (by omega)
  · rw [← h.free]
    exact ho.load (by omega)
  · rw [← h.size]
    exact ho.load (by omega)

theorem HeaderAt.setFree {b : Block} (h : HeaderAt m b nx) (f : Bool) :
    HeaderAt (SBlock.setFree m b.addr f.toNat) { b with isFree := f } nx := by
  unfold SBlock.setFree
  refine ⟨?_, ?_, ?_, ?_⟩
  · rw [← h.prev]
    exact load_store_of_disjoint (by simp only; omega)
  · rw [← h.next]
    exact load_store_of_disjoint (by simp only; omega)
  · have hf : f.toNat < 2 ^ 32 := by cases f <;> decide
    exact (load_store _ _ _).trans (Nat.mod_eq_of_lt (by omega))
  · rw [← h.size]
    exact load_store_of_disjoint (by simp only; omega)

theorem HeaderAt.setNext {b : Block} (h : HeaderAt m b nx) {v : ℕ} (hv : v < 2 ^ 64) :
    HeaderAt (SBlock.setNext m b.addr v) b v := by
  unfold SBlock.setNext
  refine ⟨?_, ?_, ?_, ?_⟩
  · rw [← h.prev]
    exact load_store_of_disjoint (by omega)
  · exact (load_store _ _ _).trans (Nat.mod_eq_of_lt (by omega))
  · rw [← h.free]
    exact load_store_of_disjoint (by omega)
  · rw [← h.size]
    exact load_store_of_disjoint (by omega)

theorem setFree_only (m : Memory) (b v : ℕ) :
    Only b (b + sizeofSBlock) m (SBlock.setFree m b v) :=
  (store_only _ _ _).mono (by omega) (by unfold sizeofSBlock; omega)

theorem setNext_only (m : Memory) (b v : ℕ) :
    Only b (b + sizeofSBlock) m (SBlock.setNext m b v) :=
  (store_only _ _ _).mono (by omega) (by unfold sizeofSBlock; omega)

/-! ## Rows of blocks -/

theorem firstAddr_append (xs ys : List Block) (nx : ℕ) :
    firstAddr (xs ++ ys) nx = firstAddr xs (firstAddr ys nx) := by
  cases xs <;> rfl

theorem lays_append : ∀ {xs : List Block} {a : ℕ}, Lays m a (xs ++ ys) stop nx
    ↔ ∃ mid, Lays m a xs mid (firstAddr ys nx) ∧ Lays m mid ys stop nx
  | [], a => by simp [Lays]
  | x :: xs, a => by
    simp only [List.cons_append, Lays, firstAddr_append, lays_append]
    constructor
    · rintro ⟨h1, h2, mid, h3, h4⟩
      exact ⟨mid, ⟨h1, h2, h3⟩, h4⟩
    · rintro ⟨mid, ⟨h1, h2, h3⟩, h4⟩
      exact ⟨h1, h2, mid, h3, h4⟩

theorem lays_append_cons {b : Block} : Lays m a (xs ++ b :: ys) stop nx
    ↔ Lays m a xs b.addr b.addr ∧ HeaderAt m b (firstAddr ys nx) ∧ Lays m b.stop ys stop nx := by
  rw [lays_append]
  constructor
  · rintro ⟨mid, h1, rfl, h2, h3⟩
    exact ⟨h1, h2, h3⟩
  · rintro ⟨h1, h2, h3⟩
    exact ⟨b.addr, h1, rfl, h2, h3⟩

theorem Lays.length_le : ∀ {bs : List Block} {a : ℕ}, Lays m a bs stop nx →
    a + sizeofSBlock * bs.length ≤ stop
  | [], a, h => by
    simp only [Lays] at h
    simp [h]
  | b :: bs, a, ⟨h1, _, h3⟩ => by
    have ih := h3.length_le
    simp only [Block.stop, List.length_cons, Nat.mul_succ] at ih ⊢
    omega

theorem Lays.le (h : Lays m a bs stop nx) : a ≤ stop :=
  (Nat.le_add_right _ _).trans h.length_le

theorem Lays.congr : ∀ {bs : List Block} {a : ℕ}, Lays m a bs stop nx → Only lo hi m m' →
    stop ≤ lo ∨ hi ≤ a → Lays m' a bs stop nx
  | [], _, h, _, _ => h
  | b :: bs, a, ⟨h1, h2, h3⟩, ho, hd => by
    have hle := h3.le
    unfold Block.stop at hle
    exact ⟨h1, h2.congr ho (by omega), h3.congr ho (by unfold Block.stop; omega)⟩

/-- Replacing the blocks between two rows by others that fill the same range. -/
theorem Lays.replace {pre post : List Block} {b b' : Block} (mid mid' : List Block)
    (h : Lays m a (pre ++ (b :: mid ++ post)) stop nx)
    (hmid : ∀ hi, Lays m b.addr (b :: mid) hi (firstAddr post nx) →
      Only b.addr hi m m' ∧ Lays m' b.addr (b' :: mid') hi (firstAddr post nx)) :
    Lays m' a (pre ++ (b' :: mid' ++ post)) stop nx := by
  obtain ⟨lo, h1, h2⟩ := lays_append.1 h
  obtain ⟨hi, h3, h4⟩ := lays_append.1 h2
  obtain rfl : b.addr = lo := h3.1
  obtain ⟨ho, h5⟩ := hmid hi h3
  have hb : b'.addr = b.addr := h5.1
  refine lays_append.2 ⟨b.addr, ?_, lays_append.2 ⟨hi, h5, h4.congr ho (.inr le_rfl)⟩⟩
  have h6 := h1.congr ho (.inl le_rfl)
  rwa [List.cons_append, firstAddr, hb]

theorem Lays.pairwise : ∀ {bs : List Block} {a : ℕ}, Lays m a bs stop nx →
    (∀ b ∈ bs, a ≤ b.addr ∧ b.stop ≤ stop) ∧ bs.Pairwise fun x y => x.stop ≤ y.addr
  | [], _, _ => ⟨by simp, .nil⟩
  | b :: bs, a, ⟨h1, _, h3⟩ => by
    obtain ⟨hmem, hpair⟩ := h3.pairwise
    have hle := h3.le
    have hstop : b.addr ≤ b.stop := by
      unfold Block.stop
      omega
    refine ⟨List.forall_mem_cons.2 ⟨⟨h1.ge, hle⟩, fun c hc => ?_⟩,
      .cons (fun c hc => (hmem c hc).1) hpair⟩
    have := hmem c hc
    omega

/-! ## The walk -/

/-- A block that `free_block_or_nah` takes. -/
def Block.Fits (b : Block) (size : ℕ) : Prop := b.isFree = true ∧ size ≤ b.size

theorem freeBlockLoop_fits {b : Block} {size : ℕ} (h : HeaderAt m b nx) (hfit : b.Fits size)
    (fuel last : ℕ) : freeBlockLoop m size (fuel + 1) b.addr last = some (b.addr, last) := by
  have hno : ¬ (b.addr ≠ 0 ∧ (SBlock.free m b.addr = 0 ∨ SBlock.size m b.addr < size)) := by
    rw [h.free, h.size, hfit.1]
    have := hfit.2
    simp [this]
  rw [freeBlockLoop, if_neg hno]

theorem freeBlockLoop_next {b : Block} {size : ℕ} (h : HeaderAt m b nx) (hfit : ¬ b.Fits size)
    (hne : b.addr ≠ 0) (fuel last : ℕ) :
    freeBlockLoop m size (fuel + 1) b.addr last = freeBlockLoop m size fuel nx b.addr := by
  have hgo : b.addr ≠ 0 ∧ (SBlock.free m b.addr = 0 ∨ SBlock.size m b.addr < size) := by
    refine ⟨hne, ?_⟩
    rw [h.free, h.size]
    unfold Block.Fits at hfit
    cases hf : b.isFree
    · exact .inl rfl
    · exact .inr (by simpa [hf] using hfit)
  rw [freeBlockLoop, if_pos hgo, h.next]

/-- The walk ends at the first block that fits, or behind the last block. -/
theorem freeBlockLoop_spec (size : ℕ) (h : Lays m a bs stop 0) (hpos : 0 < a) :
    ∀ fuel last : ℕ, bs.length < fuel →
    (∃ pre b post last', bs = pre ++ b :: post ∧ (∀ x ∈ pre, ¬ x.Fits size) ∧ b.Fits size ∧
      freeBlockLoop m size fuel (firstAddr bs 0) last = some (b.addr, last')) ∨
    (∀ x ∈ bs, ¬ x.Fits size) ∧
      freeBlockLoop m size fuel (firstAddr bs 0) last = some (0, lastAddr bs last) := by
  induction bs generalizing a with
  | nil =>
    intro fuel last hfuel
    obtain ⟨fuel, rfl⟩ := Nat.exists_eq_succ_of_ne_zero (Nat.ne_of_gt hfuel)
    right
    simp [firstAddr, freeBlockLoop, lastAddr]
  | cons b bs ih =>
    intro fuel last hfuel
    obtain ⟨fuel, rfl⟩ := Nat.exists_eq_succ_of_ne_zero (Nat.ne_of_gt (Nat.zero_lt_of_lt hfuel))
    obtain ⟨h1, h2, h3⟩ := h
    have hle : b.addr ≤ b.stop := by
      unfold Block.stop
      omega
    by_cases hfit : b.Fits size
    · left
      exact ⟨[], b, bs, last, rfl, by simp, hfit, freeBlockLoop_fits h2 hfit fuel last⟩
    · rw [firstAddr, freeBlockLoop_next h2 hfit (by omega)]
      rcases ih h3 (by omega) fuel b.addr (Nat.lt_of_succ_lt_succ hfuel) with
        ⟨pre, c, post, last', rfl, hpre, hc, hwalk⟩ | ⟨hno, hwalk⟩
      · left
        exact ⟨b :: pre, c, post, last', rfl, List.forall_mem_cons.2 ⟨hfit, hpre⟩, hc, hwalk⟩
      · right
        exact ⟨List.forall_mem_cons.2 ⟨hfit, hno⟩, hwalk⟩

/-! ## The heap -/

/-- The blocks of a list tile the heap. A `prev` field may be stale, but points below its block. -/
structure Tiled (h : Heap) (bs : List Block) : Prop where
  lays : Lays h.mem h.start bs h.brk 0
  base : h.globalBase = firstAddr bs 0
  back : ∀ b ∈ bs, b.prev = 0 ∨ b.prev + sizeofSBlock ≤ b.addr
  pos : 0 < h.start
  lt : h.brk < 2 ^ 64

/-- What `mm_malloc` does to the blocks of a heap that ends at `brk`, and the pointer it returns. -/
inductive Mallocs (bs : List Block) (brk size : ℕ) : ℕ → List Block → Prop
  | null : Mallocs bs brk size 0 bs
  | extend (hno : ∀ x ∈ bs, ¬ x.Fits size) : Mallocs bs brk size (SBlock.data brk)
      (bs ++ [⟨brk, lastAddr bs 0, false, size⟩])
  | whole (pre : List Block) (b : Block) (post : List Block) (hbs : bs = pre ++ b :: post)
      (hpre : ∀ x ∈ pre, ¬ x.Fits size) (hb : b.Fits size)
      (hlt : b.size < size + sizeofSBlock + 4) :
      Mallocs bs brk size (SBlock.data b.addr) (pre ++ { b with isFree := false } :: post)
  | split (pre : List Block) (b : Block) (post : List Block) (hbs : bs = pre ++ b :: post)
      (hpre : ∀ x ∈ pre, ¬ x.Fits size) (hb : b.Fits size)
      (hle : size + sizeofSBlock + 4 ≤ b.size) :
      Mallocs bs brk size (SBlock.data b.addr)
        (pre ++ { b with isFree := false, size := size } ::
          ⟨b.addr + sizeofSBlock + size, b.addr, true, b.size - size - sizeofSBlock⟩ :: post)

theorem sbrk_some {h h' : Heap} {s : ℕ} {grant : Bool} (hs : sizeofSBlock + s < 2 ^ 63)
    (hsbrk : sbrk h (word (sizeofSBlock + s)) grant = some h') :
    h' = { h with brk := h.brk + sizeofSBlock + s } ∧ h.brk + sizeofSBlock + s < 2 ^ 64 := by
  have hword : word (sizeofSBlock + s) = sizeofSBlock + s := Nat.mod_eq_of_lt (by omega)
  simp only [sbrk, hword, hs, if_true, Nat.cast_add] at hsbrk
  split_ifs at hsbrk with hc
  simp only [Option.some.injEq] at hsbrk
  have hbrk : ((h.brk : ℤ) + (sizeofSBlock + s)).toNat = h.brk + sizeofSBlock + s := by omega
  rw [hbrk] at hsbrk
  exact ⟨hsbrk.symm, by omega⟩

theorem lastAddr_append (xs : List Block) (b : Block) (last : ℕ) :
    lastAddr (xs ++ [b]) last = b.addr := by
  induction xs generalizing last with
  | nil => rfl
  | cons x xs ih => exact ih _

/-- An address that is not `0` is that of the last block. -/
theorem exists_lastAddr {bs : List Block} (hne : lastAddr bs 0 ≠ 0) :
    ∃ pre b, bs = pre ++ [b] ∧ b.addr = lastAddr bs 0 := by
  rcases bs.eq_nil_or_concat' with rfl | ⟨pre, b, rfl⟩
  · exact absurd rfl hne
  · exact ⟨pre, b, rfl, (lastAddr_append pre b 0).symm⟩

theorem sbrk_eq {h h' : Heap} {increment : ℕ} {grant : Bool}
    (hsbrk : sbrk h increment grant = some h') : ∃ brk, h' = { h with brk } := by
  simp only [sbrk, Option.ite_none_right_eq_some, Option.some.injEq] at hsbrk
  exact ⟨_, hsbrk.2.symm⟩

/-- The memory after `extend_heap`. -/
def extendedMem (h : Heap) (prevEnd s : ℕ) : Memory :=
  let m := if prevEnd ≠ 0 then SBlock.setNext h.mem prevEnd h.brk else h.mem
  (setContentsSafe m h.brk 0 prevEnd 0 s).memset (SBlock.data h.brk) 0 s

theorem extendHeap_refused {h : Heap} {prevEnd s : ℕ} {grant : Bool}
    (hsbrk : sbrk h (word (sizeofSBlock + s)) grant = none) :
    extendHeap h prevEnd s grant = some (h, 0) := by
  simp only [extendHeap, hsbrk]

theorem extendHeap_granted {h : Heap} {prevEnd s brk : ℕ} {grant : Bool}
    (hsbrk : sbrk h (word (sizeofSBlock + s)) grant = some { h with brk }) :
    extendHeap h prevEnd s grant = if SBlock.data h.brk + s ≤ brk then
      some ({ h with brk, mem := extendedMem h prevEnd s }, h.brk) else none := by
  simp only [extendHeap, hsbrk]
  rfl

theorem Tiled.addr_pos {h : Heap} (ht : Tiled h bs) {b : Block} (hb : b ∈ bs) :
    h.start ≤ b.addr ∧ 0 < b.addr ∧ b.stop ≤ h.brk := by
  have hmem := ht.lays.pairwise.1 b hb
  have := ht.pos
  exact ⟨hmem.1, by omega, hmem.2⟩

theorem Tiled.lastAddr_le {h : Heap} (ht : Tiled h bs) (hne : lastAddr bs 0 ≠ 0) :
    lastAddr bs 0 + sizeofSBlock ≤ h.brk := by
  obtain ⟨pre, b, rfl, haddr⟩ := exists_lastAddr hne
  have hstop := (ht.addr_pos (b := b) (by simp)).2.2
  rw [← haddr]
  unfold Block.stop at hstop
  omega

/-- The `next` field of the last block, if there is one, points to the break. -/
theorem Tiled.setNext_last {h : Heap} (ht : Tiled h bs) :
    Lays (if lastAddr bs 0 ≠ 0 then SBlock.setNext h.mem (lastAddr bs 0) h.brk else h.mem)
      h.start bs h.brk h.brk := by
  rcases bs.eq_nil_or_concat' with rfl | ⟨pre, b, rfl⟩
  · exact ht.lays
  · obtain ⟨h1, h2, h3⟩ := lays_append_cons.1 ht.lays
    have hb : b.addr ≠ 0 := (ht.addr_pos (b := b) (by simp)).2.1.ne'
    rw [lastAddr_append, if_pos hb]
    exact lays_append_cons.2 ⟨h1.congr (setNext_only _ _ _) (.inl le_rfl), h2.setNext ht.lt, h3⟩

/-- `extend_heap` behind the last block, where the increment is not negative. -/
theorem extendHeap_spec {h : Heap} (ht : Tiled h bs) {s brk : ℕ} {grant : Bool}
    (hs : sizeofSBlock + s < 2 ^ 63)
    (hsbrk : sbrk h (word (sizeofSBlock + s)) grant = some { h with brk }) :
    brk = SBlock.data h.brk + s ∧ brk < 2 ^ 64 ∧
      Lays (extendedMem h (lastAddr bs 0) s) h.start (bs ++ [⟨h.brk, lastAddr bs 0, false, s⟩])
        brk 0 := by
  obtain ⟨heq, hlt⟩ := sbrk_some hs hsbrk
  obtain rfl : brk = h.brk + sizeofSBlock + s := congrArg Heap.brk heq
  refine ⟨rfl, hlt, ?_⟩
  unfold extendedMem
  set new : Block := ⟨h.brk, lastAddr bs 0, false, s⟩ with hnew
  set m := if lastAddr bs 0 ≠ 0 then SBlock.setNext h.mem (lastAddr bs 0) h.brk else h.mem
  have hold : Lays m h.start bs h.brk h.brk := ht.setNext_last
  have hlast : lastAddr bs 0 < 2 ^ 64 := by
    rcases eq_or_ne (lastAddr bs 0) 0 with h0 | hne
    · rw [h0]
      exact Nat.two_pow_pos 64
    · have hle := ht.lastAddr_le hne
      have hbrk := ht.lt
      omega
  have hwrite : Only h.brk (h.brk + sizeofSBlock) m (setContentsSafe m h.brk 0 (lastAddr bs 0) 0 s) :=
    setContentsSafe_only _ _ _ _ _ _
  have hset : Only (SBlock.data h.brk) (SBlock.data h.brk + s)
      (setContentsSafe m h.brk 0 (lastAddr bs 0) 0 s) _ := memset_only _ 0 _
  refine lays_append_cons.2 ⟨(hold.congr hwrite (.inl le_rfl)).congr hset (.inl ?_), ?_, ?_⟩
  · unfold SBlock.data
    omega
  · have hsize : new.size < 2 ^ 64 := by
      simp only [hnew]
      omega
    exact (headerAt_setContentsSafe m (b := new) (Nat.two_pow_pos 64) hlast hsize).congr hset
      (.inl le_rfl)
  · simp only [hnew, Block.stop, Lays]

/-! ## Taking a block -/

theorem prev_lt (m : Memory) (b : ℕ) : SBlock.prev m b < 2 ^ 64 := load_lt b 8

/-- Zeroing a block's data and marking it taken. -/
theorem lays_take {pre post : List Block} {b : Block} (h : Lays m a (pre ++ b :: post) stop nx) :
    Lays (SBlock.setFree (m.memset (SBlock.data b.addr) 0 (SBlock.size m b.addr)) b.addr 0) a
      (pre ++ { b with isFree := false } :: post) stop nx := by
  refine h.replace [] [] fun hi hb => ?_
  obtain ⟨-, h2, h3⟩ := hb
  obtain rfl : b.stop = hi := h3
  rw [h2.size]
  have hset : Only (SBlock.data b.addr) (SBlock.data b.addr + b.size) m
      (m.memset (SBlock.data b.addr) 0 b.size) := memset_only _ _ _
  have hfree := (h2.congr hset (.inl le_rfl)).setFree false
  refine ⟨(hset.mono ?_ le_rfl).trans ((setFree_only _ _ _).mono le_rfl ?_), rfl, hfree, rfl⟩
  · exact Nat.le_add_right _ _
  · unfold SBlock.data
    omega

/-- The header `split_block_safe` writes for the second block. -/
theorem headerAt_second (m : Memory) {b : Block} (nx : ℕ) (hfree : b.isFree = true) (hnx : nx < 2 ^ 64)
    (hprev : b.prev < 2 ^ 64) (hsize : b.size < 2 ^ 64) :
    HeaderAt (SBlock.setSize (SBlock.setPrev (SBlock.setNext (SBlock.setFree m b.addr 1) b.addr nx)
      b.addr b.prev) b.addr b.size) b nx := by
  unfold SBlock.setNext SBlock.setPrev SBlock.setFree SBlock.setSize
  refine ⟨?_, ?_, ?_, ?_⟩
  · rw [SBlock.prev, load_store_of_disjoint (by omega), load_store, Nat.mod_eq_of_lt (by omega)]
  · rw [SBlock.next, load_store_of_disjoint (by omega), load_store_of_disjoint (by omega),
      load_store, Nat.mod_eq_of_lt (by omega)]
  · rw [SBlock.free, load_store_of_disjoint (by omega), load_store_of_disjoint (by omega),
      load_store_of_disjoint (by omega), load_store, hfree]
    rfl
  · rw [SBlock.size, load_store, Nat.mod_eq_of_lt (by omega)]

theorem second_only (m : Memory) (b nx pv s : ℕ) : Only b (b + sizeofSBlock) m
    (SBlock.setSize (SBlock.setPrev (SBlock.setNext (SBlock.setFree m b 1) b nx) b pv) b s) := by
  unfold SBlock.setNext SBlock.setPrev SBlock.setFree SBlock.setSize sizeofSBlock
  refine ((((Only.refl _ _ m).store _ ?_).store _ ?_).store _ ?_).store _ ?_ <;> omega

theorem Lays.firstAddr_le (h : Lays m a bs stop nx) : firstAddr bs nx ≤ max stop nx := by
  rcases bs with _ | ⟨b, bs⟩
  · exact le_max_right _ _
  · have := h.le
    have : b.addr = a := h.1
    simp only [firstAddr]
    omega

/-- What `split_block_safe` writes, where nothing wraps. -/
theorem splitBlockSafe_eq {b : Block} {size : ℕ} (h : HeaderAt m b nx) (hlt : b.stop < 2 ^ 64)
    (hle : size + sizeofSBlock + 4 ≤ b.size) :
    splitBlockSafe m b.addr size =
      let second := b.addr + sizeofSBlock + size
      let m := (setContentsSafe m b.addr second b.prev 0 size).memset (SBlock.data b.addr) 0 size
      SBlock.setSize (SBlock.setPrev (SBlock.setNext (SBlock.setFree m second 1) second nx) second
        b.addr) second (b.size - size - sizeofSBlock) := by
  unfold Block.stop at hlt
  have hsecond : word (b.addr + sizeofSBlock + size) = b.addr + sizeofSBlock + size :=
    Nat.mod_eq_of_lt (by omega)
  have hrest : word (b.size + 2 ^ 64 - size + 2 ^ 64 - sizeofSBlock)
      = b.size - size - sizeofSBlock := by
    unfold word
    rw [show b.size + 2 ^ 64 - size + 2 ^ 64 - sizeofSBlock
      = b.size - size - sizeofSBlock + 2 ^ 64 + 2 ^ 64 by omega, Nat.add_mod_right,
      Nat.add_mod_right, Nat.mod_eq_of_lt (by omega)]
  have hne : b.addr + sizeofSBlock + size ≠ 0 := by
    unfold sizeofSBlock
    omega
  simp only [splitBlockSafe, h.size, h.prev, h.next, hsecond, hrest, if_pos hne]

theorem splitBlockSafe_only {b : Block} {size : ℕ} (h : HeaderAt m b nx) (hlt : b.stop < 2 ^ 64)
    (hle : size + sizeofSBlock + 4 ≤ b.size) :
    Only b.addr b.stop m (splitBlockSafe m b.addr size) := by
  rw [splitBlockSafe_eq h hlt hle]
  refine ((setContentsSafe_only _ _ _ _ _ _).mono le_rfl ?_).trans
    (((memset_only _ _ _).mono ?_ ?_).trans ((second_only _ _ _ _ _).mono ?_ ?_))
  · unfold Block.stop
    omega
  · exact Nat.le_add_right _ _
  · unfold SBlock.data Block.stop
    omega
  · omega
  · unfold Block.stop
    omega

theorem splitBlockSafe_spec {pre post : List Block} {b : Block} {size : ℕ}
    (h : Lays m a (pre ++ b :: post) stop 0) (hlt : stop < 2 ^ 64)
    (hle : size + sizeofSBlock + 4 ≤ b.size) :
    Lays (splitBlockSafe m b.addr size) a (pre ++ { b with isFree := false, size := size } ::
      ⟨b.addr + sizeofSBlock + size, b.addr, true, b.size - size - sizeofSBlock⟩ :: post) stop 0 := by
  obtain ⟨-, -, hpost⟩ := lays_append_cons.1 h
  have hstop := hpost.le
  have hfirst := hpost.firstAddr_le
  refine h.replace [] [_] fun hi hb => ?_
  obtain ⟨-, h2, h3⟩ := hb
  obtain rfl : b.stop = hi := h3
  refine ⟨splitBlockSafe_only h2 (by omega) hle, ?_⟩
  rw [splitBlockSafe_eq h2 (by omega) hle]
  unfold Block.stop at hstop
  set first : Block := { b with isFree := false, size := size } with hfirstDef
  set second : Block :=
    ⟨b.addr + sizeofSBlock + size, b.addr, true, b.size - size - sizeofSBlock⟩ with hsecondDef
  have hprev : b.prev < 2 ^ 64 := h2.prev ▸ prev_lt _ _
  have h5 : HeaderAt (setContentsSafe m b.addr (b.addr + sizeofSBlock + size) b.prev 0 size) first
      (b.addr + sizeofSBlock + size) :=
    headerAt_setContentsSafe m (b := first) (by omega) hprev (by simp only [hfirstDef]; omega)
  set m₁ := setContentsSafe m b.addr (b.addr + sizeofSBlock + size) b.prev 0 size with hm₁
  have hset : Only (SBlock.data b.addr) (SBlock.data b.addr + size) m₁
      (m₁.memset (SBlock.data b.addr) 0 size) := memset_only _ _ _
  have hsnd := second_only (m₁.memset (SBlock.data b.addr) 0 size)
    (b.addr + sizeofSBlock + size) (firstAddr post 0) b.addr (b.size - size - sizeofSBlock)
  refine ⟨rfl, (h5.congr hset (.inl le_rfl)).congr hsnd (.inl ?_), rfl, ?_, ?_⟩
  · simp only [hfirstDef]
    omega
  · exact headerAt_second (m₁.memset (SBlock.data b.addr) 0 size) (b := second)
      (firstAddr post 0) rfl (by omega) (by simp only [hsecondDef]; omega)
      (by simp only [hsecondDef]; omega)
  · simp only [Lays, hsecondDef, Block.stop]
    omega

/-! ## Merging -/

theorem lays_merge {pre post : List Block} {b c : Block}
    (h : Lays m a (pre ++ b :: c :: post) stop 0) (hlt : stop < 2 ^ 64) :
    Lays (setContentsSafe m b.addr (firstAddr post 0) b.prev 1 (word (b.size + sizeofSBlock + c.size)))
      a (pre ++ { b with isFree := true, size := b.size + sizeofSBlock + c.size } :: post) stop 0 := by
  obtain ⟨-, -, -, -, hpost⟩ := lays_append_cons.1 h
  have hstop := hpost.le
  have hfirst := hpost.firstAddr_le
  refine h.replace [c] [] fun hi hb => ?_
  obtain ⟨-, h2, h3, -, h4⟩ := hb
  obtain rfl : c.stop = hi := h4
  unfold Block.stop at hstop h3
  have hsize : word (b.size + sizeofSBlock + c.size) = b.size + sizeofSBlock + c.size :=
    Nat.mod_eq_of_lt (by omega)
  rw [hsize]
  set merged : Block := { b with isFree := true, size := b.size + sizeofSBlock + c.size } with hm
  refine ⟨(setContentsSafe_only _ _ _ _ _ _).mono le_rfl ?_, rfl,
    headerAt_setContentsSafe m (b := merged) (by omega) (h2.prev ▸ prev_lt _ _)
      (by simp only [hm]; omega), ?_⟩
  · unfold Block.stop
    omega
  · simp only [Lays, hm, Block.stop]
    omega

/-- The blocks from a freed block on, after the first half of `combine_block`. -/
def mergeNext (b : Block) : List Block → List Block
  | [] => [b]
  | c :: post =>
    if c.isFree then { b with isFree := true, size := b.size + sizeofSBlock + c.size } :: post
    else b :: c :: post

theorem combineNext_spec {pre post : List Block} {b : Block}
    (h : Lays m a (pre ++ b :: post) stop 0) (hpos : 0 < a) (hlt : stop < 2 ^ 64) :
    Lays (combineNext m b.addr) a (pre ++ mergeNext b post) stop 0 := by
  obtain ⟨h1, h2, h3⟩ := lays_append_cons.1 h
  unfold combineNext
  rcases post with _ | ⟨c, post⟩
  · rw [if_neg (by rw [h2.next]; simp [firstAddr])]
    exact h
  · obtain ⟨h4, h5, h6⟩ := h3
    have hne : c.addr ≠ 0 := by
      have := h1.le
      unfold Block.stop at h4
      omega
    have hnext : SBlock.next m b.addr = c.addr := h2.next
    rw [hnext, h5.free, mergeNext]
    cases hc : c.isFree
    · rw [if_neg (by simp), if_neg (by simp)]
      exact h
    · rw [if_pos ⟨hne, rfl⟩, if_pos rfl]
      simp only [h5.next, h5.size, h2.prev, h2.size]
      exact lays_merge h hlt

theorem combineNext_only (m : Memory) (b : ℕ) :
    Only b (b + sizeofSBlock) m (combineNext m b) := by
  simp only [combineNext]
  split_ifs
  · exact setContentsSafe_only _ _ _ _ _ _
  · exact Only.refl _ _ _

theorem combinePrev_merge {pre post : List Block} {p b : Block}
    (h : Lays m a (pre ++ p :: b :: post) stop 0) (hlt : stop < 2 ^ 64)
    (hback : b.prev ≠ 0 ∧ SBlock.free m b.prev = 1) (hprev : b.prev = p.addr) :
    Lays (combinePrev m b.addr).1 a
      (pre ++ { p with isFree := true, size := p.size + sizeofSBlock + b.size } :: post) stop 0 := by
  obtain ⟨-, h1, -, h2, -⟩ := lays_append_cons.1 h
  simp only [combinePrev, h2.prev, if_pos hback, h2.next, h2.size]
  rw [hprev, h1.prev, h1.size]
  exact lays_merge h hlt

theorem combinePrev_alone {b : ℕ}
    (h : ¬ (SBlock.prev m b ≠ 0 ∧ SBlock.free m (SBlock.prev m b) = 1)) :
    combinePrev m b = (m, b) := by
  rw [combinePrev, if_neg h]

/-- What `mm_free` does to the blocks `pre ++ b :: post`. -/
inductive Frees (pre : List Block) (b : Block) (post : List Block) : List Block → Prop
  | alone (hno : ∀ pre' p, pre = pre' ++ [p] → p.isFree = true → b.prev ≠ p.addr) :
      Frees pre b post (pre ++ mergeNext { b with isFree := true } post)
  | back (pre' : List Block) (p b' : Block) (post' : List Block) (hpre : pre = pre' ++ [p])
      (hp : p.isFree = true) (hprev : b.prev = p.addr)
      (hb : mergeNext { b with isFree := true } post = b' :: post') :
      Frees pre b post
        (pre' ++ { p with isFree := true, size := p.size + sizeofSBlock + b'.size } :: post')

theorem mergeNext_eq (b : Block) (post : List Block) :
    ∃ b' post', mergeNext b post = b' :: post' ∧ b'.addr = b.addr ∧ b'.prev = b.prev := by
  rcases post with _ | ⟨c, post⟩
  · exact ⟨b, [], rfl, rfl, rfl⟩
  · rw [mergeNext]
    split_ifs
    · exact ⟨_, _, rfl, rfl, rfl⟩
    · exact ⟨_, _, rfl, rfl, rfl⟩

theorem lays_setFree {pre post : List Block} {b : Block} (h : Lays m a (pre ++ b :: post) stop nx)
    (f : Bool) :
    Lays (SBlock.setFree m b.addr f.toNat) a (pre ++ { b with isFree := f } :: post) stop nx := by
  refine h.replace [] [] fun hi hb => ?_
  obtain ⟨-, h1, h2⟩ := hb
  obtain rfl : b.stop = hi := h2
  refine ⟨(setFree_only _ _ _).mono le_rfl ?_, rfl, h1.setFree f, rfl⟩
  unfold Block.stop
  omega

/-- `combine_block` of a block just marked free, whose `prev` field is right if it is used. -/
theorem combineBlock_spec {pre post : List Block} {b : Block}
    (h : Lays m a (pre ++ b :: post) stop 0) (hpos : 0 < a) (hlt : stop < 2 ^ 64)
    (hb : b.prev = 0 ∨ b.prev + sizeofSBlock ≤ b.addr)
    (hprev : b.prev ≠ 0 → SBlock.free m b.prev = 1 → ∃ pre' p, pre = pre' ++ [p] ∧
      p.addr = b.prev) :
    ∃ bs', Frees pre b post bs' ∧
      Lays (combineBlock (SBlock.setFree m b.addr 1) b.addr).1 a bs' stop 0 := by
  have hfreed := lays_setFree h true
  have hnext := combineNext_spec hfreed hpos hlt
  have honly : Only b.addr (b.addr + sizeofSBlock) m
      (combineNext (SBlock.setFree m b.addr 1) b.addr) :=
    (setFree_only _ _ _).trans (combineNext_only _ _)
  obtain ⟨b', post', hmerge, haddr, hprev'⟩ := mergeNext_eq { b with isFree := true } post
  change b'.addr = b.addr at haddr
  change b'.prev = b.prev at hprev'
  unfold combineBlock
  change Lays (combineNext (SBlock.setFree m b.addr 1) b.addr) a _ stop 0 at hnext
  generalize combineNext (SBlock.setFree m b.addr 1) b.addr = m₁ at hnext honly ⊢
  have hnext' := hnext
  rw [hmerge] at hnext'
  obtain ⟨-, h1, -⟩ := lays_append_cons.1 hnext'
  by_cases hback : b.prev ≠ 0 ∧ SBlock.free m₁ b.prev = 1
  · have hsame : SBlock.free m₁ b.prev = SBlock.free m b.prev :=
      honly.load (.inl (by unfold sizeofSBlock at hb; omega))
    obtain ⟨pre', p, rfl, hp⟩ := hprev hback.1 (hsame ▸ hback.2)
    rw [List.append_assoc, List.singleton_append] at hnext'
    obtain ⟨-, h2, -⟩ := lays_append_cons.1 hnext'
    have hpfree : p.isFree = true := by
      have hfree := hback.2
      rw [← hp, h2.free] at hfree
      cases hf : p.isFree
      · simp [hf] at hfree
      · rfl
    refine ⟨_, .back pre' p b' post' rfl hpfree hp.symm hmerge, ?_⟩
    rw [← haddr]
    exact combinePrev_merge hnext' hlt (hprev' ▸ hback) (by rw [hprev', hp])
  · rw [combinePrev_alone (by rwa [← haddr, h1.prev, hprev'])]
    refine ⟨_, .alone fun pre' p hpre hp hbp => hback ?_, hnext⟩
    subst hpre
    have hnext'' := hnext
    rw [List.append_assoc, List.singleton_append] at hnext''
    obtain ⟨hlo, h2, -⟩ := lays_append_cons.1 hnext''
    have hle := hlo.le
    rw [hbp, h2.free, hp]
    exact ⟨by omega, rfl⟩

/-! ## The functions on the heap -/

theorem Tiled.nodup {h : Heap} (ht : Tiled h bs) : (bs.map Block.addr).Nodup := by
  refine List.pairwise_map.2 (ht.lays.pairwise.2.imp fun {x y} hxy => ?_)
  unfold Block.stop sizeofSBlock at hxy
  omega

theorem Tiled.addr_inj {h : Heap} (ht : Tiled h bs) {x y : Block} (hx : x ∈ bs) (hy : y ∈ bs)
    (hxy : x.addr = y.addr) : x = y := List.inj_on_of_nodup_map ht.nodup hx hy hxy

theorem lastAddr_eq (hne : bs ≠ []) (x y : ℕ) : lastAddr bs x = lastAddr bs y := by
  rcases bs with _ | ⟨b, bs⟩
  · exact absurd rfl hne
  · rfl

theorem takeBlock_whole {pre post : List Block} {b : Block} {size : ℕ}
    (h : Lays m a (pre ++ b :: post) stop 0) (hsize : size + sizeofSBlock + 4 < 2 ^ 64)
    (hlt : b.size < size + sizeofSBlock + 4) :
    Lays (takeBlock m b.addr size) a (pre ++ { b with isFree := false } :: post) stop 0 := by
  obtain ⟨-, hhead, -⟩ := lays_append_cons.1 h
  have hwhole : SBlock.size m b.addr < word (size + sizeofSBlock + 4) := by
    rw [hhead.size, word, Nat.mod_eq_of_lt hsize]
    exact hlt
  rw [takeBlock, if_pos hwhole]
  exact lays_take h

theorem takeBlock_split {pre post : List Block} {b : Block} {size : ℕ}
    (h : Lays m a (pre ++ b :: post) stop 0) (hlt : stop < 2 ^ 64)
    (hsize : size + sizeofSBlock + 4 < 2 ^ 64) (hle : size + sizeofSBlock + 4 ≤ b.size) :
    Lays (takeBlock m b.addr size) a (pre ++ { b with isFree := false, size := size } ::
      ⟨b.addr + sizeofSBlock + size, b.addr, true, b.size - size - sizeofSBlock⟩ :: post) stop 0 := by
  obtain ⟨-, hhead, -⟩ := lays_append_cons.1 h
  have hsplit : ¬ SBlock.size m b.addr < word (size + sizeofSBlock + 4) := by
    rw [hhead.size, word, Nat.mod_eq_of_lt hsize]
    omega
  rw [takeBlock, if_neg hsplit]
  exact lays_take (splitBlockSafe_spec h hlt hle)

theorem freeBlockOrNah_spec {h : Heap} (ht : Tiled h bs) (hne : bs ≠ []) (size : ℕ) :
    (∃ pre b post last, bs = pre ++ b :: post ∧ (∀ x ∈ pre, ¬ x.Fits size) ∧ b.Fits size ∧
      freeBlockOrNah h h.globalBase size = some (b.addr, last)) ∨
    (∀ x ∈ bs, ¬ x.Fits size) ∧
      freeBlockOrNah h h.globalBase size = some (0, lastAddr bs 0) := by
  have hlen := ht.lays.length_le
  have hlt := ht.lt
  unfold sizeofSBlock at hlen
  have hfuel : bs.length < 2 ^ 64 := by omega
  have hwalk := freeBlockLoop_spec size ht.lays ht.pos (2 ^ 64) h.globalBase hfuel
  rw [lastAddr_eq hne h.globalBase 0, ← ht.base] at hwalk
  exact hwalk

/-- The second header of a split lies in the block, unless the sum wraps. -/
theorem Tiled.not_splitsPast {h : Heap} {pre post : List Block} {b : Block}
    (ht : Tiled h (pre ++ b :: post)) {size : ℕ} (hsize : size + sizeofSBlock + 4 < 2 ^ 64) :
    ¬ SplitsPast h b.addr size := by
  rintro ⟨hle, hlt⟩
  obtain ⟨-, hhead, -⟩ := lays_append_cons.1 ht.lays
  have hstop := (ht.addr_pos (b := b) (by simp)).2.2
  rw [word, Nat.mod_eq_of_lt hsize, hhead.size] at hle
  unfold Block.stop at hstop
  unfold SBlock.data at hlt
  omega

/-- `mm_malloc` takes the first block that fits, or else extends the heap if `sbrk` is granted. -/
theorem mmMalloc_cases {h : Heap} (ht : Tiled h bs) {size : ℕ} (h0 : size ≠ 0) (grant : Bool) :
    (∃ pre b post, bs = pre ++ b :: post ∧ (∀ x ∈ pre, ¬ x.Fits size) ∧ b.Fits size ∧
      mmMalloc h size grant = if SplitsPast h b.addr size then none else
        some ({ h with mem := takeBlock h.mem b.addr size }, SBlock.data b.addr)) ∨
    (∀ x ∈ bs, ¬ x.Fits size) ∧
      (sbrk h (word (sizeofSBlock + size)) grant = none ∧ mmMalloc h size grant = some (h, 0) ∨
      ∃ brk, sbrk h (word (sizeofSBlock + size)) grant = some { h with brk } ∧
        mmMalloc h size grant = if SBlock.data h.brk + size ≤ brk then
          some ({ h with brk, mem := extendedMem h (lastAddr bs 0) size,
                         globalBase := firstAddr bs h.brk }, SBlock.data h.brk) else none) := by
  have hbrk : h.brk ≠ 0 := by
    have hle := ht.lays.le
    have hpos := ht.pos
    omega
  rcases bs with _ | ⟨c, bs⟩
  · refine .inr ⟨by simp, ?_⟩
    have hbase : h.globalBase = 0 := ht.base
    rw [mmMalloc, if_neg h0, if_pos hbase]
    rcases hsbrk : sbrk h (word (sizeofSBlock + size)) grant with _ | h₁
    · exact .inl ⟨rfl, by rw [extendHeap_refused hsbrk]; rfl⟩
    · obtain ⟨brk, rfl⟩ := sbrk_eq hsbrk
      refine .inr ⟨brk, rfl, ?_⟩
      rw [extendHeap_granted hsbrk]
      split_ifs
      · simp only [Option.bind_eq_bind, Option.bind_some, if_neg hbrk]
        rfl
      · rfl
  have hbase : h.globalBase = c.addr := ht.base
  have hne : h.globalBase ≠ 0 := by
    rw [hbase]
    exact (ht.addr_pos List.mem_cons_self).2.1.ne'
  rw [mmMalloc, if_neg h0, if_neg hne]
  rcases freeBlockOrNah_spec ht (List.cons_ne_nil c bs) size with
    ⟨pre, b, post, last, heq, hpre, hfit, hwalk⟩ | ⟨hno, hwalk⟩
  · refine .inl ⟨pre, b, post, heq, hpre, hfit, ?_⟩
    have hb : b.addr ≠ 0 := (ht.addr_pos (b := b) (heq ▸ by simp)).2.1.ne'
    rw [hwalk]
    exact if_neg hb
  · refine .inr ⟨hno, ?_⟩
    rw [hwalk]
    simp only [Option.bind_eq_bind, Option.bind_some, if_true]
    rcases hsbrk : sbrk h (word (sizeofSBlock + size)) grant with _ | h₁
    · exact .inl ⟨rfl, by rw [extendHeap_refused hsbrk]; rfl⟩
    · obtain ⟨brk, rfl⟩ := sbrk_eq hsbrk
      refine .inr ⟨brk, rfl, ?_⟩
      rw [extendHeap_granted hsbrk]
      split_ifs
      · simp only [Option.bind_some, if_neg hbrk, firstAddr, hbase]
      · rfl

/-- `mm_malloc` where a block is found. -/
theorem mmMalloc_found {h : Heap} {pre post : List Block} {b : Block}
    (ht : Tiled h (pre ++ b :: post)) {size : ℕ} (hsize : size + sizeofSBlock + 4 < 2 ^ 64)
    (hpre : ∀ x ∈ pre, ¬ x.Fits size) (hfit : b.Fits size) :
    ∃ bs', Mallocs (pre ++ b :: post) h.brk size (SBlock.data b.addr) bs' ∧
      Tiled { h with mem := takeBlock h.mem b.addr size } bs' := by
  by_cases hlt : b.size < size + sizeofSBlock + 4
  · refine ⟨_, .whole pre b post rfl hpre hfit hlt, takeBlock_whole ht.lays hsize hlt, ?_, ?_,
      ht.pos, ht.lt⟩
    · rw [ht.base, firstAddr_append, firstAddr_append]
      rfl
    · have hback := ht.back
      simp only [List.forall_mem_append, List.forall_mem_cons] at hback ⊢
      exact hback
  · refine ⟨_, .split pre b post rfl hpre hfit (by omega),
      takeBlock_split ht.lays ht.lt hsize (by omega), ?_, ?_, ht.pos, ht.lt⟩
    · rw [ht.base, firstAddr_append, firstAddr_append]
      rfl
    · have hback := ht.back
      simp only [List.forall_mem_append, List.forall_mem_cons] at hback ⊢
      exact ⟨hback.1, hback.2.1, .inr (by omega), hback.2.2⟩

/-- The heap that `mm_malloc` has extended. -/
theorem mmMalloc_extend {h : Heap} (ht : Tiled h bs) {size brk : ℕ} {grant : Bool}
    (hs : sizeofSBlock + size < 2 ^ 63)
    (hsbrk : sbrk h (word (sizeofSBlock + size)) grant = some { h with brk }) :
    brk = SBlock.data h.brk + size ∧
      Tiled { h with brk, mem := extendedMem h (lastAddr bs 0) size,
                     globalBase := firstAddr bs h.brk }
        (bs ++ [⟨h.brk, lastAddr bs 0, false, size⟩]) := by
  obtain ⟨hbrk, hlt, hlays⟩ := extendHeap_spec ht hs hsbrk
  refine ⟨hbrk, hlays, by rw [firstAddr_append]; rfl, ?_, ht.pos, hlt⟩
  intro x hx
  rcases List.mem_append.1 hx with hx | hx
  · exact ht.back x hx
  · rw [List.mem_singleton] at hx
    rw [hx]
    rcases eq_or_ne (lastAddr bs 0) 0 with h0 | hne
    · exact .inl h0
    · exact .inr (ht.lastAddr_le hne)

/-- `mm_malloc` on a tiled heap: it returns, and leaves the heap tiled. -/
theorem mmMalloc_spec {h : Heap} (ht : Tiled h bs) {size : ℕ} {grant : Bool}
    (hsize : size + sizeofSBlock + 4 < 2 ^ 64)
    (hgrant : grant = true → size + sizeofSBlock < 2 ^ 63) :
    ∃ h' p bs', mmMalloc h size grant = some (h', p) ∧ Mallocs bs h.brk size p bs' ∧
      Tiled h' bs' := by
  by_cases h0 : size = 0
  · exact ⟨h, 0, bs, by simp [mmMalloc, h0], .null, ht⟩
  rcases mmMalloc_cases ht h0 grant with ⟨pre, b, post, rfl, hpre, hfit, hmalloc⟩ |
    ⟨hno, ⟨-, hmalloc⟩ | ⟨brk, hsbrk, hmalloc⟩⟩
  · obtain ⟨bs', hm, ht'⟩ := mmMalloc_found ht hsize hpre hfit
    rw [if_neg (ht.not_splitsPast hsize)] at hmalloc
    exact ⟨_, _, bs', hmalloc, hm, ht'⟩
  · exact ⟨h, 0, bs, hmalloc, .null, ht⟩
  · have hs : sizeofSBlock + size < 2 ^ 63 := by
      rw [Nat.add_comm]
      refine hgrant (by_contra fun hrefused => ?_)
      simp [sbrk, hrefused] at hsbrk
    obtain ⟨hbrk, ht'⟩ := mmMalloc_extend ht hs hsbrk
    rw [if_pos hbrk.ge] at hmalloc
    exact ⟨_, _, _, hmalloc, .extend hno, ht'⟩

/-! ## What stays -/

theorem Mallocs.kept {brk size p : ℕ} {bs' : List Block} (h : Mallocs bs brk size p bs')
    {x : Block} (hx : x ∈ bs) (hused : x.isFree = false) : x ∈ bs' := by
  cases h with
  | null => exact hx
  | extend => exact List.mem_append_left _ hx
  | whole pre b post hbs hpre hb | split pre b post hbs hpre hb =>
    rw [hbs] at hx
    rcases List.mem_append.1 hx with hx | hx
    · exact List.mem_append_left _ hx
    · rcases List.mem_cons.1 hx with rfl | hx
      · rw [hb.1] at hused
        cases hused
      · simp [hx]

/-- The block behind the pointer returned was not in use. -/
theorem Mallocs.fresh {h : Heap} (ht : Tiled h bs) {size p : ℕ} {bs' : List Block}
    (hm : Mallocs bs h.brk size p bs') (hp : p ≠ 0) :
    ∃ x ∈ bs', p = SBlock.data x.addr ∧ x.isFree = false ∧ size ≤ x.size ∧
      ∀ y ∈ bs, y.isFree = false → y.addr ≠ x.addr := by
  cases hm with
  | null => exact absurd rfl hp
  | extend =>
    refine ⟨_, List.mem_append_right _ (List.mem_singleton.2 rfl), rfl, rfl, le_rfl, ?_⟩
    intro y hy _
    have := (ht.addr_pos hy).2.2
    unfold Block.stop sizeofSBlock at this
    simp only
    omega
  | whole pre b post hbs hpre hb =>
    refine ⟨_, List.mem_append_right _ List.mem_cons_self, rfl, rfl, hb.2, ?_⟩
    intro y hy hused haddr
    have hb' : b ∈ bs := by simp [hbs]
    have hyb := ht.addr_inj hy hb' haddr
    rw [hyb, hb.1] at hused
    cases hused
  | split pre b post hbs hpre hb =>
    refine ⟨_, List.mem_append_right _ List.mem_cons_self, rfl, rfl, le_rfl, ?_⟩
    intro y hy hused haddr
    have hb' : b ∈ bs := by simp [hbs]
    have hyb := ht.addr_inj hy hb' haddr
    rw [hyb, hb.1] at hused
    cases hused

theorem mem_tail_mergeNext {b x : Block} {post : List Block} (hx : x ∈ post)
    (hused : x.isFree = false) : x ∈ (mergeNext b post).tail := by
  rcases post with _ | ⟨c, post⟩
  · cases hx
  · rw [mergeNext]
    split_ifs with hc
    · rcases List.mem_cons.1 hx with rfl | hx
      · rw [hc] at hused
        cases hused
      · exact hx
    · exact hx

theorem mergeNext_origin {b x : Block} {post : List Block} (hx : x ∈ mergeNext b post) :
    ∃ y ∈ b :: post, x.addr = y.addr ∧ x.prev = y.prev := by
  rcases post with _ | ⟨c, post⟩
  · exact ⟨x, hx, rfl, rfl⟩
  · rw [mergeNext] at hx
    split_ifs at hx
    · rcases List.mem_cons.1 hx with rfl | hx
      · exact ⟨b, List.mem_cons_self, rfl, rfl⟩
      · exact ⟨x, by simp [hx], rfl, rfl⟩
    · exact ⟨x, hx, rfl, rfl⟩

section Frees

variable {pre post bs' : List Block} {b : Block}

theorem Frees.kept (h : Frees pre b post bs') {x : Block} (hx : x ∈ pre ∨ x ∈ post)
    (hused : x.isFree = false) : x ∈ bs' := by
  cases h with
  | alone =>
    rcases hx with hx | hx
    · exact List.mem_append_left _ hx
    · exact List.mem_append_right _ (List.mem_of_mem_tail (mem_tail_mergeNext hx hused))
  | back pre' p b' post' hpre hp hprev hb =>
    rcases hx with hx | hx
    · rw [hpre] at hx
      rcases List.mem_append.1 hx with hx | hx
      · exact List.mem_append_left _ hx
      · rw [List.mem_singleton] at hx
        rw [hx, hp] at hused
        cases hused
    · have hx' := mem_tail_mergeNext (b := { b with isFree := true }) hx hused
      rw [hb, List.tail_cons] at hx'
      simp [hx']

theorem Frees.origin (h : Frees pre b post bs') {x : Block} (hx : x ∈ bs') :
    ∃ y ∈ pre ++ b :: post, x.addr = y.addr ∧ x.prev = y.prev := by
  have hmerge : ∀ x ∈ mergeNext { b with isFree := true } post,
      ∃ y ∈ b :: post, x.addr = y.addr ∧ x.prev = y.prev := by
    intro x hx
    obtain ⟨y, hy, heq⟩ := mergeNext_origin hx
    rcases List.mem_cons.1 hy with rfl | hy
    · exact ⟨b, List.mem_cons_self, heq⟩
    · exact ⟨y, List.mem_cons_of_mem _ hy, heq⟩
  cases h with
  | alone =>
    rcases List.mem_append.1 hx with hx | hx
    · exact ⟨x, List.mem_append_left _ hx, rfl, rfl⟩
    · obtain ⟨y, hy, heq⟩ := hmerge x hx
      exact ⟨y, List.mem_append_right _ hy, heq⟩
  | back pre' p b' post' hpre hp hprev hb =>
    subst hpre
    rcases List.mem_append.1 hx with hx | hx
    · exact ⟨x, by simp [hx], rfl, rfl⟩
    · rcases List.mem_cons.1 hx with rfl | hx
      · exact ⟨p, by simp, rfl, rfl⟩
      · obtain ⟨y, hy, heq⟩ := hmerge x (hb ▸ List.mem_cons_of_mem _ hx)
        exact ⟨y, List.mem_append_right _ hy, heq⟩

theorem Frees.firstAddr (h : Frees pre b post bs') :
    firstAddr bs' 0 = firstAddr (pre ++ b :: post) 0 := by
  cases h with
  | alone =>
    obtain ⟨b', post', hb, haddr, -⟩ := mergeNext_eq { b with isFree := true } post
    rw [hb, firstAddr_append, firstAddr_append]
    exact congrArg _ haddr
  | back pre' p b' post' hpre =>
    rw [hpre, List.append_assoc, firstAddr_append, firstAddr_append]
    rfl

end Frees

theorem Frees.tiled {h : Heap} {pre post bs' : List Block} {b : Block}
    (hf : Frees pre b post bs') (ht : Tiled h (pre ++ b :: post))
    (hlays : Lays m' h.start bs' h.brk 0) : Tiled { h with mem := m' } bs' := by
  refine ⟨hlays, ht.base.trans hf.firstAddr.symm, ?_, ht.pos, ht.lt⟩
  intro x hx
  obtain ⟨y, hy, haddr, hxprev⟩ := hf.origin hx
  rw [haddr, hxprev]
  exact ht.back y hy

theorem data_ne_zero (b : ℕ) : SBlock.data b ≠ 0 := by
  unfold SBlock.data sizeofSBlock
  omega

theorem mmFree_data (h : Heap) (b : ℕ) : mmFree h (SBlock.data b)
    = { h with mem := (combineBlock (SBlock.setFree h.mem b 1) b).1 } := by
  have hblock : SBlock.data b - sizeofSBlock = b := Nat.add_sub_cancel _ _
  simp only [mmFree, if_neg (data_ne_zero b), hblock]

/-- `mm_free` on a tiled heap, of a block whose `prev` field is right if it is used. -/
theorem mmFree_spec {h : Heap} {pre post : List Block} {b : Block}
    (ht : Tiled h (pre ++ b :: post))
    (hprev : b.prev ≠ 0 → SBlock.free h.mem b.prev = 1 → ∃ pre' p, pre = pre' ++ [p] ∧
      p.addr = b.prev) :
    ∃ bs', Frees pre b post bs' ∧ Tiled (mmFree h (SBlock.data b.addr)) bs' := by
  have hspec := combineBlock_spec ht.lays ht.pos ht.lt (ht.back b (by simp)) hprev
  obtain ⟨bs', hf, hlays⟩ := hspec
  rw [mmFree_data]
  exact ⟨bs', hf, hf.tiled ht hlays⟩

/-! ## Writing into data -/

theorem moveContents_only (m : Memory) (newPtr ptr size : ℕ) :
    Only newPtr (newPtr + size) m (moveContents m newPtr ptr size) := by
  simp only [moveContents]
  split_ifs with hlt
  · exact (memset_only _ _ _).trans ((memcpy_only _ _ _).mono le_rfl (by omega))
  · exact memcpy_only _ _ _

theorem Tiled.write {h : Heap} (ht : Tiled h bs) {x : Block} (hx : x ∈ bs)
    (ho : Only lo hi h.mem m') (hlo : SBlock.data x.addr ≤ lo) (hhi : hi ≤ x.stop) :
    Tiled { h with mem := m' } bs := by
  obtain ⟨pre, post, rfl⟩ := List.append_of_mem hx
  obtain ⟨h1, h2, h3⟩ := lays_append_cons.1 ht.lays
  unfold SBlock.data at hlo
  refine ⟨lays_append_cons.2 ⟨h1.congr ho (.inl (by omega)), h2.congr ho (.inl hlo),
    h3.congr ho (.inr hhi)⟩, ht.base, ht.back, ht.pos, ht.lt⟩

end Cs162
