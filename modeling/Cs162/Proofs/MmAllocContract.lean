import Cs162.Proofs.MmAllocRuns

/-!
# One call of the allocator

What `mm_malloc` and `mm_realloc` promise for a single call on a heap whose blocks tile it: where
the new block lies, what its bytes are, and that the bytes of every other block in use stay.

For which sizes this holds is settled first (`mmMalloc_sizeSafe_iff`). `size + sizeof(struct s_block)
+ 4` wraps for the largest sizes, and `sbrk` reads an increment from `2 ^ 63` on as a negative one,
so that it shrinks the heap or leaves it and still succeeds. The block that `extend_heap` then fills
with zeros ends past the break.
-/

namespace Cs162

open CLib CLib.Memory

variable {m m' : Memory} {bs bs' pre post : List Block}

/-! ## What the functions write -/

theorem takeBlock_eq (m : Memory) (b size : ℕ) : ∃ m' : Memory, takeBlock m b size
    = SBlock.setFree (m'.memset (SBlock.data b) 0 (SBlock.size m' b)) b 0 := by
  unfold takeBlock
  split_ifs
  · exact ⟨m, rfl⟩
  · exact ⟨splitBlockSafe m b size, rfl⟩

/-- Every byte of a block that is taken is zero. -/
theorem takeBlock_zero {b size i : ℕ} (hi : i < SBlock.size (takeBlock m b size) b) :
    takeBlock m b size (SBlock.data b + i) = 0 := by
  obtain ⟨m', heq⟩ := takeBlock_eq m b size
  rw [heq] at hi ⊢
  have hsize : SBlock.size (SBlock.setFree (m'.memset (SBlock.data b) 0 (SBlock.size m' b)) b 0) b
      = SBlock.size m' b := by
    unfold SBlock.size SBlock.setFree
    rw [load_store_of_disjoint (by omega)]
    exact (memset_only _ _ _).load (.inl (by unfold SBlock.data sizeofSBlock; omega))
  rw [hsize] at hi
  rw [setFree_only _ _ _ _ (.inr (by unfold SBlock.data; omega)), Memory.memset, if_pos (by omega)]

theorem takeBlock_only {a stop size : ℕ} {b : Block} (h : Lays m a (pre ++ b :: post) stop 0)
    (hlt : stop < 2 ^ 64) (hsize : size + sizeofSBlock + 4 < 2 ^ 64) :
    Only b.addr b.stop m (takeBlock m b.addr size) := by
  obtain ⟨-, hhead, hpost⟩ := lays_append_cons.1 h
  have hstop := hpost.le
  have htake : ∀ (m : Memory) (n : ℕ), n ≤ b.size → Only b.addr b.stop m
      (SBlock.setFree (m.memset (SBlock.data b.addr) 0 n) b.addr 0) := fun m n hn =>
    ((memset_only _ _ _).mono (Nat.le_add_right _ _)
      (by unfold Block.stop; omega)).trans
      ((setFree_only _ _ _).mono le_rfl (Nat.le_add_right _ _))
  unfold takeBlock
  rw [word, Nat.mod_eq_of_lt hsize, hhead.size]
  split_ifs with hwhole
  · exact htake m b.size le_rfl
  · have hle : size + sizeofSBlock + 4 ≤ b.size := not_lt.1 hwhole
    obtain ⟨-, hfirst, -⟩ := lays_append_cons.1 (splitBlockSafe_spec h hlt hle)
    have hfirstSize : SBlock.size (splitBlockSafe m b.addr size) b.addr = size := hfirst.size
    simp only [hfirstSize]
    exact (splitBlockSafe_only hhead (by omega) hle).trans (htake _ size (by omega))

/-- `extend_heap` writes the header of the block before it and from the break on. -/
theorem extendedMem_eq {h : Heap} {prevEnd s x : ℕ} (hx : x < h.brk)
    (hprev : prevEnd ≠ 0 → x < prevEnd ∨ prevEnd + sizeofSBlock ≤ x) :
    extendedMem h prevEnd s x = h.mem x := by
  unfold extendedMem
  rw [memset_only _ _ _ _ (.inl (by unfold SBlock.data; omega)),
    setContentsSafe_only _ _ _ _ _ _ _ (.inl hx)]
  split_ifs with hne
  · exact setNext_only _ _ _ _ (hprev hne)
  · rfl

theorem extendedMem_zero {h : Heap} {prevEnd s i : ℕ} (hi : i < s) :
    extendedMem h prevEnd s (SBlock.data h.brk + i) = 0 := by
  unfold extendedMem
  rw [Memory.memset, if_pos (by omega)]

theorem combineNext_prev (m : Memory) (b : ℕ) :
    SBlock.prev (combineNext m b) b = SBlock.prev m b := by
  simp only [combineNext]
  split_ifs
  · unfold setContentsSafe SBlock.setNext SBlock.setPrev SBlock.setFree SBlock.setSize
    rw [SBlock.prev, load_store_of_disjoint (by omega), load_store_of_disjoint (by omega),
      load_store]
    exact Nat.mod_eq_of_lt (prev_lt m b)
  · rfl

/-- `mm_free` writes the header of the freed block, and that of the block its `prev` field names if
that one is free. -/
theorem mmFree_mem {h : Heap} {b x : ℕ} (hb : x < b ∨ b + sizeofSBlock ≤ x)
    (hback : SBlock.prev h.mem b = 0 ∨ SBlock.prev h.mem b + sizeofSBlock ≤ b)
    (hprev : SBlock.prev h.mem b ≠ 0 → SBlock.free h.mem (SBlock.prev h.mem b) = 1 →
      x < SBlock.prev h.mem b ∨ SBlock.prev h.mem b + sizeofSBlock ≤ x) :
    (mmFree h (SBlock.data b)).mem x = h.mem x := by
  have honly : Only b (b + sizeofSBlock) h.mem (combineNext (SBlock.setFree h.mem b 1) b) :=
    (setFree_only _ _ _).trans (combineNext_only _ _)
  have hsame : SBlock.prev (combineNext (SBlock.setFree h.mem b 1) b) b = SBlock.prev h.mem b := by
    rw [combineNext_prev]
    exact load_store_of_disjoint (by omega)
  rw [mmFree_data]
  unfold combineBlock combinePrev
  generalize combineNext (SBlock.setFree h.mem b 1) b = m₁ at honly hsame ⊢
  simp only [hsame]
  split_ifs with hmerge
  · obtain ⟨hne, hfree⟩ := hmerge
    have hfree' : SBlock.free h.mem (SBlock.prev h.mem b) = 1 := by
      rw [← hfree]
      exact (honly.load (.inl (by unfold sizeofSBlock at hback; omega))).symm
    exact (setContentsSafe_only _ _ _ _ _ _ _ (hprev hne hfree')).trans (honly x hb)
  · exact honly x hb

/-! ## The limits of the sizes -/

/-- An increment that is negative as an `intptr_t`, or wraps, moves the break modulo `2 ^ 64`. -/
theorem sbrk_wraps {h h' : Heap} {s : ℕ} {grant : Bool} (hs : s < 2 ^ 64)
    (hlarge : 2 ^ 63 ≤ sizeofSBlock + s)
    (hsbrk : sbrk h (word (sizeofSBlock + s)) grant = some h') :
    h'.brk + 2 ^ 64 = h.brk + (sizeofSBlock + s) := by
  simp only [sbrk, Option.ite_none_right_eq_some, Option.some.injEq] at hsbrk
  obtain ⟨⟨-, hstart, -⟩, rfl⟩ := hsbrk
  simp only
  unfold word sizeofSBlock at hstart ⊢
  unfold sizeofSBlock at hlarge
  rcases Nat.lt_or_ge (32 + s) (2 ^ 64) with hlt | hge
  · rw [Nat.mod_eq_of_lt hlt, if_neg (not_lt.2 hlarge)] at hstart ⊢
    omega
  · have hmod : (32 + s) % 2 ^ 64 = 32 + s - 2 ^ 64 := by
      rw [Nat.mod_eq_sub_mod hge, Nat.mod_eq_of_lt (by omega)]
    rw [hmod, if_pos (by omega)] at hstart ⊢
    omega

theorem Tiled.size_eq {h : Heap} (ht : Tiled h bs) {x : Block} (hx : x ∈ bs) :
    SBlock.size h.mem (SBlock.data x.addr - sizeofSBlock) = x.size := by
  obtain ⟨pre, post, rfl⟩ := List.append_of_mem hx
  obtain ⟨-, hhead, -⟩ := lays_append_cons.1 ht.lays
  rw [SBlock.data, Nat.add_sub_cancel, hhead.size]

/-- A heap of three blocks, of which the one in the middle is free. The data is not zero. -/
def threeBlockHeap : Heap where
  mem := setContentsSafe (setContentsSafe (setContentsSafe (fun _ => 7) 4096 4136 0 0 8) 4136 4268
    4096 1 100) 4268 0 4136 0 8
  globalBase := 4096
  start := 4096
  brk := 4308

def threeBlocks : List Block :=
  [⟨4096, 0, false, 8⟩, ⟨4136, 4096, true, 100⟩, ⟨4268, 4136, false, 8⟩]

theorem threeBlockHeap_tiled : Tiled threeBlockHeap threeBlocks where
  lays := ⟨rfl, ⟨rfl, rfl, rfl, rfl⟩, rfl, ⟨rfl, rfl, rfl, rfl⟩, rfl, ⟨rfl, rfl, rfl, rfl⟩, rfl⟩
  base := rfl
  back := by decide
  pos := by decide
  lt := by decide

/-- The data of the blocks in use is the same. -/
def SameData (bs : List Block) (m m' : Memory) : Prop :=
  ∀ y ∈ bs, y.isFree = false → ∀ i < y.size,
    m' (SBlock.data y.addr + i) = m (SBlock.data y.addr + i)

/-- No addition wraps: neither that of the comparison nor, where the heap is extended, that of the
increment to the break. -/
def NoWrap (h : Heap) (bs : List Block) (size : ℕ) : Prop :=
  size + sizeofSBlock + 4 < 2 ^ 64 ∧ ((∀ b ∈ bs, ¬ b.Fits size) →
    sizeofSBlock + size < 2 ^ 63 ∨ h.brk + (sizeofSBlock + size) < 2 ^ 64)

/-- No data byte of a block lies in the header of a block. -/
theorem Tiled.data_clear {h : Heap} (ht : Tiled h bs) {x y : Block} (hx : x ∈ bs) (hy : y ∈ bs)
    {i : ℕ} (hi : i < y.size) :
    SBlock.data y.addr + i < x.addr ∨ x.addr + sizeofSBlock ≤ SBlock.data y.addr + i := by
  unfold SBlock.data
  by_cases hxy : x.addr = y.addr
  · omega
  · rcases ht.apart hx hy hxy with h | h <;> unfold Block.stop at h <;> omega

theorem sameData_found {h : Heap} {b : Block} (ht : Tiled h (pre ++ b :: post)) {size : ℕ}
    (hsize : size + sizeofSBlock + 4 < 2 ^ 64) (hfit : b.Fits size) :
    SameData (pre ++ b :: post) h.mem (takeBlock h.mem b.addr size) := by
  intro y hy hused i hi
  have hne : b.addr ≠ y.addr := by
    intro haddr
    have hyb := ht.addr_inj (x := b) (y := y) (by simp) hy haddr
    rw [← hyb, hfit.1] at hused
    cases hused
  refine takeBlock_only ht.lays ht.lt hsize _ ?_
  unfold SBlock.data
  rcases ht.apart (x := b) (by simp) hy hne with h | h
  · omega
  · unfold Block.stop at h
    omega

theorem sameData_extend {h : Heap} (ht : Tiled h bs) (size : ℕ) :
    SameData bs h.mem (extendedMem h (lastAddr bs 0) size) := by
  intro y hy _ i hi
  refine extendedMem_eq ?_ fun hne => ?_
  · have hstop := (ht.addr_pos hy).2.2
    unfold Block.stop at hstop
    unfold SBlock.data
    omega
  · obtain ⟨pre, x, rfl, haddr⟩ := exists_lastAddr hne
    exact haddr ▸ ht.data_clear (x := x) (by simp) hy hi

/-- Everything `mm_malloc` does to a tiled heap, its bytes included. -/
theorem mmMalloc_bytes {h : Heap} (ht : Tiled h bs) {size : ℕ} (hpos : 0 < size)
    (hwrap : NoWrap h bs size) (grant : Bool) :
    ∃ h' p, mmMalloc h size grant = some (h', p) ∧ (p = 0 ∧ h' = h ∨ p ≠ 0 ∧ ∃ bs',
      Mallocs bs h.brk size p bs' ∧ Tiled h' bs' ∧ SameData bs h.mem h'.mem ∧
      ∀ i < SBlock.size h'.mem (p - sizeofSBlock), h'.mem (p + i) = 0) := by
  rcases mmMalloc_cases ht hpos.ne' grant with
    ⟨pre, b, post, rfl, hpre, hfit, hmalloc⟩ | ⟨hno, ⟨-, hmalloc⟩ | ⟨brk, hsbrk, hmalloc⟩⟩
  · obtain ⟨bs', hm, ht'⟩ := mmMalloc_found ht hwrap.1 hpre hfit
    rw [if_neg (ht.not_splitsPast hwrap.1)] at hmalloc
    refine ⟨_, _, hmalloc, .inr ⟨data_ne_zero _, bs', hm, ht', sameData_found ht hwrap.1 hfit, ?_⟩⟩
    intro i hi
    rw [SBlock.data, Nat.add_sub_cancel] at hi
    exact takeBlock_zero hi
  · exact ⟨h, 0, hmalloc, .inl ⟨rfl, rfl⟩⟩
  have hsize : sizeofSBlock + size < 2 ^ 63 := by
    rcases hwrap.2 hno with hsize | hbrk
    · exact hsize
    · by_contra hlarge
      have hsum := sbrk_wraps (by have := hwrap.1; omega) (not_lt.1 hlarge) hsbrk
      omega
  obtain ⟨hbrk, ht'⟩ := mmMalloc_extend ht hsize hsbrk
  rw [if_pos hbrk.ge] at hmalloc
  refine ⟨_, _, hmalloc, .inr ⟨data_ne_zero _, _, .extend hno, ht', sameData_extend ht size, ?_⟩⟩
  intro i hi
  rw [ht'.size_eq (x := ⟨h.brk, lastAddr bs 0, false, size⟩) (by simp)] at hi
  exact extendedMem_zero hi

/-- The block that is taken is the lowest free block that fits. -/
theorem Mallocs.lowest {h : Heap} (ht : Tiled h bs) {size p : ℕ}
    (hm : Mallocs bs h.brk size p bs') (hp : p ≠ 0) {b : Block} (hb : b ∈ bs)
    (hfit : b.Fits size) : ∃ c ∈ bs, c.Fits size ∧ p = SBlock.data c.addr ∧ c.addr ≤ b.addr := by
  have hfirst : ∀ (pre : List Block) (c : Block) (post : List Block), bs = pre ++ c :: post →
      (∀ x ∈ pre, ¬ x.Fits size) → c.addr ≤ b.addr := by
    rintro pre c post rfl hpre
    rcases List.mem_append.1 hb with hb | hb
    · exact absurd hfit (hpre b hb)
    · rcases List.mem_cons.1 hb with rfl | hb
      · exact le_rfl
      · have hpair := (List.pairwise_append.1 ht.lays.pairwise.2).2.1
        have hlt := (List.pairwise_cons.1 hpair).1 b hb
        unfold Block.stop at hlt
        omega
  cases hm with
  | null => exact absurd rfl hp
  | extend hno => exact absurd hfit (hno b hb)
  | whole pre c post hbs hpre hc | split pre c post hbs hpre hc =>
    exact ⟨c, by simp [hbs], hc, rfl, hfirst pre c post hbs hpre⟩

theorem Mallocs.appended {brk size p : ℕ} (hm : Mallocs bs brk size p bs') (hp : p ≠ 0)
    (hno : ∀ b ∈ bs, ¬ b.Fits size) :
    p = SBlock.data brk ∧ bs' = bs ++ [⟨brk, lastAddr bs 0, false, size⟩] := by
  cases hm with
  | null => exact absurd rfl hp
  | extend => exact ⟨rfl, rfl⟩
  | whole pre c post hbs hpre hc | split pre c post hbs hpre hc =>
    exact absurd hc (hno c (by simp [hbs]))

/-- What `mm_malloc` promises when it returns the data of the block `x`. -/
structure MallocContract (h : Heap) (bs : List Block) (size : ℕ) (h' : Heap) (p : ℕ)
    (bs' : List Block) (x : Block) : Prop where
  tiled : Tiled h' bs'
  mem : x ∈ bs'
  data : p = SBlock.data x.addr
  used : x.isFree = false
  size_le : size ≤ x.size
  fresh : ∀ y ∈ bs, y.isFree = false → y.addr ≠ x.addr
  lowest : ∀ b ∈ bs, b.Fits size → ∃ c ∈ bs, c.Fits size ∧ c.addr = x.addr ∧ c.addr ≤ b.addr
  appended : (∀ b ∈ bs, ¬ b.Fits size) → x.addr = h.brk ∧ bs' = bs ++ [x]
  zero : ∀ i < x.size, h'.mem (p + i) = 0
  kept : ∀ y ∈ bs, y.isFree = false → y ∈ bs'
  same : SameData bs h.mem h'.mem

theorem mmMalloc_contract {h : Heap} (ht : Tiled h bs) (size : ℕ) (hpos : 0 < size)
    (hwrap : NoWrap h bs size) (grant : Bool) :
    ∃ h' p, mmMalloc h size grant = some (h', p) ∧ (p = 0 → h' = h) ∧
      (p ≠ 0 → ∃ bs' x, MallocContract h bs size h' p bs' x) := by
  obtain ⟨h', p, hmalloc, ⟨hp, hh⟩ | ⟨hp, bs', hm, ht', hsame, hzero⟩⟩ :=
    mmMalloc_bytes ht hpos hwrap grant
  · exact ⟨h', p, hmalloc, fun _ => hh, fun hne => absurd hp hne⟩
  refine ⟨h', p, hmalloc, fun h0 => absurd h0 hp, fun _ => ?_⟩
  obtain ⟨x, hx, hdata, hused, hsize, hfresh⟩ := hm.fresh ht hp
  refine ⟨bs', x, ht', hx, hdata, hused, hsize, hfresh, fun b hb hfit => ?_, fun hno => ?_, ?_,
    fun y hy => hm.kept hy, hsame⟩
  · obtain ⟨c, hc, hcfit, hpc, hle⟩ := hm.lowest ht hp hb hfit
    exact ⟨c, hc, hcfit, data_injective (hpc.symm.trans hdata), hle⟩
  · obtain ⟨hpbrk, rfl⟩ := hm.appended hp hno
    have haddr : x.addr = h.brk := data_injective (hdata.symm.trans hpbrk)
    rw [ht'.addr_inj (y := ⟨h.brk, lastAddr bs 0, false, size⟩) hx (by simp) haddr]
    exact ⟨rfl, rfl⟩
  · rwa [hdata, ht'.size_eq hx, ← hdata] at hzero

theorem mmMalloc_contract_threeBlocks : ∃ h' p, mmMalloc threeBlockHeap 16 true = some (h', p) ∧
    p = 4168 ∧ (p = 0 → h' = threeBlockHeap) ∧
    (p ≠ 0 → ∃ bs' x, MallocContract threeBlockHeap threeBlocks 16 h' p bs' x) := by
  obtain ⟨h', p, hmalloc, hcontract⟩ := mmMalloc_contract threeBlockHeap_tiled 16 (by decide)
    ⟨by decide, fun _ => .inl (by decide)⟩ true
  have hp : (mmMalloc threeBlockHeap 16 true).map Prod.snd = some 4168 := rfl
  rw [hmalloc] at hp
  exact ⟨h', p, hmalloc, Option.some.inj hp, hcontract⟩

/-! ## What `mm_realloc` leaves -/

/-- Every block that is in use and in a list before `mm_malloc` has a right `prev` field after it,
unless a split left it stale, and then it names the block that is taken. -/
theorem Linked.mallocs {h : Heap} {size p : ℕ} (hl : Linked 0 bs)
    (hm : Mallocs bs h.brk size p bs') {x : Block} (hx : x ∈ bs) (hused : x.isFree = false) :
    ∃ pre post, bs' = pre ++ x :: post ∧
      (x.prev = lastAddr pre 0 ∨ ∃ y ∈ bs', y.isFree = false ∧ y.addr = x.prev) := by
  have hlinked : Linked 0 bs' → ∃ pre post, bs' = pre ++ x :: post ∧
      (x.prev = lastAddr pre 0 ∨ ∃ y ∈ bs', y.isFree = false ∧ y.addr = x.prev) := by
    intro hl'
    obtain ⟨pre, post, rfl⟩ := List.append_of_mem (hm.kept hx hused)
    exact ⟨pre, post, rfl, .inl (linked_append.1 hl').2.1⟩
  cases hm with
  | null => exact hlinked hl
  | extend => exact hlinked (linked_append.2 ⟨hl, rfl, trivial⟩)
  | whole pre b post hbs =>
    subst hbs
    obtain ⟨h1, h2, h3⟩ := linked_append.1 hl
    exact hlinked (linked_append.2 ⟨h1, h2, h3⟩)
  | split pre b post hbs hpre hb =>
    subst hbs
    obtain ⟨h1, h2, h3⟩ := linked_append.1 hl
    rcases List.mem_append.1 hx with hx | hx
    · obtain ⟨l, r, rfl⟩ := List.append_of_mem hx
      rw [List.append_assoc]
      exact ⟨l, _, rfl, .inl (linked_append.1 h1).2.1⟩
    rcases List.mem_cons.1 hx with rfl | hx
    · rw [hb.1] at hused
      cases hused
    obtain ⟨l, r, rfl⟩ := List.append_of_mem hx
    have hprev : x.prev = lastAddr l b.addr := (linked_append.1 h3).2.1
    refine ⟨pre ++ { b with isFree := false, size := size } :: ⟨b.addr + sizeofSBlock + size,
      b.addr, true, b.size - size - sizeofSBlock⟩ :: l, r, by simp, ?_⟩
    rcases l.eq_nil_or_concat' with rfl | ⟨l, w, rfl⟩
    · exact .inr ⟨{ b with isFree := false, size := size }, by simp, rfl, hprev.symm⟩
    · left
      rw [lastAddr_append] at hprev
      rw [← List.cons_append, ← List.cons_append, ← List.append_assoc, lastAddr_append, hprev]

/-- A block whose `prev` field is right, or names a block in use. -/
theorem Tiled.prev_right {h : Heap} {x : Block} (ht : Tiled h (pre ++ x :: post))
    (hprev : x.prev = lastAddr pre 0 ∨
      ∃ y ∈ pre ++ x :: post, y.isFree = false ∧ y.addr = x.prev)
    (hne : x.prev ≠ 0) (hfree : SBlock.free h.mem x.prev = 1) :
    ∃ pre' p, pre = pre' ++ [p] ∧ p.addr = x.prev := by
  rcases hprev with hlast | ⟨y, hy, hused, haddr⟩
  · rw [hlast] at hne ⊢
    exact exists_lastAddr hne
  · obtain ⟨l, r, heq⟩ := List.append_of_mem hy
    rw [heq] at ht
    obtain ⟨-, hhead, -⟩ := lays_append_cons.1 ht.lays
    rw [← haddr, hhead.free, hused] at hfree
    exact absurd hfree (by decide)

/-- What `mm_realloc` copies into new memory that does not overlap the old. -/
theorem moveContents_read {newPtr ptr size i : ℕ} (hi : i < size)
    (happ : ∀ j < SBlock.size m (ptr - sizeofSBlock), j < size →
      ptr + j < newPtr ∨ newPtr + size ≤ ptr + j) :
    moveContents m newPtr ptr size (newPtr + i)
      = if i < SBlock.size m (ptr - sizeofSBlock) then m (ptr + i) else 0 := by
  simp only [moveContents]
  split_ifs with hlt hi'
  · rw [Memory.memcpy, if_pos (by omega), Nat.add_sub_cancel_left,
      memset_only _ _ _ _ (happ i hi' hi)]
  · rw [memcpy_only _ _ _ _ (.inr (by omega)), Memory.memset, if_pos (by omega)]
  · rw [Memory.memcpy, if_pos (by omega), Nat.add_sub_cancel_left]
  · omega

theorem mergeNext_used {b z : Block} (hb : b.isFree = true) (hz : z ∈ mergeNext b post)
    (hused : z.isFree = false) : z ∈ post := by
  rcases post with _ | ⟨c, post⟩
  · rw [mergeNext, List.mem_singleton] at hz
    rw [hz, hb] at hused
    cases hused
  · rw [mergeNext] at hz
    split_ifs at hz
    · rcases List.mem_cons.1 hz with rfl | hz
      · cases hused
      · exact List.mem_cons_of_mem _ hz
    · rcases List.mem_cons.1 hz with rfl | hz
      · rw [hb] at hused
        cases hused
      · exact hz

/-- A block in use after `mm_free` is one of the blocks on either side. -/
theorem Frees.used_mem {b z : Block} (hf : Frees pre b post bs') (hz : z ∈ bs')
    (hused : z.isFree = false) : z ∈ pre ∨ z ∈ post := by
  cases hf with
  | alone =>
    rcases List.mem_append.1 hz with hz | hz
    · exact .inl hz
    · exact .inr (mergeNext_used rfl hz hused)
  | back pre' p b' post' hpre hp hprev hb =>
    subst hpre
    rcases List.mem_append.1 hz with hz | hz
    · exact .inl (List.mem_append_left _ hz)
    · rcases List.mem_cons.1 hz with rfl | hz
      · cases hused
      · exact .inr (mergeNext_used rfl (hb ▸ List.mem_cons_of_mem _ hz) hused)

/-- `mm_free` leaves the data of the other blocks in use. -/
theorem sameData_free {h : Heap} {x : Block} (ht : Tiled h (pre ++ x :: post))
    (hprev : x.prev ≠ 0 → SBlock.free h.mem x.prev = 1 → ∃ pre' p, pre = pre' ++ [p] ∧
      p.addr = x.prev) {z : Block} (hz : z ∈ pre ++ x :: post) {i : ℕ} (hi : i < z.size) :
    (mmFree h (SBlock.data x.addr)).mem (SBlock.data z.addr + i)
      = h.mem (SBlock.data z.addr + i) := by
  obtain ⟨-, hhead, -⟩ := lays_append_cons.1 ht.lays
  refine mmFree_mem (ht.data_clear (by simp) hz hi) ?_ fun hne hfree => ?_
  · rw [hhead.prev]
    exact ht.back x (by simp)
  · rw [hhead.prev] at hne hfree ⊢
    obtain ⟨pre', p, rfl, hp⟩ := hprev hne hfree
    exact hp ▸ ht.data_clear (x := p) (by simp) hz hi

/-- What `mm_realloc` promises when it returns the data of the block `y` for that of `x`. -/
structure ReallocContract (h : Heap) (bs : List Block) (x : Block) (size : ℕ) (h' : Heap) (p : ℕ)
    (bs' : List Block) (y : Block) : Prop where
  tiled : Tiled h' bs'
  mem : y ∈ bs'
  data : p = SBlock.data y.addr
  used : y.isFree = false
  size_le : size ≤ y.size
  contents : ∀ i < size, h'.mem (p + i) = if i < x.size then h.mem (SBlock.data x.addr + i) else 0
  released : ∀ z ∈ bs', z.isFree = false → z.stop ≤ x.addr ∨ x.stop ≤ z.addr
  kept : ∀ z ∈ bs, z.isFree = false → z ≠ x → z ∈ bs'
  same : ∀ z ∈ bs, z.isFree = false → z ≠ x → ∀ i < z.size,
    h'.mem (SBlock.data z.addr + i) = h.mem (SBlock.data z.addr + i)

theorem mmRealloc_contract {h : Heap} (ht : Tiled h bs) (hl : Linked 0 bs) {x : Block}
    (hx : x ∈ bs) (hused : x.isFree = false) (size : ℕ) (hpos : 0 < size)
    (hwrap : NoWrap h bs size) (grant : Bool) :
    ∃ h' p, mmRealloc h (SBlock.data x.addr) size grant = some (h', p) ∧ (p = 0 → h' = h) ∧
      (p ≠ 0 → ∃ bs' y, ReallocContract h bs x size h' p bs' y) := by
  obtain ⟨h₁, p, hmalloc, hcase⟩ := mmMalloc_bytes ht hpos hwrap grant
  have hrealloc : mmRealloc h (SBlock.data x.addr) size grant = if p = 0 then some (h₁, 0) else
      some (mmFree { h₁ with mem := moveContents h₁.mem p (SBlock.data x.addr) size }
        (SBlock.data x.addr), p) := by
    rw [mmRealloc, if_neg (data_ne_zero _), if_neg hpos.ne', hmalloc]
    rfl
  rcases hcase with ⟨rfl, rfl⟩ | ⟨hp, bs₁, hm, ht₁, hsame, -⟩
  · exact ⟨h₁, 0, by rw [hrealloc, if_pos rfl], fun _ => rfl, fun hne => absurd rfl hne⟩
  rw [if_neg hp] at hrealloc
  refine ⟨_, p, hrealloc, fun h0 => absurd h0 hp, fun _ => ?_⟩
  obtain ⟨y, hy, rfl, hyused, hsize, hfresh⟩ := hm.fresh ht hp
  have hx₁ : x ∈ bs₁ := hm.kept hx hused
  have hxy : x.addr ≠ y.addr := hfresh x hx hused
  have hstop : SBlock.data y.addr + size ≤ y.stop := by
    unfold SBlock.data Block.stop
    omega
  have hmove := moveContents_only h₁.mem (SBlock.data y.addr) (SBlock.data x.addr) size
  set m₂ := moveContents h₁.mem (SBlock.data y.addr) (SBlock.data x.addr) size with hm₂
  have ht₂ : Tiled { h₁ with mem := m₂ } bs₁ := ht₁.write hy hmove le_rfl hstop
  -- the copy writes into the new block only
  have hother : ∀ z ∈ bs₁, z.addr ≠ y.addr → ∀ i < z.size,
      SBlock.data z.addr + i < SBlock.data y.addr ∨
        SBlock.data y.addr + size ≤ SBlock.data z.addr + i := by
    intro z hz hne i hi
    unfold SBlock.data
    rcases ht₁.apart hz hy hne with h | h <;> unfold Block.stop at h <;> omega
  obtain ⟨pre, post, rfl, hprev⟩ := hl.mallocs hm hx hused
  have hright := ht₂.prev_right hprev
  obtain ⟨bs₂, hf, ht₃⟩ := mmFree_spec ht₂ hright
  have hsides : ∀ z ∈ pre ++ x :: post, z.addr ≠ x.addr → z ∈ pre ∨ z ∈ post := fun z hz hne =>
    mem_sides hz fun h => hne (h ▸ rfl)
  have hfreed : ∀ z ∈ pre ++ x :: post, ∀ i < z.size,
      (mmFree { h₁ with mem := m₂ } (SBlock.data x.addr)).mem (SBlock.data z.addr + i)
        = m₂ (SBlock.data z.addr + i) := fun z hz i hi => sameData_free ht₂ hright hz hi
  refine ⟨bs₂, y, ht₃, hf.kept (hsides y hy (Ne.symm hxy)) hyused, rfl, hyused, hsize, ?_, ?_, ?_, ?_⟩
  · intro i hi
    rw [hfreed y hy i (by omega), hm₂, moveContents_read hi, ht₁.size_eq hx₁]
    · split_ifs with hix
      · exact hsame x hx hused i hix
      · rfl
    · rw [ht₁.size_eq hx₁]
      exact fun j hj _ => hother x hx₁ hxy j hj
  · exact fun z hz hzused => ht₁.apart_of_mem (hf.used_mem hz hzused)
  · intro z hz hzused hne
    exact hf.kept (mem_sides (hm.kept hz hzused) hne) hzused
  · intro z hz hzused hne i hi
    have hz₁ := hm.kept hz hzused
    rw [hfreed z hz₁ i hi, hmove _ (hother z hz₁ (hfresh z hz hzused) i hi)]
    exact hsame z hz hzused i hi

/-- The block in use in front moves into the free one, which is split. -/
theorem mmRealloc_contract_threeBlocks : ∃ h' p,
    mmRealloc threeBlockHeap (SBlock.data 4096) 16 true = some (h', p) ∧ p = 4168 ∧
    (p = 0 → h' = threeBlockHeap) ∧ (p ≠ 0 → ∃ bs' y,
      ReallocContract threeBlockHeap threeBlocks ⟨4096, 0, false, 8⟩ 16 h' p bs' y) := by
  obtain ⟨h', p, hrealloc, hcontract⟩ := mmRealloc_contract (x := ⟨4096, 0, false, 8⟩)
    threeBlockHeap_tiled ⟨rfl, rfl, rfl, trivial⟩ (by simp [threeBlocks]) rfl 16 (by decide)
    ⟨by decide, fun _ => .inl (by decide)⟩ true
  have hp : (mmRealloc threeBlockHeap (SBlock.data 4096) 16 true).map Prod.snd = some 4168 := rfl
  rw [hrealloc] at hp
  exact ⟨h', p, hrealloc, Option.some.inj hp, hcontract⟩

end Cs162
