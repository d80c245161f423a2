import Cs162.Proofs.MmAlloc
import Mathlib.Data.List.Induction

/-!
# Runs of the allocator

A client calls `mm_malloc`, `mm_free` and `mm_realloc` with what the contract allows and writes
into the bytes it asked for. Two things can go wrong, both because neither `split_block_safe` nor
`combine_block` repairs the `prev` field of the block behind the ones it changes.

The links disagree as soon as a split or a merge leaves a block behind it (`SplitsLast`,
`MergesLast`): without one the heap stays `Mirrored` (`run_mirrored`). Blocks overlap once
`mm_free` merges backwards through such a stale field (`FreshPrev`): without that the client's
memory stays apart (`run_apart`).
-/

namespace Cs162

open CLib CLib.Memory

/-- The heap, and the pointers the client holds with the sizes it asked for. -/
structure HeapState where
  heap : Heap
  live : List (ℕ × ℕ)

inductive HeapCall
  | malloc (size : ℕ) (grant : Bool)
  | free (ptr : ℕ)
  | realloc (ptr size : ℕ) (grant : Bool)
  | write (addr : ℕ) (bytes : List UInt8)

/-- No addition to the size wraps, and a granted `sbrk` extends the heap. -/
def SizeOk (size : ℕ) (grant : Bool) : Prop :=
  size + sizeofSBlock + 4 < 2 ^ 64 ∧ (grant = true → size + sizeofSBlock < 2 ^ 63)

/-- What the contract allows the client to call. -/
def HeapCall.Legal (s : HeapState) : HeapCall → Prop
  | malloc size grant => SizeOk size grant
  | free ptr => ptr ∈ s.live.map Prod.fst
  | realloc ptr size grant => (ptr = 0 ∨ ptr ∈ s.live.map Prod.fst) ∧ SizeOk size grant
  | write addr bytes => ∃ x ∈ s.live, x.1 ≤ addr ∧ addr + bytes.length ≤ x.1 + x.2

instance (size : ℕ) (grant : Bool) : Decidable (SizeOk size grant) :=
  inferInstanceAs (Decidable (_ ∧ _))

instance (s : HeapState) : ∀ c : HeapCall, Decidable (c.Legal s)
  | .malloc size grant => inferInstanceAs (Decidable (SizeOk size grant))
  | .free ptr => inferInstanceAs (Decidable (ptr ∈ s.live.map Prod.fst))
  | .realloc ptr size grant =>
    inferInstanceAs (Decidable ((ptr = 0 ∨ ptr ∈ s.live.map Prod.fst) ∧ SizeOk size grant))
  | .write addr bytes =>
    inferInstanceAs (Decidable (∃ x ∈ s.live, x.1 ≤ addr ∧ addr + bytes.length ≤ x.1 + x.2))

/-- The state after a call returns, if it does. -/
def HeapState.step (s : HeapState) : HeapCall → Option HeapState
  | .malloc size grant => (mmMalloc s.heap size grant).map fun r =>
      ⟨r.1, if r.2 = 0 then s.live else (r.2, size) :: s.live⟩
  | .free ptr => some ⟨mmFree s.heap ptr, s.live.filter (·.1 ≠ ptr)⟩
  | .realloc ptr size grant => (mmRealloc s.heap ptr size grant).map fun r =>
      ⟨r.1, if r.2 = 0 then s.live else (r.2, size) :: s.live.filter (·.1 ≠ ptr)⟩
  | .write addr bytes => some ⟨{ s.heap with mem := s.heap.mem.poke addr bytes }, s.live⟩

/-- A run of legal calls. -/
def HeapState.run (s : HeapState) : List HeapCall → Option HeapState
  | [] => some s
  | c :: cs => if c.Legal s then (s.step c).bind fun s' => s'.run cs else none

/-- A predicate of every call of a run and the state it is made in. -/
def EachCall (P : HeapState → HeapCall → Prop) (s : HeapState) : List HeapCall → Prop
  | [] => True
  | c :: cs => P s c ∧ ∀ s' ∈ s.step c, EachCall P s' cs

/-- The heap of a process that has not allocated yet. -/
def emptyHeap (mem : Memory) (brk : ℕ) : HeapState := ⟨⟨mem, 0, brk, brk⟩, []⟩

/-! ## What holds of a heap -/

/-- The blocks the list reaches from `global_base`. -/
inductive Heap.OnList (h : Heap) : ℕ → Prop
  | base (hne : h.globalBase ≠ 0) : OnList h h.globalBase
  | next (b : ℕ) (hb : OnList h b) (hne : SBlock.next h.mem b ≠ 0) : OnList h (SBlock.next h.mem b)

/-- Every link of the list is mirrored, and the blocks tile the heap. -/
structure Mirrored (h : Heap) : Prop where
  head : h.globalBase ≠ 0 → SBlock.prev h.mem h.globalBase = 0
  link : ∀ b, h.OnList b → SBlock.next h.mem b ≠ 0 →
    SBlock.prev h.mem (SBlock.next h.mem b) = b ∧
      SBlock.next h.mem b = b + sizeofSBlock + SBlock.size h.mem b
  last : ∀ b, h.OnList b → SBlock.next h.mem b = 0 → b + sizeofSBlock + SBlock.size h.mem b = h.brk

/-- The client's ranges are disjoint, below the break, and clear of the headers on the list. -/
structure Apart (s : HeapState) : Prop where
  disjoint : s.live.Pairwise fun x y => x.1 + x.2 ≤ y.1 ∨ y.1 + y.2 ≤ x.1
  below : ∀ x ∈ s.live, x.1 + x.2 ≤ s.heap.brk
  headers : ∀ x ∈ s.live, ∀ b, s.heap.OnList b → b + sizeofSBlock ≤ x.1 ∨ x.1 + x.2 ≤ b

/-! ## Conditions on the calls -/

/-- A condition on every `mm_malloc` and `mm_free`, those of `mm_realloc` too. -/
structure Guard where
  malloc : Heap → ℕ → Prop
  free : Heap → ℕ → Prop

def Guard.Holds (g : Guard) (s : HeapState) : HeapCall → Prop
  | .malloc size _ => size ≠ 0 → g.malloc s.heap size
  | .free ptr => g.free s.heap (ptr - sizeofSBlock)
  | .realloc ptr size grant => size ≠ 0 → g.malloc s.heap size ∧
    (ptr ≠ 0 → ∀ h' newPtr, mmMalloc s.heap size grant = some (h', newPtr) → newPtr ≠ 0 →
      g.free { h' with mem := moveContents h'.mem newPtr ptr size } (ptr - sizeofSBlock))
  | .write _ _ => True

/-- If the block is merged into the one its `prev` field names, that one is before it on the
list. -/
def FreshPrev (h : Heap) (b : ℕ) : Prop :=
  SBlock.prev h.mem b ≠ 0 → SBlock.free h.mem (SBlock.prev h.mem b) = 1 →
    h.OnList (SBlock.prev h.mem b) ∧ SBlock.next h.mem (SBlock.prev h.mem b) = b

/-- A block that is split is the last one. -/
def SplitsLast (h : Heap) (size : ℕ) : Prop :=
  ∀ b last, freeBlockOrNah h h.globalBase size = some (b, last) → b ≠ 0 →
    size + sizeofSBlock + 4 ≤ SBlock.size h.mem b → SBlock.next h.mem b = 0

/-- No block is left behind a merged one: only the last block is merged into the freed one, and
the freed one into the one before it only if nothing else is behind it. -/
def MergesLast (h : Heap) (b : ℕ) : Prop :=
  (SBlock.next h.mem b ≠ 0 → SBlock.free h.mem (SBlock.next h.mem b) = 1 →
    SBlock.next h.mem (SBlock.next h.mem b) = 0) ∧
  (SBlock.prev h.mem b ≠ 0 → SBlock.free h.mem (SBlock.prev h.mem b) = 1 →
    SBlock.next h.mem b ≠ 0 → SBlock.free h.mem (SBlock.next h.mem b) = 1)

/-! ## The invariant -/

/-- Each live pointer is the data of a block in use that is large enough. -/
structure Owns (bs : List Block) (live : List (ℕ × ℕ)) : Prop where
  block : ∀ x ∈ live, ∃ b ∈ bs, b.isFree = false ∧ x.1 = SBlock.data b.addr ∧ x.2 ≤ b.size
  nodup : (live.map Prod.fst).Nodup

/-- The invariant of a run, with a property `P` of the blocks. -/
def HeapInv (P : List Block → Prop) (s : HeapState) : Prop :=
  ∃ bs, Tiled s.heap bs ∧ Owns bs s.live ∧ P bs

variable {bs bs' pre post : List Block} {live : List (ℕ × ℕ)}

theorem data_injective : Function.Injective SBlock.data := fun _ _ h => Nat.add_right_cancel h

theorem Owns.mallocs {h : Heap} (ht : Tiled h bs) (ho : Owns bs live) {size p : ℕ}
    (hm : Mallocs bs h.brk size p bs') :
    Owns bs' (if p = 0 then live else (p, size) :: live) := by
  have hkept : ∀ x ∈ live, ∃ b ∈ bs', b.isFree = false ∧ x.1 = SBlock.data b.addr ∧ x.2 ≤ b.size := by
    intro x hx
    obtain ⟨b, hb, hused, hxb⟩ := ho.block x hx
    exact ⟨b, hm.kept hb hused, hused, hxb⟩
  split_ifs with hp
  · exact ⟨hkept, ho.nodup⟩
  · obtain ⟨b, hb, rfl, hused, hsize, hfresh⟩ := hm.fresh ht hp
    refine ⟨List.forall_mem_cons.2 ⟨⟨b, hb, hused, rfl, hsize⟩, hkept⟩,
      List.nodup_cons.2 ⟨fun hmem => ?_, ho.nodup⟩⟩
    obtain ⟨x, hx, hxp⟩ := List.mem_map.1 hmem
    obtain ⟨c, hc, hcused, hxc, -⟩ := ho.block x hx
    exact hfresh c hc hcused (data_injective (hxc ▸ hxp))

theorem Owns.frees {b : Block} (ho : Owns (pre ++ b :: post) live) (hf : Frees pre b post bs') :
    Owns bs' (live.filter (·.1 ≠ SBlock.data b.addr)) := by
  refine ⟨fun x hx => ?_, ho.nodup.sublist (List.filter_sublist.map _)⟩
  obtain ⟨hx, hne⟩ := List.mem_filter.1 hx
  obtain ⟨c, hc, hused, hxc, hsize⟩ := ho.block x hx
  refine ⟨c, hf.kept ?_ hused, hused, hxc, hsize⟩
  rcases List.mem_append.1 hc with hc | hc
  · exact .inl hc
  · rcases List.mem_cons.1 hc with rfl | hc
    · simp [hxc] at hne
    · exact .inr hc

theorem Owns.sublist {live' : List (ℕ × ℕ)} (ho : Owns bs live) (h : live'.Sublist live) :
    Owns bs live' :=
  ⟨fun x hx => ho.block x (h.subset hx), ho.nodup.sublist (h.map _)⟩

/-- What a condition must do for a property of the blocks: keep it at each call, and make `mm_free`
follow a right `prev` field only. -/
structure Guard.Keeps (g : Guard) (P : List Block → Prop) : Prop where
  malloc : ∀ {h : Heap} {bs bs' : List Block} {size p : ℕ}, Tiled h bs → g.malloc h size → P bs →
    Mallocs bs h.brk size p bs' → P bs'
  prev : ∀ {h : Heap} {pre post : List Block} {b : Block}, Tiled h (pre ++ b :: post) →
    g.free h b.addr → P (pre ++ b :: post) → b.prev ≠ 0 → SBlock.free h.mem b.prev = 1 →
    ∃ pre' p, pre = pre' ++ [p] ∧ p.addr = b.prev
  free : ∀ {h : Heap} {pre post bs' : List Block} {b : Block}, Tiled h (pre ++ b :: post) →
    g.free h b.addr → P (pre ++ b :: post) → Frees pre b post bs' → P bs'

section Run

variable {g : Guard} {P : List Block → Prop} (hg : g.Keeps P)

include hg

theorem Guard.Keeps.mmMalloc {h h' : Heap} {size p : ℕ} {grant : Bool} (ht : Tiled h bs)
    (ho : Owns bs live) (hP : P bs) (hok : SizeOk size grant) (hgd : size ≠ 0 → g.malloc h size)
    (hm : Cs162.mmMalloc h size grant = some (h', p)) :
    ∃ bs', Tiled h' bs' ∧ Owns bs' (if p = 0 then live else (p, size) :: live) ∧ P bs' := by
  by_cases h0 : size = 0
  · rw [Cs162.mmMalloc, if_pos h0, Option.some.injEq, Prod.mk.injEq] at hm
    obtain ⟨rfl, rfl⟩ := hm
    exact ⟨bs, ht, ho, hP⟩
  obtain ⟨h₁, p₁, bs', hm', hmal, ht'⟩ := mmMalloc_spec ht hok.1 hok.2
  rw [hm, Option.some.injEq, Prod.mk.injEq] at hm'
  obtain ⟨rfl, rfl⟩ := hm'
  exact ⟨bs', ht', ho.mallocs ht hmal, hg.malloc ht (hgd h0) hP hmal⟩

theorem Guard.Keeps.mmFree {h : Heap} {ptr : ℕ} (ht : Tiled h bs) (ho : Owns bs live) (hP : P bs)
    (hptr : ptr ∈ live.map Prod.fst) (hgd : g.free h (ptr - sizeofSBlock)) :
    ∃ bs', Tiled (mmFree h ptr) bs' ∧ Owns bs' (live.filter (·.1 ≠ ptr)) ∧ P bs' := by
  obtain ⟨x, hx, rfl⟩ := List.mem_map.1 hptr
  obtain ⟨b, hb, -, hxb, -⟩ := ho.block x hx
  obtain ⟨pre, post, rfl⟩ := List.append_of_mem hb
  have hblock : SBlock.data b.addr - sizeofSBlock = b.addr := Nat.add_sub_cancel _ _
  rw [hxb, hblock] at hgd
  rw [hxb]
  obtain ⟨bs', hf, ht'⟩ := mmFree_spec ht (hg.prev ht hgd hP)
  exact ⟨bs', ht', ho.frees hf, hg.free ht hgd hP hf⟩

theorem Guard.Keeps.mmRealloc {h h' : Heap} {ptr size p : ℕ} {grant : Bool} (ht : Tiled h bs)
    (ho : Owns bs live) (hP : P bs) (hlegal : HeapCall.Legal ⟨h, live⟩ (.realloc ptr size grant))
    (hgd : g.Holds ⟨h, live⟩ (.realloc ptr size grant))
    (hr : mmRealloc h ptr size grant = some (h', p)) :
    ∃ bs', Tiled h' bs' ∧
      Owns bs' (if p = 0 then live else (p, size) :: live.filter (·.1 ≠ ptr)) ∧ P bs' := by
  obtain ⟨hptr, hok⟩ := hlegal
  have hgm : size ≠ 0 → g.malloc h size := fun h0 => (hgd h0).1
  unfold Cs162.mmRealloc at hr
  by_cases h0 : ptr = 0
  · rw [if_pos h0] at hr
    obtain ⟨bs', ht', ho', hP'⟩ := hg.mmMalloc ht ho hP hok hgm hr
    refine ⟨bs', ht', ?_, hP'⟩
    split_ifs at ho' ⊢
    · exact ho'
    · exact ho'.sublist (List.filter_sublist.cons_cons _)
  rw [if_neg h0] at hr
  by_cases hsize : size = 0
  · rw [if_pos hsize, Option.some.injEq, Prod.mk.injEq] at hr
    obtain ⟨rfl, rfl⟩ := hr
    exact ⟨bs, ht, ho, hP⟩
  simp only [if_neg hsize, Option.bind_eq_bind, Option.bind_eq_some_iff] at hr
  obtain ⟨⟨h₁, p₁⟩, hm, hr⟩ := hr
  obtain ⟨bs₁, ht₁, ho₁, hP₁⟩ := hg.mmMalloc ht ho hP hok hgm hm
  split_ifs at hr with hp
  · simp only [Option.some.injEq, Prod.mk.injEq] at hr
    obtain ⟨rfl, rfl⟩ := hr
    simp only at hp
    rw [if_pos hp] at ho₁
    exact ⟨bs₁, ht₁, ho₁, hP₁⟩
  · simp only [Option.some.injEq, Prod.mk.injEq] at hr
    obtain ⟨rfl, rfl⟩ := hr
    simp only at hp
    rw [if_neg hp] at ho₁ ⊢
    have hptr' : ptr ∈ live.map Prod.fst := hptr.resolve_left h0
    have hne : p₁ ≠ ptr := fun h => (List.nodup_cons.1 ho₁.nodup).1 (h ▸ hptr')
    obtain ⟨b, hb, -, hpb, hsb⟩ := ho₁.block _ List.mem_cons_self
    have ht₂ : Tiled { h₁ with mem := moveContents h₁.mem p₁ ptr size } bs₁ := by
      refine ht₁.write hb (moveContents_only _ _ _ _) hpb.ge ?_
      simp only at hpb hsb
      unfold SBlock.data at hpb
      unfold Block.stop
      omega
    obtain ⟨bs₂, ht₃, ho₃, hP₃⟩ := hg.mmFree ht₂ ho₁ hP₁ (List.mem_cons_of_mem _ hptr')
      ((hgd hsize).2 h0 h₁ p₁ hm hp)
    rw [List.filter_cons_of_pos (by simpa using hne)] at ho₃
    exact ⟨bs₂, ht₃, ho₃, hP₃⟩

theorem Guard.Keeps.step {s s' : HeapState} {c : HeapCall} (hinv : HeapInv P s) (hlegal : c.Legal s)
    (hgd : g.Holds s c) (hstep : s.step c = some s') : HeapInv P s' := by
  obtain ⟨bs, ht, ho, hP⟩ := hinv
  cases c with
  | malloc size grant =>
    simp only [HeapState.step, Option.map_eq_some_iff] at hstep
    obtain ⟨⟨h', p⟩, hm, rfl⟩ := hstep
    exact hg.mmMalloc ht ho hP hlegal hgd hm
  | free ptr =>
    simp only [HeapState.step, Option.some.injEq] at hstep
    rw [← hstep]
    exact hg.mmFree ht ho hP hlegal hgd
  | realloc ptr size grant =>
    simp only [HeapState.step, Option.map_eq_some_iff] at hstep
    obtain ⟨⟨h', p⟩, hr, rfl⟩ := hstep
    exact hg.mmRealloc ht ho hP hlegal hgd hr
  | write addr bytes =>
    simp only [HeapState.step, Option.some.injEq] at hstep
    rw [← hstep]
    obtain ⟨x, hx, hlo, hhi⟩ := hlegal
    obtain ⟨b, hb, -, hxb, hsize⟩ := ho.block x hx
    refine ⟨bs, ht.write hb (poke_only _ _) (by omega) ?_, ho, hP⟩
    unfold SBlock.data at hxb
    unfold Block.stop
    omega

theorem Guard.Keeps.run (cs : List HeapCall) : ∀ {s s' : HeapState}, HeapInv P s →
    EachCall g.Holds s cs → s.run cs = some s' → HeapInv P s' := by
  induction cs with
  | nil =>
    intro s s' hinv _ hrun
    cases hrun
    exact hinv
  | cons c cs ih =>
    intro s s' hinv heach hrun
    rw [HeapState.run] at hrun
    split_ifs at hrun with hlegal
    simp only [Option.bind_eq_some_iff] at hrun
    obtain ⟨s₁, hstep, hrun⟩ := hrun
    exact ih (hg.step hinv hlegal heach.1 hstep) (heach.2 s₁ hstep) hrun

end Run

/-! ## From the invariant to the heap -/

theorem HeapInv.empty {P : List Block → Prop} (hP : P []) (mem : Memory) {brk : ℕ}
    (hpos : 0 < brk) (hlt : brk < 2 ^ 64) : HeapInv P (emptyHeap mem brk) :=
  ⟨[], ⟨rfl, rfl, by simp, hpos, hlt⟩, ⟨by simp [emptyHeap], by simp [emptyHeap]⟩, hP⟩

/-- What the list reaches is a block. -/
theorem Tiled.of_onList {h : Heap} (ht : Tiled h bs) {a : ℕ} (ha : h.OnList a) :
    ∃ pre b post, bs = pre ++ b :: post ∧ b.addr = a := by
  induction ha with
  | base hne =>
    rw [ht.base] at hne ⊢
    rcases bs with _ | ⟨b, bs⟩
    · exact absurd rfl hne
    · exact ⟨[], b, bs, rfl, rfl⟩
  | next a _ hne ih =>
    obtain ⟨pre, b, post, rfl, rfl⟩ := ih
    obtain ⟨-, hhead, -⟩ := lays_append_cons.1 ht.lays
    rw [hhead.next] at hne ⊢
    rcases post with _ | ⟨c, post⟩
    · exact absurd rfl hne
    · exact ⟨pre ++ [b], c, post, by simp, rfl⟩

theorem Tiled.onList {h : Heap} : ∀ {pre post : List Block} {b : Block},
    Tiled h (pre ++ b :: post) → h.OnList b.addr := by
  intro pre
  induction pre using List.reverseRecOn with
  | nil =>
    intro post b ht
    have hbase : h.globalBase = b.addr := ht.base
    have hpos := (ht.addr_pos (b := b) (by simp)).2.1
    exact hbase ▸ .base (by omega)
  | append_singleton pre p ih =>
    intro post b ht
    have hpos := (ht.addr_pos (b := b) (by simp)).2.1
    rw [List.append_assoc, List.singleton_append] at ht
    obtain ⟨-, hhead, -⟩ := lays_append_cons.1 ht.lays
    have hnext : SBlock.next h.mem p.addr = b.addr := hhead.next
    exact hnext ▸ .next p.addr (ih ht) (by omega)

theorem Tiled.apart_of_mem {h : Heap} {x z : Block} (ht : Tiled h (pre ++ x :: post))
    (hz : z ∈ pre ∨ z ∈ post) : z.stop ≤ x.addr ∨ x.stop ≤ z.addr := by
  obtain ⟨-, hpost, hpre⟩ := List.pairwise_append.1 ht.lays.pairwise.2
  rcases hz with hz | hz
  · exact .inl (hpre z hz x List.mem_cons_self)
  · exact .inr ((List.pairwise_cons.1 hpost).1 z hz)

theorem mem_sides {x z : Block} (hz : z ∈ pre ++ x :: post) (hne : z ≠ x) : z ∈ pre ∨ z ∈ post := by
  rcases List.mem_append.1 hz with hz | hz
  · exact .inl hz
  · exact .inr ((List.mem_cons.1 hz).resolve_left hne)

theorem Tiled.apart {h : Heap} (ht : Tiled h bs) {x y : Block} (hx : x ∈ bs) (hy : y ∈ bs)
    (hne : x.addr ≠ y.addr) : x.stop ≤ y.addr ∨ y.stop ≤ x.addr := by
  obtain ⟨pre, post, rfl⟩ := List.append_of_mem hx
  exact (ht.apart_of_mem (mem_sides hy fun h => hne (h ▸ rfl))).symm

theorem HeapInv.apart {P : List Block → Prop} {s : HeapState} (hinv : HeapInv P s) : Apart s := by
  obtain ⟨bs, ht, ho, -⟩ := hinv
  refine ⟨?_, fun x hx => ?_, fun x hx a ha => ?_⟩
  · refine (List.pairwise_map.1 ho.nodup).imp_of_mem fun {x y} hx hy hne => ?_
    obtain ⟨b, hb, -, hxb, hbs⟩ := ho.block x hx
    obtain ⟨c, hc, -, hyc, hcs⟩ := ho.block y hy
    have hbc : b.addr ≠ c.addr := fun h => hne (by rw [hxb, hyc, h])
    rcases ht.apart hb hc hbc with h | h <;> unfold Block.stop at h <;>
      unfold SBlock.data at hxb hyc <;> omega
  · obtain ⟨b, hb, -, hxb, hbs⟩ := ho.block x hx
    have hstop := (ht.addr_pos hb).2.2
    unfold Block.stop at hstop
    unfold SBlock.data at hxb
    omega
  · obtain ⟨b, hb, -, hxb, hbs⟩ := ho.block x hx
    obtain ⟨pre, c, post, rfl, rfl⟩ := ht.of_onList ha
    unfold SBlock.data at hxb
    by_cases hbc : b.addr = c.addr
    · omega
    · rcases ht.apart hb (by simp) hbc with h | h <;> unfold Block.stop at h <;> omega

/-! ## Blocks stay apart -/

def freshPrevGuard : Guard := ⟨fun _ _ => True, FreshPrev⟩

theorem freshPrevGuard_keeps : freshPrevGuard.Keeps fun _ => True where
  malloc _ _ _ _ := trivial
  free _ _ _ _ := trivial
  prev {h pre post b} ht hgd _ hne hfree := by
    obtain ⟨-, hhead, -⟩ := lays_append_cons.1 ht.lays
    have hprev := hgd
    unfold freshPrevGuard FreshPrev at hprev
    simp only [hhead.prev] at hprev
    obtain ⟨hon, hnext⟩ := hprev hne hfree
    obtain ⟨l, x, r, heq, haddr⟩ := ht.of_onList hon
    have hlays := ht.lays
    rw [heq] at hlays
    obtain ⟨-, hx, -⟩ := lays_append_cons.1 hlays
    rw [← haddr, hx.next] at hnext
    have hb : b ∈ pre ++ b :: post := by simp
    rcases r with _ | ⟨c, r⟩
    · have := (ht.addr_pos hb).2.1
      simp only [firstAddr] at hnext
      omega
    · have hc : c = b := ht.addr_inj (heq ▸ by simp) hb hnext
      subst hc
      have hnd := List.Nodup.of_map _ ht.nodup
      have hpre : c ∉ pre := fun hmem =>
        (List.disjoint_of_nodup_append hnd) hmem List.mem_cons_self
      have hpost : c ∉ post := (List.nodup_cons.1 (List.Nodup.of_append_right hnd)).1
      rw [show l ++ x :: c :: r = (l ++ [x]) ++ c :: r by simp] at heq
      exact ⟨l, x, ((List.append_cons_inj_of_notMem hpre hpost).1 heq).1, haddr⟩

/-- In a run whose `mm_free`s merge backwards through right `prev` fields only, the client's memory
stays apart, below the break, and clear of the headers. -/
theorem run_apart (mem : Memory) (brk : ℕ) (hpos : 0 < brk) (hlt : brk < 2 ^ 64)
    (cs : List HeapCall) (s : HeapState)
    (hfresh : EachCall freshPrevGuard.Holds (emptyHeap mem brk) cs)
    (hrun : (emptyHeap mem brk).run cs = some s) : Apart s :=
  (freshPrevGuard_keeps.run cs (HeapInv.empty trivial mem hpos hlt) hfresh hrun).apart

/-! ## Links stay mirrored -/

/-- Each block's `prev` field names the block before it, the first one's is `p`. -/
def Linked : ℕ → List Block → Prop
  | _, [] => True
  | p, b :: bs => b.prev = p ∧ Linked b.addr bs

theorem linked_append : ∀ {xs ys : List Block} {p : ℕ},
    Linked p (xs ++ ys) ↔ Linked p xs ∧ Linked (lastAddr xs p) ys
  | [], ys, p => by simp [Linked, lastAddr]
  | x :: xs, ys, p => by
    simp only [List.cons_append, Linked, lastAddr, linked_append, and_assoc]

theorem mirrored_of_linked {h : Heap} (ht : Tiled h bs) (hl : Linked 0 bs) : Mirrored h := by
  refine ⟨fun hne => ?_, fun a ha hne => ?_, fun a ha hne => ?_⟩
  · rw [ht.base] at hne ⊢
    rcases bs with _ | ⟨b, bs⟩
    · exact absurd rfl hne
    · exact ht.lays.2.1.prev.trans hl.1
  · obtain ⟨pre, b, post, rfl, rfl⟩ := ht.of_onList ha
    obtain ⟨-, hhead, hpost⟩ := lays_append_cons.1 ht.lays
    rw [hhead.next] at hne ⊢
    rcases post with _ | ⟨c, post⟩
    · exact absurd rfl hne
    · have hc : c.prev = b.addr := (linked_append.1 hl).2.2.1
      exact ⟨hpost.2.1.prev.trans hc, by rw [hhead.size]; exact hpost.1⟩
  · obtain ⟨pre, b, post, rfl, rfl⟩ := ht.of_onList ha
    obtain ⟨-, hhead, hpost⟩ := lays_append_cons.1 ht.lays
    rw [hhead.next] at hne
    rw [hhead.size]
    rcases post with _ | ⟨c, post⟩
    · exact hpost
    · exact absurd hne (ht.addr_pos (b := c) (by simp)).2.1.ne'

def lastGuard : Guard := ⟨SplitsLast, MergesLast⟩

theorem post_eq_nil {h : Heap} {b : Block} (ht : Tiled h (pre ++ b :: post))
    (hnext : SBlock.next h.mem b.addr = 0) : post = [] := by
  obtain ⟨-, hhead, -⟩ := lays_append_cons.1 ht.lays
  rw [hhead.next] at hnext
  rcases post with _ | ⟨c, post⟩
  · rfl
  · exact absurd hnext (ht.addr_pos (b := c) (by simp)).2.1.ne'

/-- A block of the list, behind the block its `prev` field names. -/
theorem Linked.prev {b : Block} (hl : Linked 0 (pre ++ b :: post)) (hne : b.prev ≠ 0) :
    ∃ pre' p, pre = pre' ++ [p] ∧ p.addr = b.prev := by
  have hb : b.prev = lastAddr pre 0 := (linked_append.1 hl).2.1
  rw [hb] at hne ⊢
  exact exists_lastAddr hne

theorem first_unique {size : ℕ} {pre' post' : List Block} {b c : Block}
    (heq : pre' ++ c :: post' = pre ++ b :: post) (hpre' : ∀ x ∈ pre', ¬ x.Fits size)
    (hc : c.Fits size) (hpre : ∀ x ∈ pre, ¬ x.Fits size) (hb : b.Fits size) : c = b := by
  classical
  have hfind : ∀ (l r : List Block) (x : Block), (∀ y ∈ l, ¬ y.Fits size) → x.Fits size →
      (l ++ x :: r).find? (fun y => decide (y.Fits size)) = some x := fun l r x hl hx =>
    List.find?_eq_some_iff_append.2 ⟨by simpa using hx, l, r, rfl, by simpa using hl⟩
  have h1 := hfind pre' post' c hpre' hc
  rw [heq, hfind pre post b hpre hb, Option.some.injEq] at h1
  exact h1.symm

theorem linked_mallocs {h : Heap} {size p : ℕ} (ht : Tiled h bs) (hsplit : SplitsLast h size)
    (hl : Linked 0 bs) (hm : Mallocs bs h.brk size p bs') : Linked 0 bs' := by
  cases hm with
  | null => exact hl
  | extend => exact linked_append.2 ⟨hl, rfl, trivial⟩
  | whole pre b post hbs =>
    subst hbs
    obtain ⟨h1, h2, h3⟩ := linked_append.1 hl
    exact linked_append.2 ⟨h1, h2, h3⟩
  | split pre b post hbs hpre hb hle =>
    subst hbs
    have hlast : SBlock.next h.mem b.addr = 0 := by
      obtain ⟨-, hhead, -⟩ := lays_append_cons.1 ht.lays
      have hpos := (ht.addr_pos (b := b) (by simp)).2.1.ne'
      rcases freeBlockOrNah_spec ht (by simp) size with ⟨pre', c, post', last, heq, hpre', hc, hwalk⟩ |
        ⟨hno, -⟩
      · have hcb : c = b := first_unique heq.symm hpre' hc hpre hb
        subst hcb
        exact hsplit _ _ hwalk hpos (hhead.size.symm ▸ hle)
      · exact absurd hb (hno b (by simp))
    obtain rfl := post_eq_nil ht hlast
    obtain ⟨h1, h2, -⟩ := linked_append.1 hl
    exact linked_append.2 ⟨h1, h2, rfl, trivial⟩

theorem linked_frees {h : Heap} {b : Block} (ht : Tiled h (pre ++ b :: post))
    (hmerge : MergesLast h b.addr) (hl : Linked 0 (pre ++ b :: post))
    (hf : Frees pre b post bs') : Linked 0 bs' := by
  obtain ⟨-, hhead, hpost⟩ := lays_append_cons.1 ht.lays
  obtain ⟨h1, h2, h3⟩ := linked_append.1 hl
  have hnext : ∀ c post', post = c :: post' → c.isFree = true → post' = [] := by
    rintro c post' rfl hc
    have hcpos := (ht.addr_pos (b := c) (by simp)).2.1.ne'
    have ht' : Tiled h ((pre ++ [b]) ++ c :: post') := by simpa using ht
    refine post_eq_nil ht' ?_
    have h4 := hmerge.1
    rw [hhead.next] at h4
    simp only [firstAddr] at h4
    exact h4 hcpos (by rw [hpost.2.1.free, hc]; rfl)
  have hmerged : Linked (lastAddr pre 0) (mergeNext { b with isFree := true } post) := by
    rcases post with _ | ⟨c, post⟩
    · exact ⟨h2, trivial⟩
    · rw [mergeNext]
      split_ifs with hc
      · rw [hnext c post rfl hc]
        exact ⟨h2, trivial⟩
      · exact ⟨h2, h3⟩
  cases hf with
  | alone => exact linked_append.2 ⟨h1, hmerged⟩
  | back pre' p b' post' hpre hp hprev hb =>
    subst hpre
    have hpost' : post' = [] := by
      rcases post with _ | ⟨c, post⟩
      · simp only [mergeNext, List.cons.injEq] at hb
        exact hb.2.symm
      · have hc : c.isFree = true := by
          have hlays := ht.lays
          rw [List.append_assoc, List.singleton_append] at hlays
          obtain ⟨-, hphead, -⟩ := lays_append_cons.1 hlays
          have h4 := hmerge.2
          rw [hhead.next, hhead.prev, hprev, hphead.free, hp] at h4
          have h5 := h4 (ht.addr_pos (b := p) (by simp)).2.1.ne' rfl
            (ht.addr_pos (b := c) (by simp)).2.1.ne'
          simp only [firstAddr, hpost.2.1.free] at h5
          cases hf : c.isFree
          · rw [hf] at h5
            cases h5
          · rfl
        rw [mergeNext, if_pos hc, hnext c post rfl hc, List.cons.injEq] at hb
        exact hb.2.symm
    obtain ⟨h4, h5, -⟩ := linked_append.1 h1
    rw [hpost']
    exact linked_append.2 ⟨h4, h5, trivial⟩

theorem lastGuard_keeps : lastGuard.Keeps (Linked 0) where
  malloc ht hgd hl hm := linked_mallocs ht hgd hl hm
  prev _ _ hl hne _ := hl.prev hne
  free ht hgd hl hf := linked_frees ht hgd hl hf

/-- In a run that splits and merges at the end of the list only, the links stay mirrored and the
blocks tile the heap. -/
theorem run_mirrored (mem : Memory) (brk : ℕ) (hpos : 0 < brk) (hlt : brk < 2 ^ 64)
    (cs : List HeapCall) (s : HeapState)
    (hlast : EachCall lastGuard.Holds (emptyHeap mem brk) cs)
    (hrun : (emptyHeap mem brk).run cs = some s) : Mirrored s.heap := by
  obtain ⟨bs, ht, -, hl⟩ :=
    lastGuard_keeps.run cs (HeapInv.empty (P := Linked 0) trivial mem hpos hlt) hlast hrun
  exact mirrored_of_linked ht hl

/-! ## The two failures -/

/-- Of three blocks the last is freed and split, merged with what was split off, and merged into the
one before it, which is then split. -/
def lastCalls : List HeapCall :=
  [.malloc 8 true, .malloc 8 true, .malloc 100 true, .free 4208, .malloc 8 true, .free 4208,
    .free 4168, .malloc 100 true]

theorem splitsLast_of {h : Heap} {size b last : ℕ}
    (hwalk : freeBlockOrNah h h.globalBase size = some (b, last))
    (hlast : b = 0 ∨ SBlock.next h.mem b = 0) : SplitsLast h size := by
  intro b' last' hwalk' hb' _
  rw [hwalk, Option.some.injEq, Prod.mk.injEq] at hwalk'
  obtain ⟨rfl, -⟩ := hwalk'
  exact hlast.resolve_left hb'

theorem run_mirrored_lastCalls : ∃ s, (emptyHeap (fun _ => 0) 4096).run lastCalls = some s ∧
    s.live = [(4168, 100), (4128, 8)] ∧ Mirrored s.heap := by
  obtain ⟨s, hrun, hlive⟩ : ∃ s, (emptyHeap (fun _ => 0) 4096).run lastCalls = some s ∧
    s.live = [(4168, 100), (4128, 8)] := ⟨_, rfl, rfl⟩
  have hlast : EachCall lastGuard.Holds (emptyHeap (fun _ => 0) 4096) lastCalls := by
    refine ⟨fun _ => splitsLast_of rfl (.inl rfl), fun s hs => ?_⟩
    cases hs
    refine ⟨fun _ => splitsLast_of rfl (.inl rfl), fun s hs => ?_⟩
    cases hs
    refine ⟨fun _ => splitsLast_of rfl (.inl rfl), fun s hs => ?_⟩
    cases hs
    -- the last of the three blocks is freed, and the one before it is in use
    refine ⟨⟨fun hne => absurd rfl hne, fun _ hfree => absurd hfree (by decide +kernel)⟩,
      fun s hs => ?_⟩
    cases hs
    refine ⟨fun _ => splitsLast_of rfl (.inr rfl), fun s hs => ?_⟩
    cases hs
    -- what was split off is behind the freed block, and is the last one
    refine ⟨⟨fun _ _ => by decide +kernel, fun _ hfree => absurd hfree (by decide +kernel)⟩,
      fun s hs => ?_⟩
    cases hs
    refine ⟨⟨fun _ _ => by decide +kernel, fun _ hfree => absurd hfree (by decide +kernel)⟩,
      fun s hs => ?_⟩
    cases hs
    exact ⟨fun _ => splitsLast_of rfl (.inr rfl), fun s hs => trivial⟩
  exact ⟨s, hrun, hlive, run_mirrored _ 4096 (by decide) (by decide) _ s hlast hrun⟩

/-- Of three blocks the first two are freed, and the second one is merged into the first. What they
make together is taken again. -/
def mergedCalls : List HeapCall :=
  [.malloc 8 true, .malloc 8 true, .malloc 8 true, .free 4128, .free 4168, .malloc 16 true]

theorem freshPrev_base {h : Heap} {b : ℕ} (hprev : SBlock.prev h.mem b = h.globalBase)
    (hnext : SBlock.next h.mem h.globalBase = b) : FreshPrev h b := by
  intro hne _
  rw [hprev] at hne ⊢
  exact ⟨.base hne, hnext⟩

theorem run_apart_mergedCalls : ∃ s, (emptyHeap (fun _ => 0) 4096).run mergedCalls = some s ∧
    s.live = [(4128, 16), (4208, 8)] ∧ Apart s := by
  obtain ⟨s, hrun, hlive⟩ : ∃ s, (emptyHeap (fun _ => 0) 4096).run mergedCalls = some s ∧
    s.live = [(4128, 16), (4208, 8)] := ⟨_, rfl, rfl⟩
  have hfresh : EachCall freshPrevGuard.Holds (emptyHeap (fun _ => 0) 4096) mergedCalls := by
    refine ⟨fun _ => trivial, fun s hs => ?_⟩
    cases hs
    refine ⟨fun _ => trivial, fun s hs => ?_⟩
    cases hs
    refine ⟨fun _ => trivial, fun s hs => ?_⟩
    cases hs
    refine ⟨fun hne => absurd rfl hne, fun s hs => ?_⟩
    cases hs
    exact ⟨freshPrev_base (by decide +kernel) (by decide +kernel), fun s hs =>
      ⟨fun _ => trivial, fun _ _ => trivial⟩⟩
  exact ⟨s, hrun, hlive, run_apart _ 4096 (by decide) (by decide) _ s hfresh hrun⟩

/-- Three blocks, of which the first two are freed. -/
def mergeCalls : List HeapCall :=
  [.malloc 8 true, .malloc 8 true, .malloc 8 true, .free 4128, .free 4168]

theorem mergeCalls_not_mirrored :
    ¬ ∀ (mem : Memory) (brk : ℕ), 0 < brk → brk < 2 ^ 64 → ∀ (cs : List HeapCall) (s : HeapState),
      (emptyHeap mem brk).run cs = some s → Mirrored s.heap := by
  intro hall
  obtain ⟨s, hrun, hbase, hnext, hprev⟩ : ∃ s, (emptyHeap (fun _ => 0) 4096).run mergeCalls = some s ∧
      s.heap.globalBase = 4096 ∧ SBlock.next s.heap.mem 4096 = 4176 ∧
      SBlock.prev s.heap.mem 4176 = 4136 := ⟨_, rfl, rfl, rfl, rfl⟩
  have hon : s.heap.OnList 4096 := hbase ▸ .base (by rw [hbase]; decide)
  have hlink := ((hall _ _ (by decide) (by decide) _ s hrun).link 4096 hon (by rw [hnext]; decide)).1
  rw [hnext, hprev] at hlink
  exact absurd hlink (by decide)

/-- A large block is freed and taken again in two parts, so that the `prev` field behind it is
stale. -/
def staleCalls : List HeapCall :=
  [.malloc 200 true, .malloc 8 true, .free 4128, .malloc 8 true, .malloc 160 true, .free 4128,
    .free 4360, .malloc 48 true]

theorem staleCalls_not_apart :
    ¬ ∀ (mem : Memory) (brk : ℕ), 0 < brk → brk < 2 ^ 64 → ∀ (cs : List HeapCall) (s : HeapState),
      (emptyHeap mem brk).run cs = some s → Apart s := by
  intro hall
  obtain ⟨s, hrun, hlive⟩ := Option.map_eq_some_iff.1
    (show ((emptyHeap (fun _ => 0) 4096).run staleCalls).map HeapState.live
      = some [(4128, 48), (4168, 160)] by decide +kernel)
  have hdisj := (hall _ _ (by decide) (by decide) _ s hrun).disjoint
  rw [hlive] at hdisj
  exact absurd hdisj (by decide)

end Cs162
