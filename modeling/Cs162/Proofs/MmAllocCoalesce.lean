import Cs162.Proofs.MmAllocRuns
import Mathlib.Data.List.Chain

/-!
# Coalescing

A block that is freed is merged with a free block on either side of it, so that no two free blocks
should ever be adjacent. The one in front is found through `next`, which is always right. The one
behind is found through `prev`, which a split leaves stale: the block behind the second half still
names the first half. When that block is freed it is not merged with the free second half.

`SeesPrev` says that this does not happen at a call of `mm_free`. In a run where it never does, and
no merge follows a wrong `prev` field (`FreshPrev`), the heap stays coalesced (`run_coalesced`).
-/

namespace Cs162

open CLib CLib.Memory

/-- No two free blocks of the list are adjacent. -/
def Heap.Coalesced (h : Heap) : Prop :=
  ∀ b c, h.OnList b → h.OnList c → c = b + sizeofSBlock + SBlock.size h.mem b →
    ¬ (SBlock.free h.mem b = 1 ∧ SBlock.free h.mem c = 1)

/-- If the block before it on the list is free, that is the one its `prev` field names. -/
def SeesPrev (h : Heap) (b : ℕ) : Prop :=
  ∀ p, h.OnList p → SBlock.next h.mem p = b → SBlock.free h.mem p = 1 → SBlock.prev h.mem b = p

/-- The condition on a run: `mm_free` finds the block before the one it frees if that is free, and
takes no other block for it. -/
def seesPrevGuard : Guard := ⟨fun _ _ => True, fun h b => FreshPrev h b ∧ SeesPrev h b⟩

/-- No two neighbours in a list of blocks are free. -/
def NoFreePair (bs : List Block) : Prop :=
  bs.IsChain fun x y => ¬ (x.isFree = true ∧ y.isFree = true)

variable {bs bs' pre post : List Block}

theorem noFreePair_cons {b : Block} : NoFreePair (b :: bs)
    ↔ (b.isFree = true → ∀ c ∈ bs.head?, c.isFree = false) ∧ NoFreePair bs := by
  unfold NoFreePair
  rw [List.isChain_cons]
  refine and_congr_left fun _ => ⟨fun h hb c hc => ?_, fun h c hc hbc => ?_⟩
  · exact Bool.eq_false_iff.2 fun hf => h c hc ⟨hb, hf⟩
  · rw [h hbc.1 c hc] at hbc
    exact Bool.false_ne_true hbc.2

theorem noFreePair_append : NoFreePair (pre ++ bs) ↔ NoFreePair pre ∧ NoFreePair bs ∧
    ∀ x ∈ pre.getLast?, ∀ y ∈ bs.head?, ¬ (x.isFree = true ∧ y.isFree = true) :=
  List.isChain_append

/-- A block that is marked in use may take the place of any block. -/
theorem NoFreePair.take {b b' : Block} (h : NoFreePair (pre ++ b :: post)) (mid : List Block)
    (hb' : b'.isFree = false) (hmid : NoFreePair (mid ++ post)) :
    NoFreePair (pre ++ b' :: (mid ++ post)) := by
  obtain ⟨hpre, -, -⟩ := noFreePair_append.1 h
  refine noFreePair_append.2 ⟨hpre, noFreePair_cons.2 ⟨fun hf => ?_, hmid⟩, fun x _ y hy hxy => ?_⟩
  · rw [hb'] at hf
    cases hf
  · obtain rfl : b' = y := Option.some.inj hy
    rw [hb'] at hxy
    exact Bool.false_ne_true hxy.2

theorem noFreePair_mallocs {brk size p : ℕ} (h : NoFreePair bs) (hm : Mallocs bs brk size p bs') :
    NoFreePair bs' := by
  cases hm with
  | null => exact h
  | extend =>
    refine noFreePair_append.2 ⟨h, .singleton _, fun x _ y hy hxy => ?_⟩
    rw [List.head?_cons, Option.mem_some_iff] at hy
    rw [← hy] at hxy
    exact Bool.false_ne_true hxy.2
  | whole pre b post hbs hpre hb =>
    subst hbs
    exact h.take [] rfl (noFreePair_cons.1 (noFreePair_append.1 h).2.1).2
  | split pre b post hbs hpre hb =>
    subst hbs
    -- the second half is free as the whole block was
    obtain ⟨hnext, hpost⟩ := noFreePair_cons.1 (noFreePair_append.1 h).2.1
    exact h.take [_] rfl (noFreePair_cons.2 ⟨fun _ => hnext hb.1, hpost⟩)

theorem NoFreePair.mergeNext {b : Block} (h : NoFreePair post) : NoFreePair (mergeNext b post) := by
  rcases post with _ | ⟨c, post⟩
  · exact .singleton _
  obtain ⟨hc, hpost⟩ := noFreePair_cons.1 h
  rw [Cs162.mergeNext]
  split_ifs with hfree
  · exact noFreePair_cons.2 ⟨fun _ => hc hfree, hpost⟩
  · refine noFreePair_cons.2 ⟨fun _ d hd => ?_, h⟩
    rw [List.head?_cons, Option.mem_some_iff] at hd
    rw [← hd]
    exact Bool.eq_false_iff.2 hfree

/-- The block before a freed one is in use, unless the `prev` field names it. -/
theorem last_used_of_seesPrev {h : Heap} {b : Block} (ht : Tiled h (pre ++ b :: post))
    (hsees : SeesPrev h b.addr)
    (hno : ∀ pre' p, pre = pre' ++ [p] → p.isFree = true → b.prev ≠ p.addr) :
    ∀ x ∈ pre.getLast?, x.isFree = false := by
  intro x hx
  obtain ⟨pre', rfl⟩ := List.getLast?_eq_some_iff.1 hx
  refine Bool.eq_false_iff.2 fun hfree => hno pre' x rfl hfree ?_
  obtain ⟨-, hbhead, -⟩ := lays_append_cons.1 ht.lays
  rw [List.append_assoc, List.singleton_append] at ht
  obtain ⟨-, hxhead, -⟩ := lays_append_cons.1 ht.lays
  rw [← hbhead.prev]
  exact hsees x.addr ht.onList hxhead.next (by rw [hxhead.free, hfree]; rfl)

theorem noFreePair_frees {h : Heap} {b : Block} (ht : Tiled h (pre ++ b :: post))
    (hsees : SeesPrev h b.addr) (hP : NoFreePair (pre ++ b :: post)) (hf : Frees pre b post bs') :
    NoFreePair bs' := by
  obtain ⟨hpre, hpost, -⟩ := noFreePair_append.1 hP
  have hmerged := (noFreePair_cons.1 hpost).2.mergeNext (b := { b with isFree := true })
  cases hf with
  | alone hno =>
    refine noFreePair_append.2 ⟨hpre, hmerged, fun x hx y _ hxy => ?_⟩
    rw [last_used_of_seesPrev ht hsees hno x hx] at hxy
    exact Bool.false_ne_true hxy.1
  | back pre' p b' post' hpreEq hp hprev hb =>
    subst hpreEq
    rw [hb] at hmerged
    obtain ⟨hpre', -, hlast⟩ := noFreePair_append.1 hpre
    have hb' : b'.isFree = true := by
      rcases post with _ | ⟨c, post⟩
      · simp only [mergeNext, List.cons.injEq] at hb
        exact hb.1 ▸ rfl
      · rw [mergeNext] at hb
        split_ifs at hb <;> exact (List.cons.inj hb).1 ▸ rfl
    obtain ⟨hnext, hpost'⟩ := noFreePair_cons.1 hmerged
    refine noFreePair_append.2 ⟨hpre', noFreePair_cons.2 ⟨fun _ => hnext hb', hpost'⟩, ?_⟩
    intro x hx y _ hxy
    exact hlast x hx p rfl ⟨hxy.1, hp⟩

theorem seesPrevGuard_keeps : seesPrevGuard.Keeps NoFreePair where
  malloc _ _ hP hm := noFreePair_mallocs hP hm
  prev ht hgd _ hne hfree := freshPrevGuard_keeps.prev ht hgd.1 trivial hne hfree
  free ht hgd hP hf := noFreePair_frees ht hgd.2 hP hf

/-- On a tiled heap the block at the end of a block is the next one of the list. -/
theorem Tiled.head_eq {h : Heap} {b c : Block} (ht : Tiled h (pre ++ b :: post))
    (hc : c ∈ pre ++ b :: post) (hadj : c.addr = b.stop) : post.head? = some c := by
  have hlt : b.addr < b.stop := by
    unfold Block.stop sizeofSBlock
    omega
  obtain ⟨-, -, hlays⟩ := lays_append_cons.1 ht.lays
  rcases post with _ | ⟨d, post⟩
  · have hend : b.stop = h.brk := hlays
    have hcend := (ht.addr_pos hc).2.2
    unfold Block.stop sizeofSBlock at hcend hend
    unfold Block.stop sizeofSBlock at hadj
    omega
  · have hd : d.addr = b.stop := hlays.1
    rw [List.head?_cons, ht.addr_inj (x := d) (y := c) (by simp) hc (hd.trans hadj.symm)]

theorem coalesced_of_noFreePair {h : Heap} (ht : Tiled h bs) (hP : NoFreePair bs) :
    h.Coalesced := by
  rintro _ _ hb hc hadj ⟨hbfree, hcfree⟩
  obtain ⟨pre', c, post', hbs, rfl⟩ := ht.of_onList hc
  obtain ⟨pre, b, post, rfl, rfl⟩ := ht.of_onList hb
  obtain ⟨-, hbhead, -⟩ := lays_append_cons.1 ht.lays
  have hlays := ht.lays
  rw [hbs] at hlays
  obtain ⟨-, hchead, -⟩ := lays_append_cons.1 hlays
  rw [hbhead.size] at hadj
  rw [hbhead.free] at hbfree
  rw [hchead.free] at hcfree
  have hnext := ht.head_eq (c := c) (hbs ▸ by simp) hadj
  obtain ⟨-, hpost, -⟩ := noFreePair_append.1 hP
  have hused := (noFreePair_cons.1 hpost).1 (by simpa using hbfree) c hnext
  rw [hused] at hcfree
  exact absurd hcfree (by decide)

/-- In a run whose `mm_free`s find the block before the freed one if that is free, and take no other
block for it, no two adjacent blocks are ever both free. -/
theorem run_coalesced (mem : Memory) (brk : ℕ) (hpos : 0 < brk) (hlt : brk < 2 ^ 64)
    (cs : List HeapCall) (s : HeapState)
    (hsees : EachCall seesPrevGuard.Holds (emptyHeap mem brk) cs)
    (hrun : (emptyHeap mem brk).run cs = some s) : s.heap.Coalesced := by
  obtain ⟨bs, ht, -, hP⟩ :=
    seesPrevGuard_keeps.run cs (HeapInv.empty (P := NoFreePair) .nil mem hpos hlt) hsees hrun
  exact coalesced_of_noFreePair ht hP

/-- A list of addresses closed under `next` has all blocks of the heap's list. -/
theorem Heap.OnList.mem {h : Heap} {l : List ℕ} (hbase : h.globalBase ∈ l)
    (hnext : ∀ b ∈ l, SBlock.next h.mem b ≠ 0 → SBlock.next h.mem b ∈ l) {a : ℕ}
    (ha : h.OnList a) : a ∈ l := by
  induction ha with
  | base => exact hbase
  | next b _ hne ih => exact hnext b ih hne

theorem seesPrev_of {h : Heap} {b : ℕ} {l : List ℕ} (hbase : h.globalBase ∈ l)
    (hnext : ∀ b ∈ l, SBlock.next h.mem b ≠ 0 → SBlock.next h.mem b ∈ l)
    (hprev : ∀ p ∈ l, SBlock.next h.mem p = b → SBlock.free h.mem p = 1 →
      SBlock.prev h.mem b = p) : SeesPrev h b :=
  fun p hon => hprev p (hon.mem hbase hnext)

/-- The second of three blocks is freed, and merged into the first one, which is free. -/
theorem run_coalesced_mergeCalls : ∃ s, (emptyHeap (fun _ => 0) 4096).run mergeCalls = some s ∧
    SBlock.free s.heap.mem 4096 = 1 ∧ SBlock.size s.heap.mem 4096 = 48 ∧ s.heap.Coalesced := by
  obtain ⟨s, hrun, hfree, hsize⟩ : ∃ s, (emptyHeap (fun _ => 0) 4096).run mergeCalls = some s ∧
    SBlock.free s.heap.mem 4096 = 1 ∧ SBlock.size s.heap.mem 4096 = 48 := ⟨_, rfl, rfl, rfl⟩
  have hsees : EachCall seesPrevGuard.Holds (emptyHeap (fun _ => 0) 4096) mergeCalls := by
    refine ⟨fun _ => trivial, fun s hs => ?_⟩
    cases hs
    refine ⟨fun _ => trivial, fun s hs => ?_⟩
    cases hs
    refine ⟨fun _ => trivial, fun s hs => ?_⟩
    cases hs
    refine ⟨⟨fun hne => absurd rfl hne, seesPrev_of (l := [4096, 4136, 4176]) (by decide +kernel)
      (by decide +kernel) (by decide +kernel)⟩, fun s hs => ?_⟩
    cases hs
    exact ⟨⟨freshPrev_base (by decide +kernel) (by decide +kernel),
      seesPrev_of (l := [4096, 4136, 4176]) (by decide +kernel) (by decide +kernel)
        (by decide +kernel)⟩, fun s hs => trivial⟩
  exact ⟨s, hrun, hfree, hsize, run_coalesced _ 4096 (by decide) (by decide) _ s hsees hrun⟩

/-- A block is freed and split, and then the block behind it is freed. -/
def splitCalls : List HeapCall :=
  [.malloc 100 true, .malloc 8 true, .free 4128, .malloc 8 true, .free 4260]

theorem splitCalls_not_coalesced :
    ¬ ∀ (mem : Memory) (brk : ℕ), 0 < brk → brk < 2 ^ 64 → ∀ (cs : List HeapCall) (s : HeapState),
      (emptyHeap mem brk).run cs = some s → s.heap.Coalesced := by
  intro hall
  obtain ⟨s, hrun, hbase, hnext, hnext', hsize, hfree, hfree'⟩ :
      ∃ s, (emptyHeap (fun _ => 0) 4096).run splitCalls = some s ∧
        s.heap.globalBase = 4096 ∧ SBlock.next s.heap.mem 4096 = 4136 ∧
        SBlock.next s.heap.mem 4136 = 4228 ∧ SBlock.size s.heap.mem 4136 = 60 ∧
        SBlock.free s.heap.mem 4136 = 1 ∧ SBlock.free s.heap.mem 4228 = 1 :=
    ⟨_, rfl, rfl, rfl, rfl, rfl, rfl, rfl⟩
  have hfirst : s.heap.OnList 4096 := hbase ▸ .base (by rw [hbase]; decide)
  have hb : s.heap.OnList 4136 := hnext ▸ .next 4096 hfirst (by rw [hnext]; decide)
  have hc : s.heap.OnList 4228 := hnext' ▸ .next 4136 hb (by rw [hnext']; decide)
  refine hall _ 4096 (by decide) (by decide) splitCalls s hrun 4136 4228 hb hc ?_ ⟨hfree, hfree'⟩
  rw [hsize]
  rfl

end Cs162
