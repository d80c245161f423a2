import Cs162.Lib.Ints
import Cs162.Wq

/-!
# The work queue is a queue

The list of nodes is never wrong: a push puts a node at its end, a pop takes the first one
(`WqInv.push`, `WqInv.pop`). The size is its length as an `int`, so it is right just as long as
there are fewer than `2 ^ 31` nodes (`wq_fifo_iff`).
-/

namespace Cs162

open CLib

variable {α : Type} {heap : NodeHeap α} {head : ℕ} {l nodes : List (ℕ × α)} {s : Wq α}

/-- The queue holds these nodes, and what was popped before them was pushed before them. -/
structure Fifo (s : Wq α) (nodes : List (ℕ × α)) : Prop where
  chain : Chain s.heap s.head nodes
  distinct : (nodes.map Prod.fst).Nodup
  size : s.size = nodes.length
  empty : s.head = 0 ↔ s.size = 0
  last : ∀ n, s.heap s.head = some n → n.prev = tailAddr nodes
  items : s.popped ++ nodes.map Prod.snd = s.pushed

/-- The run goes through, and the queue is right in every state reached. -/
def FifoThroughout (ops : List (WqOp α)) : Prop :=
  ∀ pre, pre <+: ops → ∃ s nodes, wqRun wqInit pre = some s ∧ Fifo s nodes

/-- How many more pushes there are than pops. -/
def queued : List (WqOp α) → ℤ
  | [] => 0
  | .push _ _ :: ops => queued ops + 1
  | .pop :: ops => queued ops - 1

/-- What holds in every state: the list is linked both ways, nothing else is allocated, and the size
is its length as an `int`. -/
structure WqInv (s : Wq α) (nodes : List (ℕ × α)) : Prop where
  linked : DoublyLinked s.heap (tailAddr nodes) s.head nodes
  distinct : (nodes.map Prod.fst).Nodup
  allocated : ∀ a, (s.heap a).isSome → a ∈ nodes.map Prod.fst
  size : s.size = (nodes.length : ℤ).bmod (2 ^ 32)
  items : s.popped ++ nodes.map Prod.snd = s.pushed

/-! ## The macros -/

theorem modify_eq {p : ℕ} {n : ListNode α} (h : heap p = some n)
    (f : ListNode α → ListNode α) :
    heap.modify p f = some (Function.update heap p (some (f n))) := by
  simp [NodeHeap.modify, h]

theorem isSome_update {p : ℕ} {n m : ListNode α} (h : heap p = some n) (a : ℕ) :
    (Function.update heap p (some m) a).isSome = (heap a).isSome := by
  rcases eq_or_ne a p with rfl | ha
  · simp [h]
  · rw [Function.update_of_ne ha]

theorem nodup_snoc {add : ℕ} (hnodup : (l.map Prod.fst).Nodup)
    (hfresh : add ∉ l.map Prod.fst) (y : α) : ((l ++ [(add, y)]).map Prod.fst).Nodup := by
  rw [List.map_append, List.map_singleton, ← List.concat_eq_append]
  exact hnodup.concat hfresh

/-- The heap once a node is hung behind the last one, and before the first one's `prev` is set. -/
def hungBehind (heap : NodeHeap α) (last : ℕ) (nl : ListNode α) (add : ℕ) (y : α) : NodeHeap α :=
  Function.update (Function.update heap last (some { nl with next := add })) add
    (some ⟨y, 0, last⟩)

/-- `DL_APPEND` to a list that is not empty. If its only node is the last one too, the `next` of the
first one is new. -/
theorem dlAppend_cons {add last n next prev : ℕ} {x y : α} {nl : ListNode α} (hhead : head ≠ 0)
    (hnode : heap head = some ⟨x, n, last⟩) (hlast : heap last = some nl)
    (hnew : heap add = some ⟨y, next, prev⟩) (hadd_head : add ≠ head) (hadd_last : add ≠ last) :
    ∃ n', hungBehind heap last nl add y head = some ⟨x, n', last⟩ ∧
      dlAppend heap head add
        = some (head, Function.update (hungBehind heap last nl add y) head (some ⟨x, n', add⟩)) := by
  let h₁ := Function.update heap add (some ⟨y, next, last⟩)
  have hhead₁ : h₁ head = some ⟨x, n, last⟩ := by
    rw [← hnode]
    exact Function.update_of_ne hadd_head.symm ..
  have hlast₁ : h₁ last = some nl := by
    rw [← hlast]
    exact Function.update_of_ne hadd_last.symm ..
  let h₂ := Function.update h₁ last (some { nl with next := add })
  have hhung : Function.update h₂ add (some ⟨y, 0, last⟩) = hungBehind heap last nl add y := by
    unfold hungBehind
    rw [show h₂ = Function.update h₁ last (some { nl with next := add }) from rfl,
      Function.update_comm hadd_last, Function.update_idem]
  obtain ⟨n', hhead₂⟩ : ∃ n', h₂ head = some ⟨x, n', last⟩ := by
    rcases eq_or_ne head last with rfl | hne
    · obtain rfl := Option.some.inj (hlast.symm.trans hnode)
      exact ⟨add, Function.update_self ..⟩
    · exact ⟨n, (Function.update_of_ne hne ..).trans hhead₁⟩
  have hadd₂ : h₂ add = some ⟨y, next, last⟩ :=
    (Function.update_of_ne hadd_last ..).trans (Function.update_self ..)
  let h₃ := Function.update h₂ head (some ⟨x, n', add⟩)
  have hadd₃ : h₃ add = some ⟨y, next, last⟩ := (Function.update_of_ne hadd_head ..).trans hadd₂
  refine ⟨n', ?_, ?_⟩
  · rw [← hhung]
    exact (Function.update_of_ne hadd_head.symm ..).trans hhead₂
  · unfold dlAppend
    rw [if_pos hhead]
    simp only [NodeHeap.setPrev, NodeHeap.setNext, modify_eq hnew, hnode, Option.bind_eq_bind,
      Option.bind_some]
    rw [show Function.update heap add (some ⟨y, next, last⟩) = h₁ from rfl]
    simp only [hhead₁, modify_eq hlast₁, Option.bind_some]
    rw [show Function.update h₁ last (some { nl with next := add }) = h₂ from rfl]
    simp only [modify_eq hhead₂, Option.bind_some]
    rw [show Function.update h₂ head (some ⟨x, n', add⟩) = h₃ from rfl, modify_eq hadd₃,
      ← hhung, Function.update_comm hadd_head]
    rfl

theorem dlAppend_nil {add next prev : ℕ} {y : α} (hnew : heap add = some ⟨y, next, prev⟩) :
    dlAppend heap 0 add = some (add, Function.update heap add (some ⟨y, 0, add⟩)) := by
  have hnew₁ : Function.update heap add (some ⟨y, next, add⟩) add = some ⟨y, next, add⟩ :=
    Function.update_self ..
  unfold dlAppend
  rw [if_neg (by simp)]
  simp only [NodeHeap.setPrev, NodeHeap.setNext, modify_eq hnew, Option.bind_eq_bind,
    Option.bind_some]
  rw [modify_eq hnew₁, Function.update_idem]
  rfl

/-- The node added is the last one then, and nothing is allocated or freed. -/
theorem dlAppend_spec {add : ℕ} {y : α} {next prev : ℕ}
    (hlinked : DoublyLinked heap (tailAddr l) head l) (hnodup : (l.map Prod.fst).Nodup)
    (hadd : add ≠ 0) (hnew : heap add = some ⟨y, next, prev⟩) (hfresh : add ∉ l.map Prod.fst) :
    ∃ head' heap', dlAppend heap head add = some (head', heap') ∧
      DoublyLinked heap' add head' (l ++ [(add, y)]) ∧
      ∀ a, (heap' a).isSome = (heap a).isSome := by
  rcases l with _ | ⟨⟨a, x⟩, l⟩
  · obtain rfl : head = 0 := hlinked
    exact ⟨add, _, dlAppend_nil hnew, ⟨rfl, hadd, 0, Function.update_self .., rfl⟩,
      isSome_update hnew⟩
  · obtain ⟨rfl, hhead, n, hnode, -⟩ := id hlinked
    have hmem := tailAddr_mem (List.cons_ne_nil (head, x) l)
    have hadd_head : add ≠ head := fun h => hfresh (h ▸ List.mem_cons_self)
    have hadd_last : add ≠ tailAddr ((head, x) :: l) := fun h => hfresh (h ▸ hmem)
    obtain ⟨nl, hlast⟩ := Option.isSome_iff_exists.1 (hlinked.isSome _ hmem)
    generalize hlastEq : tailAddr ((head, x) :: l) = last at *
    obtain ⟨n', hhead', happend⟩ := dlAppend_cons hhead hnode hlast hnew hadd_head hadd_last
    refine ⟨head, _, happend, ?_, fun b => ?_⟩
    · refine DoublyLinked.update_prev (nodup_snoc hnodup hfresh y) hhead' ?_ add
      refine hlinked.snoc hadd ?_ ?_ (fun c hc hne => ?_) hnodup (List.cons_ne_nil _ _)
      · rw [hlastEq]
        exact Function.update_self ..
      · rw [hlastEq, hlast]
        exact (Function.update_of_ne hadd_last.symm ..).trans (Function.update_self ..)
      · rw [hlastEq] at hne
        exact (Function.update_of_ne (ne_of_mem_of_not_mem hc hfresh) ..).trans
          (Function.update_of_ne hne ..)
    · have hadd' : Function.update heap last (some { nl with next := add }) add
          = some ⟨y, next, prev⟩ := (Function.update_of_ne hadd_last ..).trans hnew
      rw [isSome_update hhead', hungBehind, isSome_update hadd', isSome_update hlast]

/-- The node deleted was the first one, and is not freed yet. -/
theorem dlDelete_spec {a : ℕ} {x : α}
    (hlinked : DoublyLinked heap (tailAddr ((a, x) :: l)) head ((a, x) :: l))
    (hnodup : (((a, x) :: l).map Prod.fst).Nodup) :
    ∃ head' heap', dlDelete heap head (fun head => head) = some (head', heap') ∧
      DoublyLinked heap' (tailAddr l) head' l ∧ ∀ a, (heap' a).isSome = (heap a).isSome := by
  obtain ⟨rfl, hhead, n, hnode, hl⟩ := id hlinked
  unfold dlDelete
  simp only [hnode, Option.bind_eq_bind, Option.bind_some]
  rcases l with _ | ⟨⟨c, z⟩, l⟩
  · have hlast : tailAddr [(head, x)] = head := rfl
    rw [hlast, if_neg hhead, if_pos rfl]
    exact ⟨0, heap, rfl, rfl, fun _ => rfl⟩
  · rw [tailAddr_cons_cons]
    have hmem := tailAddr_mem (List.cons_ne_nil (c, z) l)
    have hnodup' := List.nodup_cons.1 hnodup
    rw [if_neg (hl.ne_zero _ hmem), if_neg (ne_of_mem_of_not_mem hmem hnodup'.1), if_pos trivial]
    obtain ⟨rfl, -, m, hc, -⟩ := id hl
    have hne : head ≠ n := fun h => hnodup'.1 (h ▸ List.mem_cons_self)
    refine ⟨n, Function.update heap n (some ⟨z, m, tailAddr ((n, z) :: l)⟩), ?_, ?_, ?_⟩
    · rw [NodeHeap.setPrev, modify_eq hc, Option.bind_some, Function.update_of_ne hne, hnode]
      rfl
    · exact hl.update_prev hnodup'.2 hc _
    · exact isSome_update hc

/-! ## The steps -/

theorem wqInv_init : WqInv (wqInit : Wq α) [] where
  linked := rfl
  distinct := .nil
  allocated _ h := absurd h (by simp [wqInit])
  size := Int.zero_bmod.symm
  items := rfl

theorem int_eq_iff (n : ℕ) : (n : ℤ).bmod (2 ^ 32) = n ↔ n < 2 ^ 31 := by
  generalize hm : 2 ^ 32 = m
  rw [bmod_natCast_eq_iff (by omega)]
  omega

theorem intAdd_bmod (n d : ℤ) : intAdd (n.bmod (2 ^ 32)) d = (n + d).bmod (2 ^ 32) := by
  unfold intAdd
  generalize 2 ^ 32 = m
  exact Int.bmod_add_bmod

namespace WqInv

/-- A push puts a node at the end. -/
theorem push (h : WqInv s nodes) (item : α) {addr : ℕ} (haddr : addr ≠ 0)
    (hfree : s.heap addr = none) :
    ∃ s', wqPush s item addr = some s' ∧ WqInv s' (nodes ++ [(addr, item)]) := by
  have hfresh : addr ∉ nodes.map Prod.fst := fun hmem => by
    simpa [hfree] using h.linked.isSome _ hmem
  have hlinked : DoublyLinked (Function.update s.heap addr (some ⟨item, 0, 0⟩)) (tailAddr nodes)
      s.head nodes :=
    h.linked.frame fun a ha => Function.update_of_ne (ne_of_mem_of_not_mem ha hfresh) ..
  obtain ⟨head', heap', happend, hlinked', hsome⟩ :=
    dlAppend_spec hlinked h.distinct haddr (Function.update_self ..) hfresh
  refine ⟨_, by rw [wqPush, happend]; rfl, ?_, nodup_snoc h.distinct hfresh item, fun a ha => ?_,
    ?_, ?_⟩
  · rwa [tailAddr_append_singleton]
  · simp only [hsome] at ha
    rw [List.map_append, List.mem_append]
    rcases eq_or_ne a addr with rfl | hne
    · exact .inr (by simp)
    · rw [Function.update_of_ne hne] at ha
      exact .inl (h.allocated a ha)
  · simp only [h.size, intAdd_bmod, List.length_append, List.length_singleton]
    rfl
  · simp [← h.items]

/-- A pop takes the first node, and there is one. -/
theorem pop (h : WqInv s nodes) (hsize : s.size ≠ 0) :
    ∃ a item nodes' s', nodes = (a, item) :: nodes' ∧ wqPop s = some s' ∧ WqInv s' nodes' := by
  rcases nodes with _ | ⟨⟨a, item⟩, nodes⟩
  · exact absurd (h.size.trans Int.zero_bmod) hsize
  · obtain ⟨head', heap', hdelete, hlinked', hsome⟩ := dlDelete_spec h.linked h.distinct
    obtain ⟨hhead, -, n, hnode, -⟩ := h.linked
    obtain ⟨hnotMem, hdistinct⟩ := List.nodup_cons.1 h.distinct
    refine ⟨a, item, nodes, _, rfl, by rw [wqPop, hhead, hnode, ← hhead, hdelete]; rfl, ?_,
      hdistinct, fun b hb => ?_, ?_, ?_⟩
    · exact hlinked'.frame fun b hb => Function.update_of_ne
        (hhead ▸ ne_of_mem_of_not_mem hb hnotMem) ..
    · have hne : b ≠ a := fun hba => by simp [hba, hhead] at hb
      simp only [Function.update_of_ne (hhead.symm ▸ hne : b ≠ s.head), hsome] at hb
      exact (List.mem_cons.1 (h.allocated b hb)).resolve_left hne
    · simp only [h.size, intAdd_bmod, List.length_cons]
      congr 1
      omega
    · simp [← h.items]

/-- The queue is right just if its size is no wrapped one. -/
theorem fifo_iff (h : WqInv s nodes) : (∃ nodes', Fifo s nodes') ↔ nodes.length < 2 ^ 31 := by
  constructor
  · rintro ⟨nodes', hfifo⟩
    obtain rfl : nodes' = nodes := hfifo.chain.unique h.linked.chain
    have hsize := hfifo.size
    rwa [h.size, int_eq_iff] at hsize
  · intro hlt
    have hsize : s.size = nodes.length := h.size.trans ((int_eq_iff _).2 hlt)
    refine ⟨nodes, h.linked.chain, h.distinct, hsize, ?_, fun n hn => ?_, h.items⟩
    · rw [hsize]
      rcases nodes with _ | ⟨⟨a, x⟩, nodes⟩
      · exact iff_of_true h.linked rfl
      · refine iff_of_false (h.linked.1 ▸ h.linked.2.1) ?_
        rw [List.length_cons]
        omega
    · rcases nodes with _ | ⟨⟨a, x⟩, nodes⟩
      · exact absurd (h.allocated s.head (by simp [hn])) List.not_mem_nil
      · obtain ⟨hhead, -, next, hnode, -⟩ := h.linked
        rw [hhead, hnode] at hn
        rw [← Option.some.inj hn]

end WqInv

/-! ## Runs -/

theorem wqRun_cons (s : Wq α) (op : WqOp α) (ops : List (WqOp α)) :
    wqRun s (op :: ops) = (wqStep s op).bind fun s' => wqRun s' ops := rfl

theorem legal_append : ∀ (ops ops' : List (WqOp α)) {s : Wq α}, Legal s (ops ++ ops') ↔
    Legal s ops ∧ ∀ s', wqRun s ops = some s' → Legal s' ops'
  | [], _, s => ⟨fun h => ⟨trivial, fun _ hs' => Option.some.inj hs' ▸ h⟩, fun h => h.2 s rfl⟩
  | op :: ops, ops', s => by
    rw [List.cons_append, Legal, Legal, wqRun_cons]
    rcases wqStep s op with _ | s₁
    · simp
    · simp [legal_append ops ops', and_assoc]

/-- A legal run goes through, and the list is as long as there are more pushes than pops. -/
theorem WqInv.run : ∀ (ops : List (WqOp α)) {s : Wq α} {nodes : List (ℕ × α)}, WqInv s nodes →
    Legal s ops → ∃ s' nodes', wqRun s ops = some s' ∧ WqInv s' nodes' ∧
      (nodes'.length : ℤ) = nodes.length + queued ops
  | [], s, nodes, h, _ => ⟨s, nodes, rfl, h, by simp [queued]⟩
  | .push item addr :: ops, s, nodes, h, ⟨⟨haddr, hfree⟩, hlegal⟩ => by
    obtain ⟨s₁, hpush, h₁⟩ := h.push item haddr hfree
    obtain ⟨s', nodes', hrun, h', hlen⟩ := WqInv.run ops h₁ (hlegal s₁ hpush)
    refine ⟨s', nodes', by rw [wqRun_cons, wqStep, hpush]; exact hrun, h', ?_⟩
    rw [hlen, List.length_append, List.length_singleton, queued]
    omega
  | .pop :: ops, s, nodes, h, ⟨hsize, hlegal⟩ => by
    obtain ⟨a, item, nodes₁, s₁, rfl, hpop, h₁⟩ := h.pop hsize
    obtain ⟨s', nodes', hrun, h', hlen⟩ := WqInv.run ops h₁ (hlegal s₁ hpop)
    refine ⟨s', nodes', by rw [wqRun_cons, wqStep, hpop]; exact hrun, h', ?_⟩
    rw [hlen, List.length_cons, queued]
    omega

theorem queued_le : ∀ ops : List (WqOp α), queued ops ≤ ops.length
  | [] => Int.le_refl _
  | .push _ _ :: ops => by
    have := queued_le ops
    simp only [queued, List.length_cons]
    omega
  | .pop :: ops => by
    have := queued_le ops
    simp only [queued, List.length_cons]
    omega

/-- In a run of pushes and pops the queue is right in every state reached, just if there are never
`2 ^ 31` more pushes than pops. -/
theorem wq_fifo_iff {ops : List (WqOp α)} (h : Legal wqInit ops) :
    FifoThroughout ops ↔ ∀ pre, pre <+: ops → queued pre < 2 ^ 31 := by
  refine forall_congr' fun pre => imp_congr_right fun hpre => ?_
  obtain ⟨post, rfl⟩ := hpre
  obtain ⟨s, nodes, hrun, hinv, hlen⟩ := wqInv_init.run pre ((legal_append pre post).1 h).1
  have hiff := hinv.fifo_iff
  simp only [hrun, Option.some.injEq, exists_and_left, exists_eq_left', hiff]
  simp only [List.length_nil] at hlen
  omega

/-- Filled, emptied and filled again, at the same address. -/
theorem wq_fifo_refilled : FifoThroughout [WqOp.push 7 1, .pop, .push 8 1] := by
  refine (wq_fifo_iff ?_).2 fun pre hpre => ?_
  · refine ⟨⟨by decide, rfl⟩, ?_⟩
    rintro _ ⟨⟩
    refine ⟨show intAdd 0 1 ≠ 0 by decide, ?_⟩
    rintro _ ⟨⟩
    exact ⟨⟨by decide, rfl⟩, fun _ _ => trivial⟩
  · have hlen : pre.length ≤ 3 := hpre.length_le
    have := queued_le pre
    omega

/-- Pushes of the numbers up to `n`. -/
def pushes (n : ℕ) : List (WqOp ℕ) := (List.range n).map fun i => .push i (i + 1)

theorem pushes_spec (n : ℕ) : Legal wqInit (pushes n) ∧ ∃ s nodes,
    wqRun wqInit (pushes n) = some s ∧ WqInv s nodes ∧
      nodes.map Prod.fst = (List.range n).map (· + 1) := by
  induction n with
  | zero => exact ⟨trivial, wqInit, [], rfl, wqInv_init, rfl⟩
  | succ n ih =>
    obtain ⟨hlegal, s, nodes, hrun, hinv, haddrs⟩ := ih
    have hsucc : pushes (n + 1) = pushes n ++ [.push n (n + 1)] := by
      simp [pushes, List.range_succ]
    have hfree : s.heap (n + 1) = none := by
      rw [← Option.not_isSome_iff_eq_none]
      intro hsome
      simpa [haddrs] using hinv.allocated _ hsome
    obtain ⟨s', hpush, hinv'⟩ := hinv.push n (Nat.succ_ne_zero n) hfree
    refine ⟨?_, s', _, ?_, hinv', by simp [haddrs, List.range_succ]⟩
    · rw [hsucc, legal_append]
      refine ⟨hlegal, fun s₁ hs₁ => ?_⟩
      obtain rfl := Option.some.inj (hrun.symm.trans hs₁)
      exact ⟨⟨Nat.succ_ne_zero n, hfree⟩, fun _ _ => trivial⟩
    · rw [hsucc, wqRun, List.foldlM_append, ← wqRun, hrun]
      simpa [wqStep] using hpush

theorem pushes_not_fifo {n : ℕ} (hn : 2 ^ 31 ≤ n) : ¬ FifoThroughout (pushes n) := by
  intro hall
  obtain ⟨s', nodes', hrun', hfifo⟩ := hall _ List.prefix_rfl
  obtain ⟨-, s, nodes, hrun, hinv, haddrs⟩ := pushes_spec n
  obtain rfl := Option.some.inj (hrun.symm.trans hrun')
  have hlt := hinv.fifo_iff.1 ⟨nodes', hfifo⟩
  have hlen := congrArg List.length haddrs
  simp only [List.length_map, List.length_range] at hlen
  omega

/-- So many items that the size wraps around. -/
theorem manyPushes_not_fifo :
    Legal wqInit (pushes (2 ^ 31)) ∧ ¬ FifoThroughout (pushes (2 ^ 31)) := by
  -- so many pushes must not be written out
  generalize hn : 2 ^ 31 = n
  exact ⟨(pushes_spec n).1, pushes_not_fifo (Nat.le_of_eq hn)⟩

end Cs162
