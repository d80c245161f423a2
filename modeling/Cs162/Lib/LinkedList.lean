import Mathlib.Data.List.Basic
import Mathlib.Data.List.Nodup
import Mathlib.Logic.Function.Basic

/-!
# Doubly linked lists in a heap

A heap holds nodes at addresses, and 0 is no address. `Chain` says which nodes are met from a
pointer on by `next`, and `DoublyLinked` says so of a list whose nodes have `prev` links too, the
first node's being given. The latter depends on the heap at the list's addresses only
(`DoublyLinked.frame`).
-/

namespace CLib

structure ListNode (α : Type*) where
  item : α
  next : ℕ
  prev : ℕ

abbrev NodeHeap (α : Type*) := ℕ → Option (ListNode α)

namespace NodeHeap

variable {α : Type*}

/-- A store through a pointer. There is none if nothing is there. -/
def modify (heap : NodeHeap α) (p : ℕ) (f : ListNode α → ListNode α) : Option (NodeHeap α) :=
  (heap p).map fun n => Function.update heap p (some (f n))

def setNext (heap : NodeHeap α) (p next : ℕ) : Option (NodeHeap α) :=
  heap.modify p fun n => { n with next := next }

def setPrev (heap : NodeHeap α) (p prev : ℕ) : Option (NodeHeap α) :=
  heap.modify p fun n => { n with prev := prev }

end NodeHeap

variable {α : Type*}

/-- The nodes met from `p` on, each with its address. -/
def Chain (heap : NodeHeap α) : ℕ → List (ℕ × α) → Prop
  | p, [] => p = 0
  | p, (a, x) :: l => p = a ∧ a ≠ 0 ∧ ∃ n, heap a = some n ∧ n.item = x ∧ Chain heap n.next l

/-- A pointer is followed in one way only. -/
theorem Chain.unique {heap : NodeHeap α} : ∀ {l l' : List (ℕ × α)} {p : ℕ}, Chain heap p l →
    Chain heap p l' → l = l'
  | [], [], _, _, _ => rfl
  | [], (_, _) :: _, _, hp, ⟨hp', ha, _⟩ => absurd (hp'.symm.trans hp) ha
  | (_, _) :: _, [], _, ⟨hp, ha, _⟩, hp' => absurd (hp.symm.trans hp') ha
  | (a, x) :: l, (a', x') :: l', p, ⟨hp, _, n, hn, hx, h⟩, ⟨hp', _, n', hn', hx', h'⟩ => by
    obtain rfl : a = a' := hp.symm.trans hp'
    obtain rfl : n = n' := Option.some.inj (hn.symm.trans hn')
    rw [← hx, ← hx', h.unique h']

/-- The list from `p` on, where the first node's `prev` is given. -/
def DoublyLinked (heap : NodeHeap α) : ℕ → ℕ → List (ℕ × α) → Prop
  | _, p, [] => p = 0
  | prev, p, (a, x) :: l =>
    p = a ∧ a ≠ 0 ∧ ∃ next, heap a = some ⟨x, next, prev⟩ ∧ DoublyLinked heap a next l

/-- The address of the last node, and 0 if there is none. -/
def tailAddr (l : List (ℕ × α)) : ℕ := (l.getLast?.map Prod.fst).getD 0

@[simp] theorem tailAddr_append_singleton (l : List (ℕ × α)) (a : ℕ) (x : α) :
    tailAddr (l ++ [(a, x)]) = a := by simp [tailAddr]

theorem tailAddr_cons_cons (y z : ℕ × α) (l : List (ℕ × α)) :
    tailAddr (y :: z :: l) = tailAddr (z :: l) := by simp [tailAddr]

theorem tailAddr_mem {l : List (ℕ × α)} (h : l ≠ []) : tailAddr l ∈ l.map Prod.fst := by
  rw [tailAddr, List.getLast?_eq_some_getLast h]
  exact List.mem_map_of_mem (List.getLast_mem h)

namespace DoublyLinked

variable {heap heap' : NodeHeap α} {prev p : ℕ} {l : List (ℕ × α)}

theorem chain : ∀ {l : List (ℕ × α)} {prev p : ℕ}, DoublyLinked heap prev p l → Chain heap p l
  | [], _, _, h => h
  | (_, _) :: _, _, _, ⟨hp, ha, _, hnode, h⟩ => ⟨hp, ha, _, hnode, rfl, h.chain⟩

theorem ne_zero : ∀ {l : List (ℕ × α)} {prev p : ℕ}, DoublyLinked heap prev p l →
    ∀ a ∈ l.map Prod.fst, a ≠ 0
  | [], _, _, _, _, ha => absurd ha List.not_mem_nil
  | (_, _) :: _, _, _, ⟨_, hne, _, _, h⟩, a, ha => by
    rcases List.mem_cons.1 ha with rfl | ha
    · exact hne
    · exact h.ne_zero a ha

theorem isSome : ∀ {l : List (ℕ × α)} {prev p : ℕ}, DoublyLinked heap prev p l →
    ∀ a ∈ l.map Prod.fst, (heap a).isSome
  | [], _, _, _, _, ha => absurd ha List.not_mem_nil
  | (_, _) :: _, _, _, ⟨_, _, _, hnode, h⟩, a, ha => by
    rcases List.mem_cons.1 ha with rfl | ha
    · simp [hnode]
    · exact h.isSome a ha

/-- Only the heap at the list's addresses matters. -/
theorem frame : ∀ {l : List (ℕ × α)} {prev p : ℕ}, (∀ a ∈ l.map Prod.fst, heap' a = heap a) →
    DoublyLinked heap prev p l → DoublyLinked heap' prev p l
  | [], _, _, _, h => h
  | (a, _) :: _, _, _, heq, ⟨hp, hne, next, hnode, h⟩ =>
    ⟨hp, hne, next, by rw [heq a List.mem_cons_self, hnode],
      h.frame fun b hb => heq b (List.mem_cons_of_mem _ hb)⟩

/-- A new `prev` of the first node. -/
theorem update_prev {x : α} {next : ℕ} (hnodup : ((p, x) :: l |>.map Prod.fst).Nodup)
    (hnode : heap p = some ⟨x, next, prev⟩) (h : DoublyLinked heap prev p ((p, x) :: l)) (q : ℕ) :
    DoublyLinked (Function.update heap p (some ⟨x, next, q⟩)) q p ((p, x) :: l) := by
  obtain ⟨-, hne, next', hnode', hl⟩ := h
  obtain rfl : next' = next := by
    rw [hnode] at hnode'
    simpa using hnode'.symm
  refine ⟨rfl, hne, next', Function.update_self .., hl.frame fun a ha => ?_⟩
  rw [List.map_cons, List.nodup_cons] at hnodup
  exact Function.update_of_ne (ne_of_mem_of_not_mem ha hnodup.1) ..

/-- A node behind the last one. -/
theorem snoc {b : ℕ} {y : α} (hb : b ≠ 0) (hnew : heap' b = some ⟨y, 0, tailAddr l⟩)
    (hlast : heap' (tailAddr l) = (heap (tailAddr l)).map fun n => { n with next := b })
    (hother : ∀ a ∈ l.map Prod.fst, a ≠ tailAddr l → heap' a = heap a)
    (hnodup : (l.map Prod.fst).Nodup) (hne : l ≠ []) (h : DoublyLinked heap prev p l) :
    DoublyLinked heap' prev p (l ++ [(b, y)]) := by
  induction l generalizing prev p with
  | nil => exact absurd rfl hne
  | cons node l ih =>
    obtain ⟨a, x⟩ := node
    obtain ⟨hp, ha, next, hnode, hl⟩ := h
    rcases l with _ | ⟨z, l⟩
    · refine ⟨hp, ha, b, ?_, rfl, hb, 0, hnew, rfl⟩
      rw [show tailAddr [(a, x)] = a from rfl, hnode] at hlast
      exact hlast
    · rw [tailAddr_cons_cons] at hnew hlast hother
      have hnotMem : a ∉ (z :: l).map Prod.fst := (List.nodup_cons.1 hnodup).1
      refine ⟨hp, ha, next, ?_, ih hnew hlast
        (fun c hc => hother c (List.mem_cons_of_mem _ hc)) (List.nodup_cons.1 hnodup).2
        (List.cons_ne_nil _ _) hl⟩
      rw [hother a List.mem_cons_self fun h => hnotMem (h ▸ tailAddr_mem (List.cons_ne_nil _ _)),
        hnode]

end DoublyLinked

end CLib
