import Cs162.Lib.LinkedList
import Mathlib.Algebra.Group.Int.Defs
import Mathlib.Algebra.Group.Nat.Defs

/-!
# The work queue

`hw4/src/wq.c`, with the macros of `utlist.h` that it uses. A step is what one thread does to the
queue under the mutex, so a run of any number of threads is a sequence of steps. `none` stands for a
pointer to nothing that is followed, and for an assertion that fails.

The items pushed and popped so far are kept along. The heap holds the nodes that are allocated.
-/

namespace Cs162

open CLib

structure Wq (α : Type) where
  size : ℤ
  head : ℕ
  heap : NodeHeap α
  pushed : List α
  popped : List α

variable {α : Type}

def wqInit : Wq α where
  size := 0
  head := 0
  heap _ := none
  pushed := []
  popped := []

/-- `DL_APPEND`: the new head, and the heap. -/
def dlAppend (heap : NodeHeap α) (head add : ℕ) : Option (ℕ × NodeHeap α) := do
  if head ≠ 0 then
    let heap ← heap.setPrev add (← heap head).prev
    let heap ← heap.setNext (← heap head).prev add
    let heap ← heap.setPrev head add
    let heap ← heap.setNext add 0
    return (head, heap)
  else
    let head := add
    let heap ← heap.setPrev head head
    let heap ← heap.setNext head 0
    return (head, heap)

/-- `DL_DELETE`, where `del` is an expression in the head. -/
def dlDelete (heap : NodeHeap α) (head : ℕ) (del : ℕ → ℕ) : Option (ℕ × NodeHeap α) := do
  let node ← heap (del head)
  if node.prev = 0 then none
  else if node.prev = del head then return (0, heap)
  else if del head = head then
    let heap ← heap.setPrev node.next node.prev
    return ((← heap (del head)).next, heap)
  else
    let heap ← heap.setNext node.prev node.next
    let node ← heap (del head)
    if node.next ≠ 0 then
      let heap ← heap.setPrev node.next node.prev
      return (head, heap)
    else
      let heap ← heap.setPrev head node.prev
      return (head, heap)

/-- The increment or decrement of an `int`. -/
def intAdd (n d : ℤ) : ℤ := (n + d).bmod (2 ^ 32)

/-- `wq_push`, where `calloc` returns `addr`. -/
def wqPush (s : Wq α) (item : α) (addr : ℕ) : Option (Wq α) := do
  let heap := Function.update s.heap addr (some ⟨item, 0, 0⟩)
  let (head, heap) ← dlAppend heap s.head addr
  return ⟨intAdd s.size 1, head, heap, s.pushed ++ [item], s.popped⟩

/-- `wq_pop`, once it has seen an item. -/
def wqPop (s : Wq α) : Option (Wq α) := do
  let wqItem := s.head
  let job := (← s.heap s.head).item
  let (head, heap) ← dlDelete s.heap s.head fun head => head
  return ⟨intAdd s.size (-1), head, Function.update heap wqItem none, s.pushed, s.popped ++ [job]⟩

inductive WqOp (α : Type)
  | push (item : α) (addr : ℕ)
  | pop

/-- `calloc` returns an address that is not in use, and `wq_pop` waits while the size is 0. -/
def WqOp.Enabled (s : Wq α) : WqOp α → Prop
  | push _ addr => addr ≠ 0 ∧ s.heap addr = none
  | pop => s.size ≠ 0

def wqStep (s : Wq α) : WqOp α → Option (Wq α)
  | .push item addr => wqPush s item addr
  | .pop => wqPop s

def wqRun (s : Wq α) (ops : List (WqOp α)) : Option (Wq α) := ops.foldlM wqStep s

/-- Every step is taken where it is enabled. -/
def Legal : Wq α → List (WqOp α) → Prop
  | _, [] => True
  | s, op :: ops => op.Enabled s ∧ ∀ s', wqStep s op = some s' → Legal s' ops

end Cs162
