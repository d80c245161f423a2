import Cs162.Lib.Simulation
import Cs162.Proofs.Wq
import Cs162.SocketServer
import Mathlib.Order.Interval.Finset.Basic
import Mathlib.Data.Int.Interval

/-!
# The acceptor and its workers

Any number of workers take connections from the queue that one thread fills, and they may run in any
order. `ServerInv` has four parts: who is inside a section that the mutex guards, what the queue in
memory looks like halfway through a section, where each descriptor is, and who sleeps. It holds in
every state, so no pointer goes wrong and no connection is lost, handled twice or closed twice.
-/

namespace Cs162

open CLib

/-! ## What the places in the program mean -/

namespace AcceptorPc

/-- The mutex is held. -/
def inside : AcceptorPc → Bool
  | alloc _ | append _ _ | grow | broadcast | unlock => true
  | _ => false

/-- The node that is allocated and not in the queue. -/
def node : AcceptorPc → Option ℕ
  | append _ wqItem => some wqItem
  | _ => none

/-- The descriptor that is not in the queue yet. -/
def hand : AcceptorPc → Option Int32
  | lock clientSock | alloc clientSock | append clientSock _ => some clientSock
  | _ => none

/-- How many nodes of the queue the size does not count. -/
def uncounted : AcceptorPc → ℕ
  | grow => 1
  | _ => 0

end AcceptorPc

namespace WorkerPc

def inside : WorkerPc → Bool
  | test | item | shrink _ _ | unlink _ _ | unlock _ _ => true
  | _ => false

def node : WorkerPc → Option ℕ
  | unlock wqItem _ | free wqItem _ => some wqItem
  | _ => none

/-- The descriptor the worker took. -/
def hand : WorkerPc → Option Int32
  | unlock _ job | free _ job | handle job | close job => some job
  | _ => none

def uncounted : WorkerPc → ℕ
  | unlink _ _ => 1
  | _ => 0

/-- What a worker has seen of the queue. -/
def Sees (nodes : List (ℕ × Int32)) : WorkerPc → Prop
  | item => nodes ≠ []
  | shrink wqItem job | unlink wqItem job => nodes.head? = some (wqItem, job)
  | _ => True

end WorkerPc

theorem WorkerPc.sees_of_outside {pc : WorkerPc} {nodes : List (ℕ × Int32)}
    (h : pc.inside = false) : pc.Sees nodes := by
  cases pc with
  | item => cases h
  | shrink wqItem job => cases h
  | unlink wqItem job => cases h
  | _ => trivial

/-- A broadcast changes nothing else. -/
structure WorkerPc.WokenSame (pc : WorkerPc) (nodes : List (ℕ × Int32)) : Prop where
  inside : pc.woken.inside = pc.inside
  node : pc.woken.node = pc.node
  hand : pc.woken.hand = pc.hand
  uncounted : pc.woken.uncounted = pc.uncounted
  sees : pc.Sees nodes → pc.woken.Sees nodes
  awake : pc.woken ≠ .wait

theorem WorkerPc.woken_same (pc : WorkerPc) (nodes : List (ℕ × Int32)) : pc.WokenSame nodes := by
  cases pc <;> exact ⟨rfl, rfl, rfl, rfl, id, by simp [WorkerPc.woken]⟩

/-- What a worker did, in order. -/
def jobsOf (log : List (ℕ × Int32)) (i : ℕ) : List Int32 :=
  (log.filter fun e => e.1 = i).map Prod.snd

theorem jobsOf_snoc (log : List (ℕ × Int32)) (i j : ℕ) (x : Int32) :
    jobsOf (log ++ [(i, x)]) j = jobsOf log j ++ if i = j then [x] else [] := by
  simp only [jobsOf, List.filter_append, List.map_append]
  by_cases h : i = j <;> simp [h]

namespace Server

def inside (s : Server) : Thread → Bool
  | .acceptor => s.acceptor.inside
  | .worker i => (s.worker i).inside

def node (s : Server) : Thread → Option ℕ
  | .acceptor => s.acceptor.node
  | .worker i => (s.worker i).node

def uncounted (s : Server) : Thread → ℕ
  | .acceptor => s.acceptor.uncounted
  | .worker i => (s.worker i).uncounted

/-- The descriptors that are to be handed to a worker, the next one first. -/
def waiting (s : Server) (nodes : List (ℕ × Int32)) : List Int32 :=
  nodes.map Prod.snd ++ s.acceptor.hand.toList

end Server

/-! ## The invariant -/

/-- The thread that holds the mutex is the one inside. -/
def Locked (s : Server) : Prop := ∀ t, s.mutex = some t ↔ s.inside t = true

/-- The queue in memory: its list, the nodes outside it, and what threads inside know of it. -/
structure QueueInv (s : Server) (nodes : List (ℕ × Int32)) : Prop where
  linked : DoublyLinked s.heap (tailAddr nodes) s.head nodes
  distinct : (nodes.map Prod.fst).Nodup
  size : s.size + (s.mutex.elim 0 s.uncounted : ℕ) = nodes.length
  sees : ∀ i, (s.worker i).Sees nodes
  own : ∀ t a, s.node t = some a →
    (s.heap a).isSome ∧ a ∉ nodes.map Prod.fst ∧ ∀ t', s.node t' = some a → t' = t
  new : ∀ fd a, s.acceptor = .append fd a → a ≠ 0 ∧ s.heap a = some ⟨fd, 0, 0⟩
  allocated : ∀ a, (s.heap a).isSome → a ∈ nodes.map Prod.fst ∨ ∃ t, s.node t = some a

/-- Where the descriptors are. -/
structure DescriptorInv (s : Server) (nodes : List (ℕ × Int32)) : Prop where
  order : s.accepted = s.taken.map Prod.snd ++ s.waiting nodes
  served : ∀ i, jobsOf s.taken i = jobsOf s.closed i ++ (s.worker i).hand.toList
  nodup : (s.waiting nodes).Nodup
  live : ∀ fd ∈ s.waiting nodes, 0 < fd ∧ fd ∈ s.opened
  handed : ∀ i fd, (s.worker i).hand = some fd →
    fd ∈ s.opened ∧ fd ∉ s.waiting nodes ∧ ∀ j, (s.worker j).hand = some fd → j = i

/-- A worker sleeps while the queue is empty, or the broadcast is still to come. -/
def Awake (s : Server) (nodes : List (ℕ × Int32)) : Prop :=
  ∀ i, s.worker i = .wait → nodes ≠ [] → s.acceptor = .grow ∨ s.acceptor = .broadcast

structure ServerInv (s : Server) (nodes : List (ℕ × Int32)) : Prop where
  locked : Locked s
  queue : QueueInv s nodes
  descriptors : DescriptorInv s nodes
  awake : Awake s nodes

/-- What a step does to the queue: nothing, or all that a push or a pop does. -/
inductive QueueMove (s s' : Server) (nodes : List (ℕ × Int32)) : List (ℕ × Int32) → Prop
  | none (htaken : s'.taken = s.taken) : QueueMove s s' nodes nodes
  | push (a : ℕ) (fd : Int32) (ha : a ≠ 0) (hfresh : a ∉ nodes.map Prod.fst)
      (htaken : s'.taken = s.taken) : QueueMove s s' nodes (nodes ++ [(a, fd)])
  | pop (i a : ℕ) (x : Int32) (nodes' : List (ℕ × Int32)) (hnodes : nodes = (a, x) :: nodes')
      (htaken : s'.taken = s.taken ++ [(i, x)]) : QueueMove s s' nodes nodes'

variable {s s' : Server} {nodes : List (ℕ × Int32)} {i : ℕ} {pc : WorkerPc} {t t' : Thread}

/-! ## A worker that goes on -/

/-- A worker went on to `pc`, and no other thread moved. -/
structure Moves (s s' : Server) (i : ℕ) (pc : WorkerPc) : Prop where
  acceptor : s'.acceptor = s.acceptor
  worker : s'.worker = Function.update s.worker i pc

namespace Moves

variable (h : Moves s s' i pc)

include h

theorem worker_apply (j : ℕ) : s'.worker j = if j = i then pc else s.worker j := by
  rw [h.worker, Function.update_apply]

theorem inside (t : Thread) : s'.inside t = if t = .worker i then pc.inside else s.inside t := by
  cases t with
  | acceptor => exact congrArg AcceptorPc.inside h.acceptor
  | worker j =>
    simp only [Server.inside, h.worker_apply, Thread.worker.injEq]
    split <;> rfl

theorem node (t : Thread) : s'.node t = if t = .worker i then pc.node else s.node t := by
  cases t with
  | acceptor => exact congrArg AcceptorPc.node h.acceptor
  | worker j =>
    simp only [Server.node, h.worker_apply, Thread.worker.injEq]
    split <;> rfl

theorem uncounted (t : Thread) :
    s'.uncounted t = if t = .worker i then pc.uncounted else s.uncounted t := by
  cases t with
  | acceptor => exact congrArg AcceptorPc.uncounted h.acceptor
  | worker j =>
    simp only [Server.uncounted, h.worker_apply, Thread.worker.injEq]
    split <;> rfl

end Moves

theorem intAdd_eq {z d : ℤ} {n : ℕ} (h : z + d = n) (hlt : n < 2 ^ 31) : intAdd z d = n := by
  rw [intAdd, h]
  exact (int_eq_iff n).2 hlt

/-! ## The mutex -/

namespace Locked

theorem same (h : Locked s) (hmutex : s'.mutex = s.mutex) (hinside : ∀ t, s'.inside t = s.inside t) :
    Locked s' := fun t => by rw [hmutex, hinside, h t]

theorem acquire (h : Locked s) (hfree : s.mutex = none) (hmutex : s'.mutex = some t)
    (hinside : s'.inside t = true) (hother : ∀ t' ≠ t, s'.inside t' = s.inside t') : Locked s' := by
  intro t'
  by_cases ht : t' = t
  · rw [ht, hmutex, hinside]
    exact iff_of_true rfl rfl
  · rw [hother t' ht, ← h t', hmutex, hfree, Option.some.injEq]
    exact iff_of_false (fun h => ht h.symm) (by simp)

theorem release (h : Locked s) (hheld : s.inside t = true) (hmutex : s'.mutex = none)
    (hinside : s'.inside t = false) (hother : ∀ t' ≠ t, s'.inside t' = s.inside t') : Locked s' := by
  intro t'
  rw [hmutex]
  refine iff_of_false (by simp) fun hin => ?_
  by_cases ht : t' = t
  · rw [ht, hinside] at hin
    cases hin
  · rw [hother t' ht, ← h t', (h t).2 hheld, Option.some.injEq] at hin
    exact ht hin.symm

theorem unique (h : Locked s) (ht : s.inside t = true) (ht' : s.inside t' = true) : t' = t := by
  rw [← h t] at ht
  rw [← h t', ht, Option.some.injEq] at ht'
  exact ht'.symm

end Locked

/-! ## What steps leave alone -/

theorem QueueInv.same (h : QueueInv s nodes) (hheap : s'.heap = s.heap) (hhead : s'.head = s.head)
    (hsize : s'.size + (s'.mutex.elim 0 s'.uncounted : ℕ) = nodes.length)
    (hnode : ∀ t, s'.node t = s.node t) (hsees : ∀ i, (s'.worker i).Sees nodes)
    (hnew : ∀ fd a, s'.acceptor = .append fd a → s.acceptor = .append fd a) :
    QueueInv s' nodes where
  linked := by rw [hheap, hhead]; exact h.linked
  distinct := h.distinct
  size := hsize
  sees := hsees
  own t a ha := by
    rw [hnode] at ha
    obtain ⟨hsome, hout, huniq⟩ := h.own t a ha
    exact ⟨by rw [hheap]; exact hsome, hout, fun t' ht' => huniq t' (by rw [← hnode]; exact ht')⟩
  new fd a ha := by rw [hheap]; exact h.new fd a (hnew fd a ha)
  allocated a ha := by
    rw [hheap] at ha
    exact (h.allocated a ha).imp_right fun ⟨t, ht⟩ => ⟨t, by rw [hnode]; exact ht⟩

theorem DescriptorInv.same (h : DescriptorInv s nodes) (hopened : s'.opened = s.opened)
    (haccepted : s'.accepted = s.accepted) (htaken : s'.taken = s.taken)
    (hclosed : s'.closed = s.closed) (hacceptor : s'.acceptor.hand = s.acceptor.hand)
    (hworker : ∀ i, (s'.worker i).hand = (s.worker i).hand) : DescriptorInv s' nodes := by
  have hwaiting : s'.waiting nodes = s.waiting nodes := by
    rw [Server.waiting, Server.waiting, hacceptor]
  refine ⟨?_, fun i => ?_, ?_, ?_, fun i fd hfd => ?_⟩
  · rw [haccepted, htaken, hwaiting, h.order]
  · rw [htaken, hclosed, hworker, h.served]
  · rw [hwaiting]
    exact h.nodup
  · rw [hwaiting, hopened]
    exact h.live
  · rw [hworker] at hfd
    obtain ⟨hopen, hout, huniq⟩ := h.handed i fd hfd
    rw [hwaiting, hopened]
    exact ⟨hopen, hout, fun j hj => huniq j (by rw [← hworker]; exact hj)⟩

/-- The descriptors of the queue are different positive `int`s, so the size is no wrapped one. -/
theorem DescriptorInv.length_lt (h : DescriptorInv s nodes) : nodes.length < 2 ^ 31 := by
  have hnodup : ((s.waiting nodes).map Int32.toInt).Nodup :=
    h.nodup.map fun a b hab => Int32.toInt_inj.1 hab
  have hsub : ((s.waiting nodes).map Int32.toInt).toFinset ⊆ Finset.Ioo 0 (2 ^ 31) := by
    intro z hz
    rw [List.mem_toFinset, List.mem_map] at hz
    obtain ⟨fd, hfd, rfl⟩ := hz
    have hpos := Int32.lt_iff_toInt_lt.1 (h.live fd hfd).1
    have hlt := fd.toInt_lt
    rw [Finset.mem_Ioo]
    exact ⟨hpos, hlt⟩
  have hcard := Finset.card_le_card hsub
  rw [List.toFinset_card_of_nodup hnodup, Int.card_Ioo, List.length_map, Server.waiting,
    List.length_append, List.length_map] at hcard
  omega

/-! ## The steps of a worker -/

theorem Locked.moves (h : Locked s) (hmoves : Moves s s' i pc) (hmutex : s'.mutex = s.mutex)
    (hinside : pc.inside = (s.worker i).inside) : Locked s' := by
  refine h.same hmutex fun t => ?_
  rw [hmoves.inside]
  split
  · rename_i ht
    rw [ht, hinside]
    rfl
  · rfl

theorem QueueInv.moves (h : QueueInv s nodes) (hmoves : Moves s s' i pc)
    (hheap : s'.heap = s.heap) (hhead : s'.head = s.head)
    (hsize : s'.size + (s'.mutex.elim 0 s'.uncounted : ℕ) = nodes.length)
    (hnode : pc.node = (s.worker i).node) (hsees : pc.Sees nodes) : QueueInv s' nodes := by
  refine h.same hheap hhead hsize (fun t => ?_) (fun j => ?_)
    fun fd a ha => by rw [← hmoves.acceptor]; exact ha
  · rw [hmoves.node]
    split
    · rename_i ht
      rw [ht, hnode]
      rfl
    · rfl
  · rw [hmoves.worker_apply]
    split
    · exact hsees
    · exact h.sees j

theorem DescriptorInv.moves (h : DescriptorInv s nodes) (hmoves : Moves s s' i pc)
    (hopened : s'.opened = s.opened) (haccepted : s'.accepted = s.accepted)
    (htaken : s'.taken = s.taken) (hclosed : s'.closed = s.closed)
    (hhand : pc.hand = (s.worker i).hand) : DescriptorInv s' nodes := by
  refine h.same hopened haccepted htaken hclosed (by rw [hmoves.acceptor]) fun j => ?_
  rw [hmoves.worker_apply]
  split
  · rename_i hj
    rw [hj, hhand]
  · rfl

theorem Awake.moves (h : Awake s nodes) (hmoves : Moves s s' i pc)
    (hwait : pc = .wait → nodes = []) : Awake s' nodes := by
  intro j hj hne
  rw [hmoves.worker_apply] at hj
  rw [hmoves.acceptor]
  split at hj
  · exact absurd (hwait hj) hne
  · exact h j hj hne

namespace ServerInv

/-- The size is right while a worker has not taken anything off it. -/
theorem size_eq (h : ServerInv s nodes) (hin : (s.worker i).inside = true)
    (hcount : (s.worker i).uncounted = 0) : s.size = nodes.length := by
  have hsize := h.queue.size
  rw [(h.locked (.worker i)).2 hin] at hsize
  simp only [Option.elim_some, Server.uncounted, hcount] at hsize
  omega

theorem size_moves (h : ServerInv s nodes) (hmoves : Moves s s' i pc) (hmutex : s'.mutex = s.mutex)
    (hsize : s'.size = s.size) (hcount : pc.uncounted = (s.worker i).uncounted) :
    s'.size + (s'.mutex.elim 0 s'.uncounted : ℕ) = nodes.length := by
  have heq : s'.uncounted = s.uncounted := funext fun t => by
    rw [hmoves.uncounted]
    split
    · rename_i ht
      rw [ht, hcount]
      rfl
    · rfl
  rw [hmutex, hsize, heq]
  exact h.queue.size

theorem head_eq (h : ServerInv s nodes) {a : ℕ} {x : Int32}
    (hpc : s.worker i = .shrink a x ∨ s.worker i = .unlink a x) :
    ∃ nodes', nodes = (a, x) :: nodes' := by
  have hsees : nodes.head? = some (a, x) := by
    have := h.queue.sees i
    rcases hpc with hpc | hpc <;> rwa [hpc] at this
  rcases nodes with _ | ⟨node, nodes'⟩
  · cases hsees
  · rw [List.head?_cons, Option.some.injEq] at hsees
    exact ⟨nodes', by rw [hsees]⟩

/-- A worker goes on that is none of the wiser, or has only looked at the queue. -/
theorem goto (h : ServerInv s nodes) (hinside : pc.inside = (s.worker i).inside)
    (hnode : pc.node = (s.worker i).node) (hhand : pc.hand = (s.worker i).hand)
    (hcount : pc.uncounted = (s.worker i).uncounted) (hsees : pc.Sees nodes) (hwait : pc ≠ .wait) :
    ServerInv (s.goto i pc) nodes := by
  have hmoves : Moves s (s.goto i pc) i pc := ⟨rfl, rfl⟩
  exact ⟨h.locked.moves hmoves rfl hinside,
    h.queue.moves hmoves rfl rfl (h.size_moves hmoves rfl rfl hcount) hnode hsees,
    h.descriptors.moves hmoves rfl rfl rfl rfl hhand,
    h.awake.moves hmoves fun hpc => absurd hpc hwait⟩

/-- `pthread_mutex_lock`, also when a wait is over. -/
theorem acquire (h : ServerInv s nodes) (hfree : s.mutex = none)
    (hpc : s.worker i = .lock ∨ s.worker i = .wake) :
    ServerInv { s.goto i .test with mutex := some (.worker i) } nodes := by
  have hmoves : Moves s { s.goto i .test with mutex := some (.worker i) } i .test := ⟨rfl, rfl⟩
  refine ⟨h.locked.acquire hfree rfl (by rw [hmoves.inside, if_pos rfl]; rfl) fun t ht => by
      rw [hmoves.inside, if_neg ht],
    h.queue.moves hmoves rfl rfl ?_ ?_ trivial,
    h.descriptors.moves hmoves rfl rfl rfl rfl ?_, h.awake.moves hmoves fun hw => by cases hw⟩
  · have hsize := h.queue.size
    rw [hfree] at hsize
    rw [Option.elim_some, hmoves.uncounted, if_pos rfl]
    exact hsize
  · rcases hpc with hpc | hpc <;> rw [hpc] <;> rfl
  · rcases hpc with hpc | hpc <;> rw [hpc] <;> rfl

/-- `pthread_mutex_unlock`, and what `pthread_cond_wait` does first. -/
theorem release (h : ServerInv s nodes) (hin : (s.worker i).inside = true) (hout : pc.inside = false)
    (hnode : pc.node = (s.worker i).node) (hhand : pc.hand = (s.worker i).hand)
    (hcount : (s.worker i).uncounted = 0) (hwait : pc = .wait → nodes = []) :
    ServerInv { s.goto i pc with mutex := none } nodes := by
  have hmoves : Moves s { s.goto i pc with mutex := none } i pc := ⟨rfl, rfl⟩
  have hheld : s.inside (.worker i) = true := hin
  refine ⟨h.locked.release hheld rfl (by rw [hmoves.inside, if_pos rfl, hout]) fun t ht => by
      rw [hmoves.inside, if_neg ht],
    h.queue.moves hmoves rfl rfl ?_ hnode (WorkerPc.sees_of_outside hout),
    h.descriptors.moves hmoves rfl rfl rfl rfl hhand, h.awake.moves hmoves hwait⟩
  change s.size + ((0 : ℕ) : ℤ) = _
  rw [h.size_eq hin hcount]
  simp

/-- `size--`, before the node is unlinked. -/
theorem shrink (h : ServerInv s nodes) {a : ℕ} {x : Int32} (hpc : s.worker i = .shrink a x) :
    ServerInv { s.goto i (.unlink a x) with size := intAdd s.size (-1) } nodes := by
  have hmoves : Moves s { s.goto i (.unlink a x) with size := intAdd s.size (-1) } i (.unlink a x) :=
    ⟨rfl, rfl⟩
  have hin : (s.worker i).inside = true := by rw [hpc]; rfl
  obtain ⟨nodes', rfl⟩ := h.head_eq (.inl hpc)
  refine ⟨h.locked.moves hmoves rfl (by rw [hpc]; rfl),
    h.queue.moves hmoves rfl rfl ?_ (by rw [hpc]; rfl) rfl,
    h.descriptors.moves hmoves rfl rfl rfl rfl (by rw [hpc]; rfl),
    h.awake.moves hmoves fun hw => by cases hw⟩
  have hcount := hmoves.uncounted (.worker i)
  rw [if_pos rfl] at hcount
  change intAdd s.size (-1) + (s.mutex.elim 0 _ : ℕ) = _
  have hlt := h.descriptors.length_lt
  rw [List.length_cons] at hlt
  rw [(h.locked (.worker i)).2 hin, Option.elim_some, hcount, h.size_eq hin (by rw [hpc]; rfl),
    intAdd_eq (n := nodes'.length) (by simp) (by omega)]
  simp [WorkerPc.uncounted]

/-- `DL_DELETE`: the node leaves the queue, and the worker has the connection. -/
theorem unlink (h : ServerInv s nodes) {a : ℕ} {x : Int32} (hpc : s.worker i = .unlink a x) :
    ∃ head heap nodes', dlDelete s.heap s.head (fun head => head) = some (head, heap) ∧
      nodes = (a, x) :: nodes' ∧
      ServerInv { s.goto i (.unlock a x) with
        head := head, heap := heap, taken := s.taken ++ [(i, x)] } nodes' := by
  obtain ⟨nodes', rfl⟩ := h.head_eq (.inr hpc)
  have hin : (s.worker i).inside = true := by rw [hpc]; rfl
  have hheld := (h.locked (.worker i)).2 hin
  have hother : ∀ t, s.inside t = true → t = .worker i := fun t ht =>
    h.locked.unique (show s.inside (.worker i) = true from hin) ht
  have hnodup := List.nodup_cons.1 h.queue.distinct
  obtain ⟨head, heap, hdelete, hlinked, hsome⟩ := dlDelete_spec h.queue.linked h.queue.distinct
  refine ⟨head, heap, nodes', hdelete, rfl, ?_⟩
  generalize hs' : ({ s.goto i (.unlock a x) with
    head := head, heap := heap, taken := s.taken ++ [(i, x)] } : Server) = s'
  have hmoves : Moves s s' i (.unlock a x) := by subst hs'; exact ⟨rfl, rfl⟩
  refine ⟨h.locked.moves hmoves (by rw [← hs']; rfl) (by rw [hpc]; rfl), ?_, ?_, ?_⟩
  · have hheap : s'.heap = heap := by rw [← hs']
    refine ⟨by rw [← hs']; exact hlinked, hnodup.2, ?_, fun j => ?_, fun t b hb => ?_,
      fun fd b hb => ?_, fun b hb => ?_⟩
    · have hsize := h.queue.size
      have hsame : s'.size = s.size ∧ s'.mutex = s.mutex := by rw [← hs']; exact ⟨rfl, rfl⟩
      rw [hsame.1, hsame.2, hheld, Option.elim_some, hmoves.uncounted, if_pos rfl]
      rw [hheld, Option.elim_some, Server.uncounted, hpc] at hsize
      simp only [WorkerPc.uncounted, List.length_cons] at hsize ⊢
      omega
    · rw [hmoves.worker_apply]
      split
      · trivial
      · rename_i hj
        refine WorkerPc.sees_of_outside (Bool.eq_false_iff.2 fun hin' => hj ?_)
        cases hother (.worker j) hin'
        rfl
    · rw [hheap, hsome]
      rw [hmoves.node] at hb
      split at hb
      · rename_i ht
        cases hb
        refine ⟨h.queue.linked.isSome a List.mem_cons_self, hnodup.1, fun t' ht' => ?_⟩
        rw [hmoves.node] at ht'
        split at ht'
        · rename_i hti
          rw [hti, ht]
        · exact absurd List.mem_cons_self (h.queue.own t' a ht').2.1
      · obtain ⟨hb', hout, huniq⟩ := h.queue.own t b hb
        refine ⟨hb', fun hmem => hout (List.mem_cons_of_mem _ hmem), fun t' ht' => ?_⟩
        rw [hmoves.node] at ht'
        split at ht'
        · cases ht'
          exact absurd List.mem_cons_self hout
        · exact huniq t' ht'
    · rw [hmoves.acceptor] at hb
      cases hother .acceptor (congrArg AcceptorPc.inside hb)
    · rw [hheap, hsome] at hb
      rcases h.queue.allocated b hb with hmem | ⟨t, ht⟩
      · rcases List.mem_cons.1 hmem with rfl | hmem
        · exact .inr ⟨.worker i, by rw [hmoves.node, if_pos rfl]; rfl⟩
        · exact .inl hmem
      · refine .inr ⟨t, ?_⟩
        rw [hmoves.node, if_neg, ht]
        rintro rfl
        rw [Server.node, hpc] at ht
        cases ht
  · have hwaiting : ∀ nodes, s'.waiting nodes = s.waiting nodes := fun nodes => by
      rw [Server.waiting, Server.waiting, hmoves.acceptor]
    have hsame : s'.accepted = s.accepted ∧ s'.taken = s.taken ++ [(i, x)] ∧
        s'.closed = s.closed ∧ s'.opened = s.opened := by
      rw [← hs']
      exact ⟨rfl, rfl, rfl, rfl⟩
    obtain ⟨haccepted, htaken, hclosed, hopened⟩ := hsame
    obtain ⟨horder, hserved, hdistinct, hlive, hhanded⟩ := h.descriptors
    rw [show s.waiting ((a, x) :: nodes') = x :: s.waiting nodes' from rfl] at *
    have hx := List.nodup_cons.1 hdistinct
    have hgone : ∀ j, (s.worker j).hand ≠ some x := fun j hj =>
      (hhanded j x hj).2.1 List.mem_cons_self
    refine ⟨?_, fun j => ?_, ?_, fun fd hfd => ?_, fun j fd hj => ?_⟩
    · rw [haccepted, htaken, hwaiting, horder, List.map_append, List.append_assoc]
      rfl
    · rw [htaken, hclosed, jobsOf_snoc, hserved, hmoves.worker_apply]
      by_cases hj : j = i
      · rw [if_pos hj, if_pos hj.symm, hj, hpc]
        simp [WorkerPc.hand]
      · rw [if_neg hj, if_neg fun hi => hj hi.symm, List.append_nil]
    · rw [hwaiting]
      exact hx.2
    · rw [hwaiting] at hfd
      rw [hopened]
      exact hlive fd (List.mem_cons_of_mem _ hfd)
    · rw [hwaiting, hopened]
      rw [hmoves.worker_apply] at hj
      split at hj
      · rename_i hji
        cases hj
        refine ⟨(hlive x List.mem_cons_self).2, hx.1, fun j' hj' => ?_⟩
        rw [hmoves.worker_apply] at hj'
        split at hj'
        · rename_i hji'
          rw [hji', hji]
        · exact absurd hj' (hgone j')
      · obtain ⟨hopen, hout, huniq⟩ := hhanded j fd hj
        refine ⟨hopen, fun hmem => hout (List.mem_cons_of_mem _ hmem), fun j' hj' => ?_⟩
        rw [hmoves.worker_apply] at hj'
        split at hj'
        · cases hj'
          exact absurd hj (hgone j)
        · exact huniq j' hj'
  · intro j hj hne
    rw [hmoves.worker_apply] at hj
    rw [hmoves.acceptor]
    split at hj
    · cases hj
    · exact h.awake j hj (List.cons_ne_nil _ _)

/-- `free` of the node that was unlinked. -/
theorem free (h : ServerInv s nodes) {a : ℕ} {x : Int32} (hpc : s.worker i = .free a x) :
    (s.heap a).isSome ∧
      ServerInv { s.goto i (.handle x) with heap := Function.update s.heap a none } nodes := by
  have hnode : s.node (.worker i) = some a := by rw [Server.node, hpc]; rfl
  obtain ⟨hsome, hout, huniq⟩ := h.queue.own _ a hnode
  have hother : ∀ {t b}, t ≠ .worker i → s.node t = some b → b ≠ a := fun ht hb hba =>
    ht (huniq _ (hba ▸ hb))
  refine ⟨hsome, ?_⟩
  generalize hs' : ({ s.goto i (.handle x) with heap := Function.update s.heap a none } : Server) = s'
  have hmoves : Moves s s' i (.handle x) := by subst hs'; exact ⟨rfl, rfl⟩
  have hheap : s'.heap = Function.update s.heap a none := by rw [← hs']
  have hsame : s'.mutex = s.mutex ∧ s'.size = s.size ∧ s'.head = s.head := by
    rw [← hs']
    exact ⟨rfl, rfl, rfl⟩
  have hrecords : s'.opened = s.opened ∧ s'.accepted = s.accepted ∧ s'.taken = s.taken ∧
      s'.closed = s.closed := by
    rw [← hs']
    exact ⟨rfl, rfl, rfl, rfl⟩
  refine ⟨h.locked.moves hmoves hsame.1 (by rw [hpc]; rfl), ?_, h.descriptors.moves hmoves
    hrecords.1 hrecords.2.1 hrecords.2.2.1 hrecords.2.2.2 (by rw [hpc]; rfl),
    h.awake.moves hmoves fun hw => by cases hw⟩
  refine ⟨?_, h.queue.distinct, h.size_moves hmoves hsame.1 hsame.2.1 (by rw [hpc]; rfl),
    fun j => ?_, fun t b hb => ?_, fun fd b hb => ?_, fun b hb => ?_⟩
  · rw [hsame.2.2, hheap]
    exact h.queue.linked.frame fun b hb =>
      Function.update_of_ne (ne_of_mem_of_not_mem hb hout) ..
  · rw [hmoves.worker_apply]
    split
    · trivial
    · exact h.queue.sees j
  · rw [hmoves.node] at hb
    split at hb
    · cases hb
    · rename_i ht
      obtain ⟨hb', hout', huniq'⟩ := h.queue.own t b hb
      refine ⟨by rw [hheap, Function.update_of_ne (hother ht hb)]; exact hb', hout', fun t' ht' => ?_⟩
      rw [hmoves.node] at ht'
      split at ht'
      · cases ht'
      · exact huniq' t' ht'
  · rw [hmoves.acceptor] at hb
    obtain ⟨hb0, hb'⟩ := h.queue.new fd b hb
    have hnb : s.node .acceptor = some b := congrArg AcceptorPc.node hb
    rw [hheap, Function.update_of_ne (hother (by simp) hnb)]
    exact ⟨hb0, hb'⟩
  · rw [hheap] at hb
    have hba : b ≠ a := by
      rintro rfl
      simp at hb
    rw [Function.update_of_ne hba] at hb
    refine (h.queue.allocated b hb).imp_right fun ⟨t, ht⟩ => ⟨t, ?_⟩
    rw [hmoves.node, if_neg, ht]
    rintro rfl
    rw [hnode, Option.some.injEq] at ht
    exact hba ht.symm

/-- `close` of the connection that was handled. -/
theorem close (h : ServerInv s nodes) {x : Int32} (hpc : s.worker i = .close x) :
    ServerInv { s.goto i .loop with
      opened := s.opened.erase x, closed := s.closed ++ [(i, x)] } nodes := by
  obtain ⟨horder, hserved, hdistinct, hlive, hhanded⟩ := h.descriptors
  have hhand : (s.worker i).hand = some x := by rw [hpc]; rfl
  obtain ⟨-, hout, huniq⟩ := hhanded i x hhand
  generalize hs' : ({ s.goto i .loop with
    opened := s.opened.erase x, closed := s.closed ++ [(i, x)] } : Server) = s'
  have hmoves : Moves s s' i .loop := by subst hs'; exact ⟨rfl, rfl⟩
  have hopened : s'.opened = s.opened.erase x := by rw [← hs']
  have hclosed : s'.closed = s.closed ++ [(i, x)] := by rw [← hs']
  have hsame : s'.mutex = s.mutex ∧ s'.size = s.size ∧ s'.head = s.head ∧ s'.heap = s.heap ∧
      s'.accepted = s.accepted ∧ s'.taken = s.taken := by
    rw [← hs']
    exact ⟨rfl, rfl, rfl, rfl, rfl, rfl⟩
  obtain ⟨hmutex, hsize, hhead, hheap, haccepted, htaken⟩ := hsame
  have hwaiting : s'.waiting nodes = s.waiting nodes := by
    rw [Server.waiting, Server.waiting, hmoves.acceptor]
  refine ⟨h.locked.moves hmoves hmutex (by rw [hpc]; rfl), h.queue.moves hmoves hheap hhead
    (h.size_moves hmoves hmutex hsize (by rw [hpc]; rfl)) (by rw [hpc]; rfl) trivial, ?_,
    h.awake.moves hmoves fun hw => by cases hw⟩
  refine ⟨by rw [haccepted, htaken, hwaiting, horder], fun j => ?_, by rw [hwaiting]; exact hdistinct,
    fun fd hfd => ?_, fun j fd hj => ?_⟩
  · rw [htaken, hclosed, jobsOf_snoc, hserved, hmoves.worker_apply]
    by_cases hj : j = i
    · rw [if_pos hj, if_pos hj.symm, hj, hpc]
      simp [WorkerPc.hand]
    · rw [if_neg hj, if_neg fun hi => hj hi.symm, List.append_nil]
  · rw [hwaiting] at hfd
    obtain ⟨hpos, hopen⟩ := hlive fd hfd
    rw [hopened]
    exact ⟨hpos, Finset.mem_erase.2 ⟨ne_of_mem_of_not_mem hfd hout, hopen⟩⟩
  · rw [hmoves.worker_apply] at hj
    split at hj
    · cases hj
    · rename_i hji
      obtain ⟨hopen, hout', huniq'⟩ := hhanded j fd hj
      rw [hwaiting, hopened]
      refine ⟨Finset.mem_erase.2 ⟨?_, hopen⟩, hout', fun j' hj' => ?_⟩
      · rintro rfl
        exact hji (huniq j hj)
      · rw [hmoves.worker_apply] at hj'
        split at hj'
        · cases hj'
        · exact huniq' j' hj'

/-- A worker's step goes through, whatever it is. -/
theorem worker (h : ServerInv s nodes) (i : ℕ) : ∃ s' nodes', s.workerStep i = some s' ∧
    ServerInv s' nodes' ∧ QueueMove s s' nodes nodes' := by
  unfold Server.workerStep
  rcases hpc : s.worker i with _ | _ | _ | _ | _ | _ | ⟨a, x⟩ | ⟨a, x⟩ | ⟨a, x⟩ | ⟨a, x⟩ | x | x | _
  · refine ⟨_, nodes, rfl, ?_, .none rfl⟩
    split <;> exact h.goto (by rw [hpc]; rfl) (by rw [hpc]; rfl) (by rw [hpc]; rfl)
      (by rw [hpc]; rfl) trivial (by simp)
  · refine ⟨_, nodes, rfl, ?_, .none (by split <;> rfl)⟩
    split
    · exact h.acquire ‹_› (.inl hpc)
    · exact h
  · refine ⟨_, nodes, rfl, ?_, .none (by split <;> rfl)⟩
    have hin : (s.worker i).inside = true := by rw [hpc]; rfl
    have hsize := h.size_eq hin (by rw [hpc]; rfl)
    split
    · rename_i hzero
      refine h.release hin rfl (by rw [hpc]; rfl) (by rw [hpc]; rfl) (by rw [hpc]; rfl) fun _ => ?_
      rw [hzero] at hsize
      exact List.length_eq_zero_iff.1 (by omega)
    · rename_i hpos
      refine h.goto (by rw [hpc]; rfl) (by rw [hpc]; rfl) (by rw [hpc]; rfl) (by rw [hpc]; rfl)
        ?_ (by simp)
      rintro rfl
      exact hpos hsize
  · exact ⟨s, nodes, rfl, h, .none rfl⟩
  · refine ⟨_, nodes, rfl, ?_, .none (by split <;> rfl)⟩
    split
    · exact h.acquire ‹_› (.inr hpc)
    · exact h
  · have hne : nodes ≠ [] := by
      have := h.queue.sees i
      rwa [hpc] at this
    obtain ⟨⟨a, x⟩, nodes', rfl⟩ := List.exists_cons_of_ne_nil hne
    obtain ⟨hhead, -, n, hnode, -⟩ := h.queue.linked
    rw [hhead]
    simp only [hnode, Option.bind_eq_bind, Option.bind_some]
    refine ⟨_, (a, x) :: nodes', rfl, ?_, .none rfl⟩
    exact h.goto (by rw [hpc]; rfl) (by rw [hpc]; rfl) (by rw [hpc]; rfl) (by rw [hpc]; rfl)
      rfl (by simp)
  · exact ⟨_, nodes, rfl, h.shrink hpc, .none rfl⟩
  · obtain ⟨head, heap, nodes', hdelete, hnodes, h'⟩ := h.unlink hpc
    exact ⟨_, nodes', by simp only [hdelete, Option.bind_eq_bind, Option.bind_some]; rfl, h',
      .pop i a x nodes' hnodes rfl⟩
  · refine ⟨_, nodes, rfl, ?_, .none rfl⟩
    exact h.release (by rw [hpc]; rfl) rfl (by rw [hpc]; rfl) (by rw [hpc]; rfl)
      (by rw [hpc]; rfl) fun hw => by cases hw
  · obtain ⟨hsome, h'⟩ := h.free hpc
    exact ⟨_, nodes, if_pos hsome, h', .none rfl⟩
  · exact ⟨_, nodes, rfl, h.goto (by rw [hpc]; rfl) (by rw [hpc]; rfl) (by rw [hpc]; rfl)
      (by rw [hpc]; rfl) trivial (by simp), .none rfl⟩
  · exact ⟨_, nodes, rfl, h.close hpc, .none rfl⟩
  · exact ⟨s, nodes, rfl, h, .none rfl⟩

end ServerInv

/-! ## The steps of the acceptor -/

theorem inside_of_worker (hworker : s'.worker = s.worker) (ht : t ≠ .acceptor) : s'.inside t = s.inside t := by
  cases t with
  | acceptor => exact absurd rfl ht
  | worker i => rw [Server.inside, Server.inside, hworker]

theorem node_of_worker (hworker : s'.worker = s.worker) (ht : t ≠ .acceptor) : s'.node t = s.node t := by
  cases t with
  | acceptor => exact absurd rfl ht
  | worker i => rw [Server.node, Server.node, hworker]

theorem Locked.serves (h : Locked s) (hworker : s'.worker = s.worker)
    (hmutex : s'.mutex = s.mutex) (hinside : s'.acceptor.inside = s.acceptor.inside) : Locked s' := by
  refine h.same hmutex fun t => ?_
  by_cases ht : t = .acceptor
  · rw [ht]
    exact hinside
  · exact inside_of_worker hworker ht

theorem QueueInv.serves (h : QueueInv s nodes) (hworker : s'.worker = s.worker)
    (hheap : s'.heap = s.heap) (hhead : s'.head = s.head)
    (hsize : s'.size + (s'.mutex.elim 0 s'.uncounted : ℕ) = nodes.length)
    (hnode : s'.acceptor.node = s.acceptor.node)
    (hnew : ∀ fd a, s'.acceptor = .append fd a → s.acceptor = .append fd a) :
    QueueInv s' nodes := by
  refine h.same hheap hhead hsize (fun t => ?_) (fun i => by rw [hworker]; exact h.sees i) hnew
  by_cases ht : t = .acceptor
  · rw [ht]
    exact hnode
  · exact node_of_worker hworker ht

theorem Awake.serves (h : Awake s nodes) (hworker : s'.worker = s.worker)
    (hpc : s.acceptor = .grow ∨ s.acceptor = .broadcast →
      s'.acceptor = .grow ∨ s'.acceptor = .broadcast) : Awake s' nodes := fun i hi hne =>
  hpc (h i (by rw [← hworker]; exact hi) hne)

namespace ServerInv

variable {fd : Int32} {a : ℕ}

/-- The size is right while the acceptor has not appended anything. -/
theorem size_acceptor (h : ServerInv s nodes) (hin : s.acceptor.inside = true) :
    s.size + s.acceptor.uncounted = nodes.length := by
  have hsize := h.queue.size
  rwa [(h.locked .acceptor).2 hin] at hsize

/-- The acceptor goes on outside the mutex' sections. -/
theorem serve (h : ServerInv s nodes) (pc : AcceptorPc) (hin : s.acceptor.inside = false)
    (hpc : pc.inside = false) (hhand : pc.hand = s.acceptor.hand) :
    ServerInv { s with acceptor := pc } nodes := by
  have hnone : ∀ pc : AcceptorPc, pc.inside = false → pc.node = none ∧ pc.uncounted = 0 := by
    intro pc hpc
    cases pc <;> first | exact ⟨rfl, rfl⟩ | cases hpc
  refine ⟨h.locked.serves rfl rfl (hpc.trans hin.symm), h.queue.serves rfl rfl rfl ?_ ?_ ?_,
    h.descriptors.same rfl rfl rfl rfl hhand fun _ => rfl, h.awake.serves rfl ?_⟩
  · rw [← h.queue.size]
    congr 3
    funext t
    cases t with
    | acceptor => exact (hnone pc hpc).2.trans (hnone _ hin).2.symm
    | worker i => rfl
  · exact (hnone pc hpc).1.trans (hnone _ hin).1.symm
  · rintro fd a rfl
    cases hpc
  · rintro (hg | hg) <;> rw [hg] at hin <;> cases hin

theorem acquireAcceptor (h : ServerInv s nodes) (hfree : s.mutex = none)
    (hpc : s.acceptor = .lock fd) :
    ServerInv { s with mutex := some .acceptor, acceptor := .alloc fd } nodes := by
  refine ⟨h.locked.acquire hfree rfl rfl fun t ht => inside_of_worker rfl ht,
    h.queue.serves rfl rfl rfl ?_ (by rw [hpc]; rfl) (fun _ _ ha => by cases ha),
    h.descriptors.same rfl rfl rfl rfl (by rw [hpc]; rfl) fun _ => rfl,
    h.awake.serves rfl (by rw [hpc]; rintro (hg | hg) <;> cases hg)⟩
  have hsize := h.queue.size
  rwa [hfree] at hsize

theorem releaseAcceptor (h : ServerInv s nodes) (hpc : s.acceptor = .unlock) :
    ServerInv { s with mutex := none, acceptor := .loop } nodes := by
  have hin : s.inside .acceptor = true := by rw [Server.inside, hpc]; rfl
  refine ⟨h.locked.release hin rfl rfl fun t ht => inside_of_worker rfl ht,
    h.queue.serves rfl rfl rfl ?_ (by rw [hpc]; rfl) (fun _ _ ha => by cases ha),
    h.descriptors.same rfl rfl rfl rfl (by rw [hpc]; rfl) fun _ => rfl,
    h.awake.serves rfl (by rw [hpc]; rintro (hg | hg) <;> cases hg)⟩
  have hsize := h.size_acceptor hin
  rwa [hpc] at hsize

/-- `calloc`. -/
theorem calloc (h : ServerInv s nodes) (hpc : s.acceptor = .alloc fd) (ha : a ≠ 0)
    (hfree : s.heap a = none) :
    ServerInv { s with
      acceptor := .append fd a, heap := Function.update s.heap a (some ⟨fd, 0, 0⟩) } nodes := by
  have hne : ∀ {b}, (s.heap b).isSome → b ≠ a := fun hb hba => by simp [hba, hfree] at hb
  generalize hs' : ({ s with
    acceptor := .append fd a, heap := Function.update s.heap a (some ⟨fd, 0, 0⟩) } : Server) = s'
  have hworker : s'.worker = s.worker := by rw [← hs']
  have hacceptor : s'.acceptor = .append fd a := by rw [← hs']
  have hheap : s'.heap = Function.update s.heap a (some ⟨fd, 0, 0⟩) := by rw [← hs']
  have hsame : s'.mutex = s.mutex ∧ s'.size = s.size ∧ s'.head = s.head := by
    rw [← hs']
    exact ⟨rfl, rfl, rfl⟩
  have hrecords : s'.opened = s.opened ∧ s'.accepted = s.accepted ∧ s'.taken = s.taken ∧
      s'.closed = s.closed := by
    rw [← hs']
    exact ⟨rfl, rfl, rfl, rfl⟩
  have hnone : s.node .acceptor = none := by rw [Server.node, hpc]; rfl
  have hsome : s'.node .acceptor = some a := by rw [Server.node, hacceptor]; rfl
  refine ⟨h.locked.serves hworker hsame.1 (by rw [hacceptor, hpc]; rfl), ?_,
    h.descriptors.same hrecords.1 hrecords.2.1 hrecords.2.2.1 hrecords.2.2.2
      (by rw [hacceptor, hpc]; rfl) fun i => by rw [hworker],
    h.awake.serves hworker (by rw [hpc]; rintro (hg | hg) <;> cases hg)⟩
  have hfresh : a ∉ nodes.map Prod.fst := fun hmem => hne (h.queue.linked.isSome a hmem) rfl
  refine ⟨?_, h.queue.distinct, ?_, fun i => by rw [hworker]; exact h.queue.sees i, fun t b hb => ?_,
    fun fd' b hb => ?_, fun b hb => ?_⟩
  · rw [hsame.2.2, hheap]
    exact h.queue.linked.frame fun b hb =>
      Function.update_of_ne (ne_of_mem_of_not_mem hb hfresh) ..
  · have hsize := h.size_acceptor (by rw [hpc]; rfl)
    rw [hpc] at hsize
    rw [hsame.1, (h.locked .acceptor).2 (by rw [Server.inside, hpc]; rfl), Option.elim_some,
      Server.uncounted, hacceptor, hsame.2.1]
    exact hsize
  · by_cases ht : t = .acceptor
    · rw [ht, hsome] at hb
      cases hb
      refine ⟨by simp [hheap], hfresh, fun t' ht' => ?_⟩
      by_contra hne'
      rw [ht] at hne'
      rw [node_of_worker hworker hne'] at ht'
      exact hne (h.queue.own t' a ht').1 rfl
    · rw [node_of_worker hworker ht] at hb
      obtain ⟨hb', hout, huniq⟩ := h.queue.own t b hb
      refine ⟨by rw [hheap, Function.update_of_ne (hne hb')]; exact hb', hout, fun t' ht' => ?_⟩
      by_cases hta : t' = .acceptor
      · rw [hta, hsome] at ht'
        cases ht'
        exact absurd rfl (hne hb')
      · exact huniq t' (by rw [← node_of_worker hworker hta]; exact ht')
  · rw [hacceptor] at hb
    cases hb
    exact ⟨ha, by rw [hheap, Function.update_self]⟩
  · rw [hheap] at hb
    by_cases hba : b = a
    · exact .inr ⟨.acceptor, by rw [hsome, hba]⟩
    · rw [Function.update_of_ne hba] at hb
      refine (h.queue.allocated b hb).imp_right fun ⟨t, ht⟩ => ⟨t, ?_⟩
      rw [node_of_worker hworker, ht]
      rintro rfl
      rw [hnone] at ht
      cases ht

/-- `DL_APPEND`: the connection is in the queue. -/
theorem append (h : ServerInv s nodes) (hpc : s.acceptor = .append fd a) :
    ∃ head heap, dlAppend s.heap s.head a = some (head, heap) ∧ a ≠ 0 ∧ a ∉ nodes.map Prod.fst ∧
      ServerInv { s with head := head, heap := heap, acceptor := .grow } (nodes ++ [(a, fd)]) := by
  have hin : s.inside .acceptor = true := by rw [Server.inside, hpc]; rfl
  have hheld := (h.locked .acceptor).2 hin
  have hnode : s.node .acceptor = some a := by rw [Server.node, hpc]; rfl
  obtain ⟨hsome, hfresh, huniq⟩ := h.queue.own _ a hnode
  obtain ⟨ha, hnew⟩ := h.queue.new fd a hpc
  obtain ⟨head, heap, happend, hlinked, hheap⟩ :=
    dlAppend_spec h.queue.linked h.queue.distinct ha hnew hfresh
  refine ⟨head, heap, happend, ha, hfresh, ?_⟩
  generalize hs' : ({ s with head := head, heap := heap, acceptor := .grow } : Server) = s'
  have hworker : s'.worker = s.worker := by rw [← hs']
  have hacceptor : s'.acceptor = .grow := by rw [← hs']
  have hheap' : s'.heap = heap := by rw [← hs']
  have hsame : s'.mutex = s.mutex ∧ s'.size = s.size := by
    rw [← hs']
    exact ⟨rfl, rfl⟩
  have hrecords : s'.opened = s.opened ∧ s'.accepted = s.accepted ∧ s'.taken = s.taken ∧
      s'.closed = s.closed := by
    rw [← hs']
    exact ⟨rfl, rfl, rfl, rfl⟩
  refine ⟨h.locked.serves hworker hsame.1 (by rw [hacceptor, hpc]; rfl), ?_, ?_,
    fun i _ _ => .inl hacceptor⟩
  · refine ⟨?_, nodup_snoc h.queue.distinct hfresh fd, ?_, fun i => ?_, fun t b hb => ?_,
      fun fd' b hb => ?_, fun b hb => ?_⟩
    · rw [tailAddr_append_singleton, ← hs']
      exact hlinked
    · have hsize := h.size_acceptor hin
      rw [hpc] at hsize
      rw [hsame.1, hheld, Option.elim_some, Server.uncounted, hacceptor, hsame.2]
      simp only [AcceptorPc.uncounted, List.length_append, List.length_singleton] at hsize ⊢
      omega
    · rw [hworker]
      refine WorkerPc.sees_of_outside (Bool.eq_false_iff.2 fun hin' => ?_)
      cases h.locked.unique hin (show s.inside (.worker i) = true from hin')
    · rw [hheap', hheap]
      by_cases ht : t = .acceptor
      · rw [ht, Server.node, hacceptor] at hb
        cases hb
      · rw [node_of_worker hworker ht] at hb
        obtain ⟨hb', hout, huniq'⟩ := h.queue.own t b hb
        refine ⟨hb', fun hmem => ?_, fun t' ht' => ?_⟩
        · rw [List.map_append, List.mem_append] at hmem
          rcases hmem with hmem | hmem
          · exact hout hmem
          · rw [List.map_singleton, List.mem_singleton] at hmem
            exact ht (huniq t (by rw [hb, hmem]))
        · refine huniq' t' ?_
          rw [← ht', node_of_worker hworker]
          rintro rfl
          rw [Server.node, hacceptor] at ht'
          cases ht'
    · rw [hacceptor] at hb
      cases hb
    · rw [hheap', hheap] at hb
      rw [List.map_append, List.mem_append]
      rcases h.queue.allocated b hb with hmem | ⟨t, ht⟩
      · exact .inl (.inl hmem)
      · by_cases hta : t = .acceptor
        · rw [hta, hnode, Option.some.injEq] at ht
          exact .inl (.inr (by simp [ht]))
        · exact .inr ⟨t, by rw [node_of_worker hworker hta, ht]⟩
  · have hwaiting : s'.waiting (nodes ++ [(a, fd)]) = s.waiting nodes := by
      rw [Server.waiting, Server.waiting, hacceptor, hpc, List.map_append]
      exact List.append_nil _
    obtain ⟨hopened, haccepted, htaken, hclosed⟩ := hrecords
    refine ⟨?_, fun i => ?_, ?_, ?_, fun i fd' hfd' => ?_⟩
    · rw [haccepted, htaken, hwaiting, h.descriptors.order]
    · rw [htaken, hclosed, hworker, h.descriptors.served]
    · rw [hwaiting]
      exact h.descriptors.nodup
    · rw [hwaiting, hopened]
      exact h.descriptors.live
    · rw [hworker] at hfd'
      rw [hwaiting, hopened, hworker]
      exact h.descriptors.handed i fd' hfd'

/-- `size++`. -/
theorem grow (h : ServerInv s nodes) (hpc : s.acceptor = .grow) :
    ServerInv { s with size := intAdd s.size 1, acceptor := .broadcast } nodes := by
  have hin : s.inside .acceptor = true := by rw [Server.inside, hpc]; rfl
  refine ⟨h.locked.serves rfl rfl (by rw [hpc]; rfl),
    h.queue.serves rfl rfl rfl ?_ (by rw [hpc]; rfl) (fun _ _ ha => by cases ha),
    h.descriptors.same rfl rfl rfl rfl (by rw [hpc]; rfl) fun _ => rfl,
    fun i _ _ => .inr rfl⟩
  have hsize := h.size_acceptor hin
  rw [hpc] at hsize
  change intAdd s.size 1 + (s.mutex.elim 0 _ : ℕ) = _
  rw [intAdd_eq (show s.size + 1 = nodes.length from hsize) h.descriptors.length_lt,
    (h.locked .acceptor).2 hin]
  exact Int.add_zero _

/-- `pthread_cond_broadcast`. -/
theorem broadcast (h : ServerInv s nodes) (hpc : s.acceptor = .broadcast) :
    ServerInv { s with worker := fun i => (s.worker i).woken, acceptor := .unlock } nodes := by
  have hin : s.inside .acceptor = true := by rw [Server.inside, hpc]; rfl
  have hwoken := fun i => (s.worker i).woken_same nodes
  refine ⟨h.locked.same rfl fun t => ?_, h.queue.same rfl rfl ?_ (fun t => ?_)
      (fun i => (hwoken i).sees (h.queue.sees i)) (fun _ _ ha => by cases ha),
    h.descriptors.same rfl rfl rfl rfl (by rw [hpc]; rfl) fun i => (hwoken i).hand,
    fun i hi => absurd hi (hwoken i).awake⟩
  · cases t with
    | acceptor => rw [Server.inside, Server.inside, hpc]; rfl
    | worker i => exact (hwoken i).inside
  · have hsize := h.size_acceptor hin
    rw [hpc] at hsize
    change s.size + (s.mutex.elim 0 _ : ℕ) = _
    rw [(h.locked .acceptor).2 hin]
    exact hsize
  · cases t with
    | acceptor => rw [Server.node, Server.node, hpc]; rfl
    | worker i => exact (hwoken i).node

/-- A connection is accepted. -/
theorem accept (h : ServerInv s nodes) (hpc : s.acceptor = .accept) (hnew : fd ∉ s.opened)
    (hpos : 0 < fd) :
    ServerInv { s with
      acceptor := .lock fd
      opened := insert fd s.opened
      accepted := s.accepted ++ [fd] } nodes := by
  refine ⟨h.locked.serves rfl rfl (by rw [hpc]; rfl),
    h.queue.serves rfl rfl rfl ?_ (by rw [hpc]; rfl) (fun _ _ ha => by cases ha), ?_,
    h.awake.serves rfl (by rw [hpc]; rintro (hg | hg) <;> cases hg)⟩
  · rw [← h.queue.size]
    congr 3
    funext t
    cases t with
    | acceptor => rw [Server.uncounted, Server.uncounted, hpc]; rfl
    | worker i => rfl
  obtain ⟨horder, hserved, hnodup, hlive, hhanded⟩ := h.descriptors
  have hbefore : s.waiting nodes = nodes.map Prod.snd := by
    rw [Server.waiting, hpc]
    exact List.append_nil _
  simp only [hbefore] at horder hnodup hlive hhanded
  refine ⟨?_, hserved, ?_, fun fd' hfd' => ?_, fun i fd' hfd' => ?_⟩
  · change s.accepted ++ [fd] = s.taken.map Prod.snd ++ (nodes.map Prod.snd ++ [fd])
    rw [horder, List.append_assoc]
  · change (nodes.map Prod.snd ++ [fd]).Nodup
    rw [← List.concat_eq_append]
    exact hnodup.concat fun hmem => hnew (hlive fd hmem).2
  · change fd' ∈ nodes.map Prod.snd ++ [fd] at hfd'
    rcases List.mem_append.1 hfd' with hmem | hmem
    · exact ⟨(hlive fd' hmem).1, Finset.mem_insert_of_mem (hlive fd' hmem).2⟩
    · rw [List.mem_singleton] at hmem
      rw [hmem]
      exact ⟨hpos, Finset.mem_insert_self ..⟩
  · obtain ⟨hopen, hout, huniq⟩ := hhanded i fd' hfd'
    refine ⟨Finset.mem_insert_of_mem hopen, fun hmem => ?_, huniq⟩
    change fd' ∈ nodes.map Prod.snd ++ [fd] at hmem
    rcases List.mem_append.1 hmem with hmem | hmem
    · exact hout hmem
    · rw [List.mem_singleton] at hmem
      exact hnew (hmem ▸ hopen)

/-- A descriptor is opened that no thread has. -/
theorem opens (h : ServerInv s nodes) (fd : Int32) :
    ServerInv { s with opened := insert fd s.opened } nodes := by
  refine ⟨h.locked.same rfl fun _ => rfl, h.queue.same rfl rfl h.queue.size (fun _ => rfl)
    h.queue.sees fun _ _ ha => ha, ⟨h.descriptors.order, h.descriptors.served, h.descriptors.nodup,
      fun fd' hfd' => ?_, fun i fd' hfd' => ?_⟩, h.awake⟩
  · exact (h.descriptors.live fd' hfd').imp_right Finset.mem_insert_of_mem
  · exact (h.descriptors.handed i fd' hfd').imp_left Finset.mem_insert_of_mem

/-- The acceptor's step goes through, whatever it is. -/
theorem acceptor (h : ServerInv s nodes) : ∃ s' nodes', s.acceptorStep = some s' ∧
    ServerInv s' nodes' ∧ QueueMove s s' nodes nodes' := by
  unfold Server.acceptorStep
  rcases hpc : s.acceptor with _ | _ | fd | fd | ⟨fd, a⟩ | _ | _ | _ | _ | _
  · refine ⟨_, nodes, rfl, ?_, .none rfl⟩
    exact h.serve _ (by rw [hpc]; rfl) (by split <;> rfl) (by rw [hpc]; split <;> rfl)
  · exact ⟨s, nodes, rfl, h, .none rfl⟩
  · refine ⟨_, nodes, rfl, ?_, .none (by split <;> rfl)⟩
    split
    · exact h.acquireAcceptor ‹_› hpc
    · exact h
  · exact ⟨s, nodes, rfl, h, .none rfl⟩
  · obtain ⟨head, heap, happend, ha, hfresh, h'⟩ := h.append hpc
    exact ⟨_, _, by simp only [happend, Option.bind_eq_bind, Option.bind_some]; rfl, h',
      .push a fd ha hfresh rfl⟩
  · exact ⟨_, nodes, rfl, h.grow hpc, .none rfl⟩
  · exact ⟨_, nodes, rfl, h.broadcast hpc, .none rfl⟩
  · exact ⟨_, nodes, rfl, h.releaseAcceptor hpc, .none rfl⟩
  · exact ⟨_, nodes, rfl, h.serve .done (by rw [hpc]; rfl) rfl (by rw [hpc]; rfl), .none rfl⟩
  · exact ⟨s, nodes, rfl, h, .none rfl⟩

theorem init : ServerInv .init [] where
  locked t := by cases t <;> exact iff_of_false (fun h => by cases h) fun h => by cases h
  queue :=
    { linked := rfl
      distinct := .nil
      size := rfl
      sees := fun _ => trivial
      own := fun t a ha => by cases t <;> cases ha
      new := fun fd a ha => by cases ha
      allocated := fun a ha => by cases ha }
  descriptors :=
    { order := rfl
      served := fun _ => rfl
      nodup := .nil
      live := fun fd hfd => by cases hfd
      handed := fun i fd hfd => by cases hfd }
  awake i hi := by cases hi

theorem step (h : ServerInv s nodes) (maxThreads : ℕ) (e : ServerEvent) :
    ∃ s' nodes', s.step maxThreads e = some s' ∧ ServerInv s' nodes' ∧
      QueueMove s s' nodes nodes' := by
  cases e with
  | acceptor => exact h.acceptor
  | accept fd =>
    refine ⟨_, nodes, rfl, ?_⟩
    unfold Server.acceptReturns
    split
    · rename_i hpc
      split_ifs with hopen hpos hzero
      · exact ⟨h, .none rfl⟩
      · exact ⟨h.accept hpc hopen hpos, .none rfl⟩
      · exact ⟨(h.serve .loop (by rw [hpc]; rfl) rfl (by rw [hpc]; rfl)).opens 0, .none rfl⟩
      · exact ⟨h.serve .loop (by rw [hpc]; rfl) rfl (by rw [hpc]; rfl), .none rfl⟩
    · exact ⟨h, .none rfl⟩
  | calloc a =>
    refine ⟨_, nodes, rfl, ?_⟩
    unfold Server.callocReturns
    split
    · rename_i fd hpc
      split_ifs with hbad
      · exact ⟨h, .none rfl⟩
      · rw [not_or, Option.not_isSome_iff_eq_none] at hbad
        exact ⟨h.calloc hpc hbad.1 hbad.2, .none rfl⟩
    · exact ⟨h, .none rfl⟩
  | worker i =>
    simp only [Server.step]
    split
    · exact h.worker i
    · exact ⟨s, nodes, rfl, h, .none rfl⟩
  | wakeup i =>
    have hwoken := (s.worker i).woken_same nodes
    exact ⟨_, nodes, rfl, h.goto hwoken.inside hwoken.node hwoken.hand hwoken.uncounted
      (hwoken.sees (h.queue.sees i)) hwoken.awake, .none rfl⟩
  | stop =>
    exact ⟨_, nodes, rfl, ⟨h.locked.same rfl fun _ => rfl, h.queue.same rfl rfl h.queue.size
      (fun _ => rfl) h.queue.sees fun _ _ ha => ha,
      h.descriptors.same rfl rfl rfl rfl rfl fun _ => rfl, h.awake⟩, .none rfl⟩

theorem run (maxThreads : ℕ) : ∀ (events : List ServerEvent) {s : Server} {nodes : List (ℕ × Int32)},
    ServerInv s nodes →
    ∃ s' nodes', runOf (Server.step maxThreads) s events = some s' ∧ ServerInv s' nodes'
  | [], s, nodes, h => ⟨s, nodes, rfl, h⟩
  | e :: events, s, nodes, h => by
    obtain ⟨s₁, nodes₁, hstep, h₁, -⟩ := h.step maxThreads e
    obtain ⟨s', nodes', hrun, h'⟩ := ServerInv.run maxThreads events h₁
    exact ⟨s', nodes', by rw [runOf, hstep]; exact hrun, h'⟩

end ServerInv

/-! ## Connections -/

/-- Where the connections are: those accepted have been handed to workers or are in the queue, in the
order they came, and each worker has closed those it took, but for the one it has. -/
structure Delivered (s : Server) : Prop where
  queue : ∃ nodes, Chain s.heap s.head nodes ∧
    s.accepted = s.taken.map Prod.snd ++ nodes.map Prod.snd ++ s.acceptor.hand.toList ∧
    ∀ a, (s.heap a).isSome → a ∈ nodes.map Prod.fst ∨ ∃ t, s.node t = some a
  served : ∀ i, jobsOf s.taken i = jobsOf s.closed i ++ (s.worker i).hand.toList
  handed : ∀ i fd, (s.worker i).hand = some fd → fd ∈ s.opened ∧
    ∀ j, (s.worker j).hand = some fd → j = i

/-- However the threads are scheduled, no pointer goes wrong, no connection is lost or handed out
twice, and each is closed once, by the worker that handled it. -/
theorem server_run_delivered (maxThreads : ℕ) (events : List ServerEvent) :
    ∃ s, runOf (Server.step maxThreads) .init events = some s ∧ Delivered s := by
  obtain ⟨s, nodes, hrun, h⟩ := ServerInv.init.run maxThreads events
  refine ⟨s, hrun, ⟨nodes, h.queue.linked.chain, ?_, h.queue.allocated⟩, h.descriptors.served,
    fun i fd hfd => ?_⟩
  · rw [h.descriptors.order, Server.waiting, List.append_assoc]
  · obtain ⟨hopen, -, huniq⟩ := h.descriptors.handed i fd hfd
    exact ⟨hopen, huniq⟩

/-! ## The queue at once -/

/-- A queue whose pushes and pops happen at once stands where the server's does. -/
structure Follows (s : Server) (q : Wq Int32) (nodes : List (ℕ × Int32)) : Prop where
  inv : ServerInv s nodes
  queue : WqInv q nodes
  popped : q.popped = s.taken.map Prod.snd

/-- A step of the server is a push, a pop or no step of such a queue. -/
theorem Follows.step {q : Wq Int32} (h : Follows s q nodes) (maxThreads : ℕ) (e : ServerEvent) :
    ∃ s' nodes' ops q', s.step maxThreads e = some s' ∧ Legal q ops ∧ wqRun q ops = some q' ∧
      Follows s' q' nodes' := by
  obtain ⟨s', nodes', hstep, hinv, hmove⟩ := h.inv.step maxThreads e
  refine ⟨s', nodes', ?_⟩
  cases hmove with
  | none htaken => exact ⟨[], q, hstep, trivial, rfl, hinv, h.queue, by rw [htaken, h.popped]⟩
  | push a fd ha hfresh htaken =>
    have hfree : q.heap a = none := by
      by_contra hsome
      exact hfresh (h.queue.allocated a (Option.isSome_iff_ne_none.2 hsome))
    obtain ⟨q', hpush, hq'⟩ := h.queue.push fd ha hfree
    have hpopped : q'.popped = q.popped := by
      simp only [wqPush, Option.bind_eq_bind, Option.bind_eq_some_iff] at hpush
      obtain ⟨appended, -, hpush⟩ := hpush
      cases hpush
      rfl
    exact ⟨[.push fd a], q', hstep, ⟨⟨ha, hfree⟩, fun _ _ => trivial⟩, by
      rw [wqRun_cons, wqStep, hpush]; rfl, hinv, hq', by rw [hpopped, h.popped, htaken]⟩
  | pop i a x _ hnodes htaken =>
    have hlt := h.inv.descriptors.length_lt
    subst hnodes
    have hsize : q.size ≠ 0 := by
      rw [h.queue.size, (int_eq_iff _).2 hlt, List.length_cons]
      omega
    obtain ⟨a', x', nodes'', q', hcons, hpop, hq'⟩ := h.queue.pop hsize
    rw [List.cons.injEq] at hcons
    obtain ⟨-, rfl⟩ := hcons
    have hpopped : q'.popped = q.popped ++ [x] := by
      have hbefore := h.queue.items
      have hafter := hq'.items
      have hpushed : q'.pushed = q.pushed := by
        simp only [wqPop, Option.bind_eq_bind, Option.bind_eq_some_iff] at hpop
        obtain ⟨node, -, deleted, -, hpop⟩ := hpop
        cases hpop
        rfl
      rw [hpushed, ← hbefore, List.map_cons, ← List.singleton_append, ← List.append_assoc,
        List.append_cancel_right_eq] at hafter
      exact hafter
    exact ⟨[.pop], q', hstep, ⟨hsize, fun _ _ => trivial⟩, by
      rw [wqRun_cons, wqStep, hpop]; rfl, hinv, hq', by
      rw [hpopped, h.popped, htaken, List.map_append]; rfl⟩

theorem Follows.run (maxThreads : ℕ) : ∀ (events : List ServerEvent) {s : Server} {q : Wq Int32}
    {nodes : List (ℕ × Int32)}, Follows s q nodes →
    ∃ s' nodes' ops q', runOf (Server.step maxThreads) s events = some s' ∧ Legal q ops ∧
      wqRun q ops = some q' ∧ Follows s' q' nodes'
  | [], s, q, nodes, h => ⟨s, nodes, [], q, rfl, trivial, rfl, h⟩
  | e :: events, s, q, nodes, h => by
    obtain ⟨s₁, nodes₁, ops₁, q₁, hstep, hlegal₁, hrun₁, h₁⟩ := h.step maxThreads e
    obtain ⟨s', nodes', ops, q', hrun, hlegal, hrun', h'⟩ := h₁.run maxThreads events
    refine ⟨s', nodes', ops₁ ++ ops, q', by rw [runOf, hstep]; exact hrun,
      (legal_append ops₁ ops).2 ⟨hlegal₁, fun q₂ hq₂ => ?_⟩, ?_, h'⟩
    · rw [hrun₁, Option.some.injEq] at hq₂
      rwa [← hq₂]
    · rw [wqRun, List.foldlM_append]
      exact (congrArg (· >>= fun q => wqRun q ops) hrun₁).trans hrun'

/-- Statement by statement and thread by thread, the server's queue does what one does whose pushes
and pops happen at once: the same nodes stay in it, and the same items have come out. -/
theorem server_refines_wq (maxThreads : ℕ) (events : List ServerEvent) :
    ∃ s ops q nodes, runOf (Server.step maxThreads) .init events = some s ∧ Legal wqInit ops ∧
      wqRun wqInit ops = some q ∧ Chain s.heap s.head nodes ∧ Chain q.heap q.head nodes ∧
      s.taken.map Prod.snd = q.popped ∧ s.accepted = q.pushed ++ s.acceptor.hand.toList := by
  have hinit : Follows .init wqInit [] := ⟨.init, wqInv_init, rfl⟩
  obtain ⟨s, nodes, ops, q, hrun, hlegal, hops, h⟩ := hinit.run maxThreads events
  refine ⟨s, ops, q, nodes, hrun, hlegal, hops, h.inv.queue.linked.chain, h.queue.linked.chain,
    h.popped.symm, ?_⟩
  rw [h.inv.descriptors.order, ← h.queue.items, h.popped, Server.waiting, List.append_assoc]

end Cs162
