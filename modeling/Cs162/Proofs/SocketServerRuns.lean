import Cs162.Proofs.SocketServer

/-!
# What becomes of the workers

While a connection is queued, a worker that is in `wq_pop` never sleeps for good: whatever the
threads were doing, some of them can go on until the next connection is handed out, with no help
from new connections or from wakeups that nobody sent (`server_progress`).

`server_stop` wakes nobody. Each worker handles one more connection at most, and one that is in
`wq_pop` when there are none left stays there for ever (`server_stop_bound`, `server_stop_stuck`).
-/

namespace Cs162

open CLib

/-- In `wq_pop`, with nothing taken off the queue yet. -/
def WorkerPc.popping : WorkerPc → Bool
  | lock | test | wait | wake | item | shrink _ _ | unlink _ _ => true
  | _ => false

/-- A step of a thread that needs nothing from outside. -/
def ServerEvent.internal : ServerEvent → Bool
  | acceptor | calloc _ | worker _ => true
  | accept _ | wakeup _ | stop => false

variable {s s' : Server} {nodes : List (ℕ × Int32)} {i j n : ℕ}

/-! ## Progress -/

theorem workerStep_of_ne (h : s.workerStep i = some s') (hj : j ≠ i) : s'.worker j = s.worker j := by
  have hgoto : ∀ pc, (s.goto i pc).worker j = s.worker j := fun pc => Function.update_of_ne hj ..
  unfold Server.workerStep at h
  split at h
  case h_2 | h_3 | h_4 =>
    cases h
    split
    · exact hgoto _
    · first | rfl | exact hgoto _
  case h_6 | h_8 =>
    simp only [Option.pure_def, Option.bind_eq_bind, Option.bind_eq_some_iff] at h
    obtain ⟨_, -, h⟩ := h
    cases h
    exact hgoto _
  case h_10 =>
    split at h
    · cases h
      exact hgoto _
    · cases h
  all_goals
    cases h
    first | rfl | exact hgoto _

/-- Workers that were not created do nothing. -/
def Spare (n : ℕ) (s : Server) : Prop := ∀ j, n ≤ j → s.worker j = .loop

theorem acceptorStep_worker (h : s.acceptorStep = some s') :
    s'.worker j = s.worker j ∨ s'.worker j = (s.worker j).woken := by
  unfold Server.acceptorStep at h
  split at h
  case h_3 =>
    simp only [Option.pure_def, Option.bind_eq_bind, Option.bind_eq_some_iff] at h
    obtain ⟨_, -, h⟩ := h
    cases h
    exact .inl rfl
  case h_2 =>
    cases h
    split <;> exact .inl rfl
  case h_5 =>
    cases h
    exact .inr rfl
  all_goals
    cases h
    exact .inl rfl

/-- A worker moves by its own step only, but for being woken up. -/
theorem step_worker {e : ServerEvent} (h : s.step n e = some s') (j : ℕ) :
    s'.worker j = s.worker j ∨ s'.worker j = (s.worker j).woken ∨ e = .worker j ∧ j < n := by
  cases e with
  | acceptor => exact (acceptorStep_worker h).imp_right .inl
  | accept fd =>
    cases h
    unfold Server.acceptReturns
    split
    · split_ifs <;> exact .inl rfl
    · exact .inl rfl
  | calloc a =>
    cases h
    unfold Server.callocReturns
    split
    · split_ifs <;> exact .inl rfl
    · exact .inl rfl
  | worker i =>
    simp only [Server.step] at h
    split at h
    · rename_i hi
      by_cases hj : j = i
      · exact .inr (.inr ⟨by rw [hj], hj ▸ hi⟩)
      · exact .inl (workerStep_of_ne h hj)
    · cases h
      exact .inl rfl
  | wakeup i =>
    cases h
    by_cases hj : j = i
    · rw [hj]
      exact .inr (.inl (Function.update_self ..))
    · exact .inl (Function.update_of_ne hj ..)
  | stop =>
    cases h
    exact .inl rfl

theorem Spare.step {e : ServerEvent} (hs : Spare n s) (h : s.step n e = some s') : Spare n s' := by
  intro j hj
  rcases step_worker h j with hw | hw | ⟨-, hlt⟩
  · rw [hw, hs j hj]
  · rw [hw, hs j hj]
    rfl
  · omega

/-- By their own steps the threads can come to hand out one more connection. -/
def HandsOut (n : ℕ) (s : Server) : Prop :=
  ∃ events s' e, (∀ e ∈ events, ServerEvent.internal e = true) ∧
    runOf (Server.step n) s events = some s' ∧ s'.taken = s.taken ++ [e]

theorem HandsOut.step (h : HandsOut n s') {e : ServerEvent} (he : e.internal = true)
    (hstep : s.step n e = some s') (htaken : s'.taken = s.taken) : HandsOut n s := by
  obtain ⟨events, s'', job, hevents, hrun, hjob⟩ := h
  refine ⟨e :: events, s'', job, List.forall_mem_cons.2 ⟨he, hevents⟩, ?_, by rw [hjob, htaken]⟩
  rw [runOf, hstep]
  exact hrun

section Progress

variable (h : ServerInv s nodes) (hj : j < n)

include h hj

theorem handsOut_unlink {a : ℕ} {x : Int32} (hpc : s.worker j = .unlink a x) : HandsOut n s := by
  obtain ⟨head, heap, nodes', hdelete, -, -⟩ := h.unlink hpc
  have hstep : s.step n (.worker j) = some { s.goto j (.unlock a x) with
      head := head, heap := heap, taken := s.taken ++ [(j, x)] } := by
    simp only [Server.step, if_pos hj, Server.workerStep, hpc, hdelete, Option.bind_eq_bind,
      Option.bind_some]
    rfl
  exact ⟨[.worker j], _, (j, x), by simp [ServerEvent.internal], by rw [runOf, hstep]; rfl, rfl⟩

theorem handsOut_shrink {a : ℕ} {x : Int32} (hpc : s.worker j = .shrink a x) : HandsOut n s := by
  have hnext := handsOut_unlink (h.shrink hpc) hj (Function.update_self ..)
  refine hnext.step (e := .worker j) rfl ?_ rfl
  simp only [Server.step, if_pos hj, Server.workerStep, hpc]

theorem handsOut_item (hpc : s.worker j = .item) : HandsOut n s := by
  obtain ⟨s', nodes', hstep, h', -⟩ := h.worker j
  have hs := hstep
  simp only [Server.workerStep, hpc, Option.pure_def, Option.bind_eq_bind, Option.bind_eq_some_iff,
    Option.some.injEq] at hs
  obtain ⟨node, -, rfl⟩ := hs
  refine (handsOut_shrink h' hj (Function.update_self ..)).step (e := .worker j) rfl ?_ rfl
  simp only [Server.step, if_pos hj, hstep]

theorem handsOut_test (hpc : s.worker j = .test) (hne : nodes ≠ []) : HandsOut n s := by
  have hsize := h.size_eq (i := j) (by rw [hpc]; rfl) (by rw [hpc]; rfl)
  have hpos : s.size ≠ 0 := fun hzero => hne (List.length_eq_zero_iff.1 (by omega))
  have h' : ServerInv (s.goto j .item) nodes := h.goto (by rw [hpc]; rfl) (by rw [hpc]; rfl)
    (by rw [hpc]; rfl) (by rw [hpc]; rfl) hne (by simp)
  refine (handsOut_item h' hj (Function.update_self ..)).step (e := .worker j) rfl ?_ rfl
  simp only [Server.step, if_pos hj, Server.workerStep, hpc, if_neg hpos]

/-- Nobody is inside: the worker does not sleep, so it can take the mutex. -/
theorem handsOut_free (hfree : s.mutex = none) (hpop : (s.worker j).popping = true)
    (hne : nodes ≠ []) : HandsOut n s := by
  have hout : (s.worker j).inside = false := by
    rw [Bool.eq_false_iff]
    intro hin
    have := (h.locked (.worker j)).2 hin
    rw [hfree] at this
    cases this
  have hacceptor : s.acceptor.inside = false := by
    rw [Bool.eq_false_iff]
    intro hin
    have := (h.locked .acceptor).2 hin
    rw [hfree] at this
    cases this
  have hpc : s.worker j = .lock ∨ s.worker j = .wake := by
    have hawake := h.awake j
    cases hw : s.worker j with
    | lock => exact .inl rfl
    | wake => exact .inr rfl
    | wait =>
      rcases hawake hw hne with hg | hg <;> rw [hg] at hacceptor <;> cases hacceptor
    | _ =>
      rw [hw] at hpop hout
      revert hpop hout
      simp [WorkerPc.popping, WorkerPc.inside]
  refine (handsOut_test (h.acquire hfree hpc) hj (Function.update_self ..) hne).step
    (e := .worker j) rfl ?_ rfl
  rcases hpc with hpc | hpc <;>
    simp only [Server.step, if_pos hj, Server.workerStep, hpc, if_pos hfree]

end Progress

/-- Some address is free: only the nodes of the queue and of the threads are in use. -/
theorem exists_free (h : ServerInv s nodes) (hspare : Spare n s) : ∃ a ≠ 0, s.heap a = none := by
  obtain ⟨a, ha⟩ := Infinite.exists_notMem_finset (insert 0 ((nodes.map Prod.fst).toFinset ∪
    (s.acceptor.node.toFinset ∪ (Finset.range n).biUnion fun i => (s.worker i).node.toFinset)))
  simp only [Finset.mem_insert, Finset.mem_union, List.mem_toFinset, Option.mem_toFinset,
    Finset.mem_biUnion, Finset.mem_range, not_or, not_exists, not_and] at ha
  obtain ⟨ha0, hnodes, hacceptor, hworkers⟩ := ha
  refine ⟨a, ha0, ?_⟩
  by_contra hsome
  rcases h.queue.allocated a (Option.isSome_iff_ne_none.2 hsome) with hmem | ⟨t, ht⟩
  · exact hnodes hmem
  · cases t with
    | acceptor => exact hacceptor ht
    | worker i =>
      by_cases hi : i < n
      · exact hworkers i hi ht
      · rw [Server.node, hspare i (by omega)] at ht
        cases ht

section Acceptor

variable (h : ServerInv s nodes) (hj : j < n) (hpop : (s.worker j).popping = true)

include h hj hpop

theorem handsOut_acceptorUnlock (hne : nodes ≠ []) (hpc : s.acceptor = .unlock) : HandsOut n s := by
  refine (handsOut_free (h.releaseAcceptor hpc) hj rfl hpop hne).step (e := .acceptor) rfl ?_ rfl
  simp only [Server.step, Server.acceptorStep, hpc]

theorem handsOut_broadcast (hne : nodes ≠ []) (hpc : s.acceptor = .broadcast) : HandsOut n s := by
  have hwoken : (s.worker j).woken.popping = true := by
    cases hw : s.worker j <;> rw [hw] at hpop <;> first | rfl | cases hpop
  refine (handsOut_acceptorUnlock (h.broadcast hpc) hj hwoken hne rfl).step (e := .acceptor) rfl ?_ rfl
  simp only [Server.step, Server.acceptorStep, hpc]

theorem handsOut_grow (hne : nodes ≠ []) (hpc : s.acceptor = .grow) : HandsOut n s := by
  refine (handsOut_broadcast (h.grow hpc) hj hpop hne rfl).step (e := .acceptor) rfl ?_ rfl
  simp only [Server.step, Server.acceptorStep, hpc]

theorem handsOut_append {fd : Int32} {a : ℕ} (hpc : s.acceptor = .append fd a) : HandsOut n s := by
  obtain ⟨head, heap, happend, -, -, h'⟩ := h.append hpc
  refine (handsOut_grow h' hj hpop (by simp) rfl).step (e := .acceptor) rfl ?_ rfl
  simp only [Server.step, Server.acceptorStep, hpc, happend, Option.bind_eq_bind, Option.bind_some]
  rfl

theorem handsOut_alloc {fd : Int32} (hpc : s.acceptor = .alloc fd) (hspare : Spare n s) :
    HandsOut n s := by
  obtain ⟨a, ha, hfree⟩ := exists_free h hspare
  refine (handsOut_append (h.calloc hpc ha hfree) hj hpop rfl).step (e := .calloc a) rfl ?_ rfl
  simp only [Server.step, Server.callocReturns, hpc, hfree, ha, Option.isSome_none,
    Bool.false_eq_true, or_self, if_false]

/-- While a connection is queued, a worker in `wq_pop` need not wait for anything from outside. -/
theorem handsOut (hne : nodes ≠ []) (hspare : Spare n s) : HandsOut n s := by
  rcases hmutex : s.mutex with _ | t
  · exact handsOut_free h hj hmutex hpop hne
  have hin := (h.locked t).1 hmutex
  cases t with
  | acceptor =>
    cases hpc : s.acceptor with
    | alloc fd => exact handsOut_alloc h hj hpop hpc hspare
    | append fd a => exact handsOut_append h hj hpop hpc
    | grow => exact handsOut_grow h hj hpop hne hpc
    | broadcast => exact handsOut_broadcast h hj hpop hne hpc
    | unlock => exact handsOut_acceptorUnlock h hj hpop hne hpc
    | _ =>
      rw [Server.inside, hpc] at hin
      cases hin
  | worker i =>
    have hi : i < n := by
      by_contra hge
      rw [Server.inside, hspare i (by omega)] at hin
      cases hin
    cases hpc : s.worker i with
    | test => exact handsOut_test h hi hpc hne
    | item => exact handsOut_item h hi hpc
    | shrink a x => exact handsOut_shrink h hi hpc
    | unlink a x => exact handsOut_unlink h hi hpc
    | unlock a x =>
      have hji : j ≠ i := by
        rintro rfl
        rw [hpc] at hpop
        cases hpop
      have h' : ServerInv { s.goto i (.free a x) with mutex := none } nodes :=
        h.release (by rw [hpc]; rfl) rfl (by rw [hpc]; rfl) (by rw [hpc]; rfl) (by rw [hpc]; rfl)
          fun hw => by cases hw
      refine (handsOut_free h' hj rfl ?_ hne).step (e := .worker i) rfl ?_ rfl
      · change (Function.update s.worker i _ j).popping = true
        rw [Function.update_of_ne hji]
        exact hpop
      · simp only [Server.step, if_pos hi, Server.workerStep, hpc]
    | _ =>
      rw [Server.inside, hpc] at hin
      cases hin

end Acceptor

theorem ServerInv.runSpare (n : ℕ) : ∀ (events : List ServerEvent) {s s' : Server}
    {nodes : List (ℕ × Int32)}, ServerInv s nodes → Spare n s →
    runOf (Server.step n) s events = some s' → (∃ nodes', ServerInv s' nodes') ∧ Spare n s'
  | [], s, s', nodes, h, hspare, hrun => by
    cases hrun
    exact ⟨⟨nodes, h⟩, hspare⟩
  | e :: events, s, s', nodes, h, hspare, hrun => by
    obtain ⟨s₁, nodes₁, hstep, h₁, -⟩ := h.step n e
    rw [runOf, hstep] at hrun
    exact ServerInv.runSpare n events h₁ (hspare.step hstep) hrun

/-- In every state of every run, while a connection is queued and a worker is in `wq_pop`, the
threads can go on by themselves until a connection is handed out. -/
theorem server_progress (maxThreads : ℕ) {events : List ServerEvent} {s : Server} {i : ℕ}
    (hrun : runOf (Server.step maxThreads) .init events = some s) (hi : i < maxThreads)
    (hpop : (s.worker i).popping = true) (hqueue : s.head ≠ 0) :
    ∃ more s' e, (∀ e ∈ more, ServerEvent.internal e = true) ∧
      runOf (Server.step maxThreads) s more = some s' ∧ s'.taken = s.taken ++ [e] := by
  obtain ⟨⟨nodes, h⟩, hspare⟩ :=
    ServerInv.init.runSpare maxThreads events (fun _ _ => rfl) hrun
  refine handsOut h hi hpop ?_ hspare
  rintro rfl
  exact hqueue h.queue.linked

/-- A worker that sleeps while a connection is put into the queue, halfway. -/
def sleepingEvents : List ServerEvent :=
  [.worker 0, .worker 0, .worker 0, .acceptor, .accept 5, .acceptor, .calloc 1, .acceptor]

theorem server_progress_sleeping : ∃ s, runOf (Server.step 1) .init sleepingEvents = some s ∧
    ∃ more s' e, (∀ e ∈ more, ServerEvent.internal e = true) ∧
      runOf (Server.step 1) s more = some s' ∧ s'.taken = s.taken ++ [e] := by
  have hseen : (runOf (Server.step 1) .init sleepingEvents).map
      (fun s => ((s.worker 0).popping, s.head)) = some (true, 1) := rfl
  obtain ⟨s, hrun, hs⟩ := Option.map_eq_some_iff.1 hseen
  rw [Prod.mk.injEq] at hs
  exact ⟨s, hrun, server_progress 1 hrun Nat.one_pos hs.1 (by rw [hs.2]; exact Nat.one_ne_zero)⟩

/-! ## After `server_stop` -/

/-- The acceptor may yet accept a connection before it looks at `listening` again. -/
def AcceptorPc.accepting : AcceptorPc → Bool
  | accept => true
  | _ => false

/-- In `wq_pop`, before it has seen an item. -/
def WorkerPc.asking : WorkerPc → Bool
  | lock | test | wait | wake => true
  | _ => false

/-- The connections a worker has taken, and the one it may yet take. -/
def Server.workerBound (s : Server) (i : ℕ) : ℕ :=
  (jobsOf s.taken i).length + (s.worker i).popping.toNat

/-- The connections that were accepted, and the one that may yet be. -/
def Server.acceptorBound (s : Server) : ℕ := s.accepted.length + s.acceptor.accepting.toNat

theorem workerStep_frame (h : s.workerStep i = some s') :
    s'.listening = s.listening ∧ s'.accepted = s.accepted ∧ s'.acceptor = s.acceptor := by
  unfold Server.workerStep at h
  split at h
  case h_2 | h_3 | h_4 =>
    cases h
    split <;> exact ⟨rfl, rfl, rfl⟩
  case h_6 | h_8 =>
    simp only [Option.pure_def, Option.bind_eq_bind, Option.bind_eq_some_iff] at h
    obtain ⟨_, -, h⟩ := h
    cases h
    exact ⟨rfl, rfl, rfl⟩
  case h_10 =>
    split at h
    · cases h
      exact ⟨rfl, rfl, rfl⟩
    · cases h
  all_goals
    cases h
    exact ⟨rfl, rfl, rfl⟩

/-- A worker takes a connection at the end of `wq_pop` only, and comes there from its loop only. -/
theorem workerStep_taken (h : s.workerStep i = some s') :
    s'.taken = s.taken ∧ ((s'.worker i).popping = true →
        (s.worker i).popping = true ∨ s.listening = true) ∨
      ∃ a x, s.worker i = .unlink a x ∧ s'.worker i = .unlock a x ∧ s'.taken = s.taken ++ [(i, x)] := by
  have hgoto : ∀ pc, (s.goto i pc).worker i = pc := fun pc => Function.update_self ..
  unfold Server.workerStep at h
  split at h
  case h_1 =>
    cases h
    refine .inl ⟨rfl, fun hp => .inr ?_⟩
    rw [hgoto] at hp
    split at hp
    · assumption
    · cases hp
  case h_8 a x hpc =>
    simp only [Option.pure_def, Option.bind_eq_bind, Option.bind_eq_some_iff] at h
    obtain ⟨_, -, h⟩ := h
    cases h
    exact .inr ⟨a, x, hpc, hgoto _, rfl⟩
  case h_2 hpc | h_3 hpc | h_4 hpc =>
    cases h
    refine .inl ⟨by split <;> rfl, fun _ => .inl ?_⟩
    rw [hpc]
    rfl
  case h_6 hpc =>
    simp only [Option.pure_def, Option.bind_eq_bind, Option.bind_eq_some_iff] at h
    obtain ⟨_, -, h⟩ := h
    cases h
    refine .inl ⟨rfl, fun _ => .inl ?_⟩
    rw [hpc]
    rfl
  case h_5 | h_13 =>
    cases h
    exact .inl ⟨rfl, .inl⟩
  case h_7 hpc =>
    cases h
    refine .inl ⟨rfl, fun _ => .inl ?_⟩
    rw [hpc]
    rfl
  -- What follows is outside `wq_pop`.
  case h_10 =>
    split at h
    · cases h
      exact .inl ⟨rfl, fun hp => by cases (congrArg WorkerPc.popping (hgoto _)).symm.trans hp⟩
    · cases h
  all_goals
    cases h
    exact .inl ⟨rfl, fun hp => by cases (congrArg WorkerPc.popping (hgoto _)).symm.trans hp⟩

theorem popping_woken (pc : WorkerPc) : pc.woken.popping = pc.popping := by cases pc <;> rfl

theorem asking_woken (pc : WorkerPc) : pc.woken.asking = pc.asking := by cases pc <;> rfl

theorem acceptorStep_frame (h : s.acceptorStep = some s') :
    s'.listening = s.listening ∧ s'.accepted = s.accepted ∧ s'.taken = s.taken ∧
      (s'.acceptor.accepting = true → s.acceptor.accepting = true ∨ s.listening = true) := by
  unfold Server.acceptorStep at h
  split at h
  case h_1 =>
    cases h
    refine ⟨rfl, rfl, rfl, fun ha => .inr ?_⟩
    change (if s.listening then AcceptorPc.accept else .shutdown).accepting = true at ha
    split at ha
    · assumption
    · cases ha
  case h_2 hpc =>
    cases h
    split
    · exact ⟨rfl, rfl, rfl, fun ha => by cases ha⟩
    · exact ⟨rfl, rfl, rfl, .inl⟩
  case h_3 =>
    simp only [Option.pure_def, Option.bind_eq_bind, Option.bind_eq_some_iff] at h
    obtain ⟨_, -, h⟩ := h
    cases h
    exact ⟨rfl, rfl, rfl, fun ha => by cases ha⟩
  case h_4 | h_5 | h_6 | h_7 =>
    cases h
    exact ⟨rfl, rfl, rfl, fun ha => by cases ha⟩
  all_goals
    cases h
    exact ⟨rfl, rfl, rfl, .inl⟩

/-- The server is stopped, and has no more to do than so much. -/
structure Stopped (s s' : Server) : Prop where
  listening : s'.listening = false
  worker : ∀ i, s'.workerBound i ≤ s.workerBound i
  acceptor : s'.acceptorBound ≤ s.acceptorBound

theorem toNat_mono {a b : Bool} (h : a = true → b = true) : a.toNat ≤ b.toNat := by
  cases a with
  | false => exact Nat.zero_le _
  | true => rw [h rfl]

theorem workerBound_le (htaken : s'.taken = s.taken)
    (hpop : (s'.worker i).popping = true → (s.worker i).popping = true) :
    s'.workerBound i ≤ s.workerBound i := by
  rw [Server.workerBound, Server.workerBound, htaken]
  exact Nat.add_le_add_left (toNat_mono hpop) _

theorem acceptorBound_le (haccepted : s'.accepted = s.accepted)
    (hacc : s'.acceptor.accepting = true → s.acceptor.accepting = true) :
    s'.acceptorBound ≤ s.acceptorBound := by
  rw [Server.acceptorBound, Server.acceptorBound, haccepted]
  exact Nat.add_le_add_left (toNat_mono hacc) _

theorem workerStep_stopped (hl : s.listening = false) (h : s.workerStep i = some s') :
    Stopped s s' := by
  obtain ⟨hlistening, haccepted, hacceptor⟩ := workerStep_frame h
  refine ⟨hlistening.trans hl, fun j => ?_, acceptorBound_le haccepted (by rw [hacceptor]; exact id)⟩
  rcases workerStep_taken h with ⟨htaken, hpop⟩ | ⟨a, x, hpc, hpc', htaken⟩
  · refine workerBound_le htaken ?_
    by_cases hj : j = i
    · rw [hj]
      intro hp
      refine (hpop hp).resolve_right ?_
      rw [hl]
      exact Bool.false_ne_true
    · rw [workerStep_of_ne h hj]
      exact id
  · rw [Server.workerBound, Server.workerBound, htaken, jobsOf_snoc, List.length_append]
    by_cases hj : j = i
    · rw [hj, if_pos rfl, hpc, hpc']
      exact Nat.le_refl _
    · rw [if_neg fun hi => hj hi.symm, workerStep_of_ne h hj]
      exact Nat.le_refl _

theorem step_stopped {e : ServerEvent} (hl : s.listening = false) (h : s.step n e = some s') :
    Stopped s s' := by
  cases e with
  | acceptor =>
    obtain ⟨hlistening, haccepted, htaken, hacc⟩ := acceptorStep_frame h
    refine ⟨hlistening.trans hl, fun j => workerBound_le htaken ?_, acceptorBound_le haccepted ?_⟩
    · rcases acceptorStep_worker (j := j) h with hw | hw
      · rw [hw]
        exact id
      · rw [hw, popping_woken]
        exact id
    · intro ha
      refine (hacc ha).resolve_right ?_
      rw [hl]
      exact Bool.false_ne_true
  | accept fd =>
    cases h
    unfold Server.acceptReturns
    split
    · rename_i hpc
      have hbound : s.acceptorBound = s.accepted.length + 1 := by
        rw [Server.acceptorBound, hpc]
        rfl
      split_ifs
      · exact ⟨hl, fun _ => Nat.le_refl _, Nat.le_refl _⟩
      · refine ⟨hl, fun _ => Nat.le_refl _, ?_⟩
        rw [hbound, Server.acceptorBound, List.length_append]
        exact Nat.le_refl _
      · refine ⟨hl, fun _ => Nat.le_refl _, ?_⟩
        rw [hbound]
        exact Nat.le_succ _
      · refine ⟨hl, fun _ => Nat.le_refl _, ?_⟩
        rw [hbound]
        exact Nat.le_succ _
    · exact ⟨hl, fun _ => Nat.le_refl _, Nat.le_refl _⟩
  | calloc a =>
    cases h
    unfold Server.callocReturns
    split
    · split_ifs
      · exact ⟨hl, fun _ => Nat.le_refl _, Nat.le_refl _⟩
      · exact ⟨hl, fun _ => Nat.le_refl _, acceptorBound_le rfl fun ha => by cases ha⟩
    · exact ⟨hl, fun _ => Nat.le_refl _, Nat.le_refl _⟩
  | worker i =>
    simp only [Server.step] at h
    split at h
    · exact workerStep_stopped hl h
    · cases h
      exact ⟨hl, fun _ => Nat.le_refl _, Nat.le_refl _⟩
  | wakeup i =>
    have hw := step_worker h
    cases h
    refine ⟨hl, fun j => workerBound_le rfl ?_, Nat.le_refl _⟩
    rcases hw j with hw | hw | ⟨hw, -⟩
    · rw [hw]
      exact id
    · rw [hw, popping_woken]
      exact id
    · cases hw
  | stop =>
    cases h
    exact ⟨rfl, fun _ => Nat.le_refl _, Nat.le_refl _⟩

/-- Once `listening` is off, each worker takes at most one more connection, and at most one more is
accepted. -/
theorem server_stop_bound {n : ℕ} {s s' : Server} {events : List ServerEvent}
    (hl : s.listening = false) (hrun : runOf (Server.step n) s events = some s') :
    (∀ i, (jobsOf s'.taken i).length ≤ (jobsOf s.taken i).length + 1) ∧
      s'.accepted.length ≤ s.accepted.length + 1 := by
  have hstopped : Stopped s s' := by
    refine runOf_inv (Stopped s) (fun t e t' ht hstep => ?_) events
      ⟨hl, fun _ => Nat.le_refl _, Nat.le_refl _⟩ hrun
    have h := step_stopped ht.listening hstep
    exact ⟨h.listening, fun i => (h.worker i).trans (ht.worker i), h.acceptor.trans ht.acceptor⟩
  refine ⟨fun i => ?_, ?_⟩
  · have h := hstopped.worker i
    unfold Server.workerBound at h
    have := Bool.toNat_le (s.worker i).popping
    omega
  · have h := hstopped.acceptor
    unfold Server.acceptorBound at h
    have := Bool.toNat_le s.acceptor.accepting
    omega

theorem server_stop_bound_accepted : ∃ s',
    runOf (Server.step 1) { Server.init with listening := false, acceptor := .accept }
        [.worker 0, .accept 5, .acceptor] = some s' ∧
      (∀ i, (jobsOf s'.taken i).length ≤ (jobsOf [] i).length + 1) ∧
      s'.accepted.length ≤ ([] : List Int32).length + 1 := by
  have hseen : (runOf (Server.step 1) { Server.init with listening := false, acceptor := .accept }
      [.worker 0, .accept 5, .acceptor]).isSome = true := rfl
  obtain ⟨s', hrun⟩ := Option.isSome_iff_exists.1 hseen
  exact ⟨s', hrun, server_stop_bound rfl hrun⟩

/-- The acceptor is gone, nothing is queued, and the worker is in `wq_pop`. -/
structure Stuck (s : Server) (i : ℕ) : Prop where
  inv : ServerInv s []
  acceptor : s.acceptor = .done
  worker : (s.worker i).asking = true

theorem Stuck.workerStep (h : Stuck s i) (hstep : s.workerStep j = some s') :
    Stuck s' i ∧ s'.taken = s.taken := by
  obtain ⟨-, haccepted, hacceptor⟩ := workerStep_frame hstep
  have htaken : s'.taken = s.taken := by
    rcases workerStep_taken hstep with ⟨htaken, -⟩ | ⟨a, x, hpc, -⟩
    · exact htaken
    · obtain ⟨nodes', hnodes⟩ := h.inv.head_eq (.inr hpc)
      cases hnodes
  refine ⟨⟨?_, hacceptor.trans h.acceptor, ?_⟩, htaken⟩
  · obtain ⟨t, nodes, ht, hinv, -⟩ := h.inv.worker j
    obtain rfl : t = s' := Option.some.inj (ht.symm.trans hstep)
    have hbefore := h.inv.descriptors.order
    have hafter := hinv.descriptors.order
    rw [haccepted, htaken, hbefore, List.append_cancel_left_eq, Server.waiting, Server.waiting,
      hacceptor, List.append_cancel_right_eq, List.map_nil] at hafter
    rwa [List.map_eq_nil_iff.1 hafter.symm] at hinv
  · by_cases hj : i = j
    · subst hj
      have hask := h.worker
      have hgoto : ∀ pc, (s.goto i pc).worker i = pc := fun pc => Function.update_self ..
      unfold Server.workerStep at hstep
      split at hstep
      case h_2 hpc | h_3 hpc =>
        cases hstep
        split
        · exact congrArg WorkerPc.asking (hgoto _)
        · exact hask
      case h_4 hpc =>
        have hsize := h.inv.size_eq (i := i) (by rw [hpc]; rfl) (by rw [hpc]; rfl)
        rw [if_pos (show s.size = 0 from hsize)] at hstep
        cases hstep
        exact congrArg WorkerPc.asking (hgoto _)
      case h_5 =>
        cases hstep
        exact hask
      all_goals
        rename_i hpc
        rw [hpc] at hask
        cases hask
    · rw [workerStep_of_ne hstep hj]
      exact h.worker

theorem Stuck.step (h : Stuck s i) {e : ServerEvent} (hstep : s.step n e = some s') :
    Stuck s' i ∧ s'.taken = s.taken := by
  cases e with
  | acceptor =>
    simp only [Server.step, Server.acceptorStep, h.acceptor, Option.some.injEq] at hstep
    rw [← hstep]
    exact ⟨h, rfl⟩
  | accept fd =>
    simp only [Server.step, Server.acceptReturns, h.acceptor, Option.some.injEq] at hstep
    rw [← hstep]
    exact ⟨h, rfl⟩
  | calloc a =>
    simp only [Server.step, Server.callocReturns, h.acceptor, Option.some.injEq] at hstep
    rw [← hstep]
    exact ⟨h, rfl⟩
  | worker j =>
    simp only [Server.step] at hstep
    split at hstep
    · exact h.workerStep hstep
    · cases hstep
      exact ⟨h, rfl⟩
  | wakeup j =>
    have hw := step_worker hstep i
    cases hstep
    have hwoken := (s.worker j).woken_same []
    refine ⟨⟨h.inv.goto hwoken.inside hwoken.node hwoken.hand hwoken.uncounted
      (hwoken.sees (h.inv.queue.sees j)) hwoken.awake, h.acceptor, ?_⟩, rfl⟩
    rcases hw with hw | hw | ⟨hw, -⟩
    · rw [hw]
      exact h.worker
    · rw [hw, asking_woken]
      exact h.worker
    · cases hw
  | stop =>
    cases hstep
    obtain ⟨hl, hq, hd, ha⟩ := h.inv
    exact ⟨⟨⟨hl.same rfl fun _ => rfl, hq.same rfl rfl hq.size (fun _ => rfl) hq.sees
      fun _ _ ha => ha, hd.same rfl rfl rfl rfl rfl fun _ => rfl, ha⟩, h.acceptor, h.worker⟩, rfl⟩

/-- A worker that is in `wq_pop` when the acceptor has left and nothing is queued never gets out of
it, whatever is done. -/
theorem server_stop_stuck {n : ℕ} {s s' : Server} {i : ℕ} {events more : List ServerEvent}
    (hrun : runOf (Server.step n) .init events = some s) (hacceptor : s.acceptor = .done)
    (hqueue : s.head = 0) (hworker : (s.worker i).asking = true)
    (hmore : runOf (Server.step n) s more = some s') :
    (s'.worker i).asking = true ∧ s'.taken = s.taken := by
  obtain ⟨t, nodes, ht, hinv⟩ := ServerInv.init.run n events
  obtain rfl : t = s := Option.some.inj (ht.symm.trans hrun)
  have hnodes : nodes = [] := by
    rcases nodes with _ | ⟨⟨a, x⟩, nodes⟩
    · rfl
    · obtain ⟨hhead, ha, -⟩ := hinv.queue.linked
      exact absurd (hhead.symm.trans hqueue) ha
  subst hnodes
  have h : Stuck s' i ∧ s'.taken = t.taken :=
    runOf_inv (fun t' => Stuck t' i ∧ t'.taken = t.taken)
      (fun t' e t'' ht' hstep => by
        obtain ⟨h, htaken⟩ := ht'.1.step hstep
        exact ⟨h, htaken.trans ht'.2⟩) more ⟨⟨hinv, hacceptor, hworker⟩, rfl⟩ hmore
  exact ⟨h.1.worker, h.2⟩

/-- A worker sleeps, and then the server is stopped. -/
def stoppedEvents : List ServerEvent :=
  [.worker 0, .worker 0, .worker 0, .acceptor, .stop, .accept (-1), .acceptor, .acceptor]

theorem server_stop_stuck_sleeping : ∃ s s',
    runOf (Server.step 1) .init stoppedEvents = some s ∧
      runOf (Server.step 1) s [.wakeup 0, .worker 0, .worker 0] = some s' ∧
      (s'.worker 0).asking = true ∧ s'.taken = s.taken := by
  have hseen : (runOf (Server.step 1) .init stoppedEvents).map
      (fun s => ((s.worker 0).asking, s.head, s.acceptor)) = some (true, 0, .done) := rfl
  obtain ⟨s, hrun, hs⟩ := Option.map_eq_some_iff.1 hseen
  rw [Prod.mk.injEq, Prod.mk.injEq] at hs
  obtain ⟨⟨nodes, h⟩, -⟩ := ServerInv.init.runSpare 1 stoppedEvents (fun _ _ => rfl) hrun
  obtain ⟨s', -, hmore, -⟩ := h.run 1 [.wakeup 0, .worker 0, .worker 0]
  exact ⟨s, s', hrun, hmore, server_stop_stuck hrun hs.2.2 hs.2.1 hs.1 hmore⟩

end Cs162
