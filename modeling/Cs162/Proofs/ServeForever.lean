import Cs162.Proofs.FileServer
import Cs162.ServeForever
import Cs162.Lib.Simulation

/-!
# Every connection has a handler of its own

A handler writes over `server_files_directory`, but no other one sees this: in every run each answer
is that of a server which has answered nothing before (`serve_run_sound`). Each connection is
handled once, unless the `fork` for it fails, and it is at an end for the client when its process
is, since no other process has a descriptor of it by then.
-/

namespace Cs162

open CLib

namespace FileServer

namespace Serve

/-- Whether some process has a descriptor of a connection. -/
def Holds (s : Serve) (i : ℕ) : Prop :=
  .client i ∈ s.parent.opened ∨ ∃ j c, s.child j = some c ∧ .client i ∈ c.2.opened

/-- The connections for which the handler was called. -/
def connections (s : Serve) : List ℕ := s.handled.map Handled.connection

/-- What holds in any run of a server for a directory. -/
structure Sound (directory : CStr) (s : Serve) : Prop where
  answered : ∀ h ∈ s.handled,
    h.response = handleFilesRequest (h.machine.within directory) h.received
  once : s.connections.Nodup
  called : ∀ i pc p, s.child i = some (pc, p) →
    (i ∈ s.connections ↔ pc = .close ∨ pc = .exited)
  forked : ∀ i < s.accepted,
    (s.child i).isSome ∨ s.pc = .fork i ∨ s.pc = .exited ∧ s.accepted = i + 1
  ended : ∀ i p, s.child i = some (.exited, p) → s.pc ≠ .close i → ¬ s.Holds i
  listening : ∀ i pc p, s.child i = some (pc, p) → .server ∈ p.opened → pc = .start

end Serve

/-- A child, given whether the handler was called for its connection. -/
structure ChildInv (directory : CStr) (called : Prop) (i : ℕ) (c : ChildPc × Process) : Prop where
  before : c.1 = .start ∨ c.1 = .handler → c.2.directory = directory ∧ ¬ called
  behind : c.1 = .close ∨ c.1 = .exited → called
  own : ∀ j, .client j ∈ c.2.opened → j = i
  listening : .server ∈ c.2.opened → c.1 = .start
  ended : c.1 = .exited → c.2.opened = ∅

/-- At its end a child has no descriptor, and the handler was called. -/
theorem ChildInv.exited (directory : CStr) {called : Prop} (hcalled : called) (i : ℕ)
    (p : Process) : ChildInv directory called i (.exited, { p with opened := ∅ }) where
  before := by
    rintro (hpc | hpc) <;> cases hpc
  behind _ := hcalled
  own _ hj := absurd hj (Finset.notMem_empty _)
  listening hserver := absurd hserver (Finset.notMem_empty _)
  ended _ := rfl

namespace Serve

structure Inv (directory : CStr) (s : Serve) : Prop where
  answered : ∀ h ∈ s.handled,
    h.response = handleFilesRequest (h.machine.within directory) h.received
  once : s.connections.Nodup
  called_lt : ∀ i ∈ s.connections, (s.child i).isSome
  child : ∀ i c, s.child i = some c → ChildInv directory (i ∈ s.connections) i c
  child_lt : ∀ i c, s.child i = some c → i < s.accepted
  forked : ∀ i < s.accepted,
    (s.child i).isSome ∨ s.pc = .fork i ∨ s.pc = .exited ∧ s.accepted = i + 1
  directory : s.parent.directory = directory
  opened : ∀ i, .client i ∈ s.parent.opened → s.pc = .fork i ∨ s.pc = .close i
  current : ∀ i, s.pc = .fork i → s.accepted = i + 1 ∧ s.child i = none

variable {directory : CStr} {s s' : Serve} {i : ℕ} {c c' : ChildPc × Process}

theorem init_inv (directory : CStr) : (init directory).Inv directory where
  answered := by simp [init]
  once := List.nodup_nil
  called_lt := by simp [init, connections]
  child := by simp [init]
  child_lt := by simp [init]
  forked := by simp [init]
  directory := rfl
  opened := by simp [init]
  current := by simp [init]

theorem setChild_self (s : Serve) (i : ℕ) (c : ChildPc × Process) :
    (s.setChild i c).child i = some c := Function.update_self ..

theorem setChild_ne {j : ℕ} (hj : j ≠ i) : (s.setChild i c).child j = s.child j :=
  Function.update_of_ne hj ..

theorem isSome_setChild {j : ℕ} (h : (s.child j).isSome) : ((s.setChild i c).child j).isSome := by
  by_cases hj : j = i
  · rw [hj, setChild_self]
    rfl
  · rwa [setChild_ne hj]

/-- A child goes on, with what its call of the handler was, if it was this step. -/
theorem Inv.move (h : s.Inv directory) (hc : s.child i = some c) {new : List Handled}
    (hnew : ∀ x ∈ new, x.connection = i ∧
      x.response = handleFilesRequest (x.machine.within directory) x.received)
    (honce : (s.connections ++ new.map Handled.connection).Nodup)
    (hc' : ChildInv directory (i ∈ s.connections ++ new.map Handled.connection) i c') :
    ({ s.setChild i c' with handled := s.handled ++ new } : Serve).Inv directory where
  answered := by
    intro x hx
    rcases List.mem_append.1 hx with hx | hx
    · exact h.answered x hx
    · exact (hnew x hx).2
  once := by simpa [connections] using honce
  called_lt := by
    intro j hj
    rw [connections, List.map_append, List.mem_append] at hj
    rcases hj with hj | hj
    · exact isSome_setChild (h.called_lt j hj)
    · obtain ⟨x, hx, rfl⟩ := List.mem_map.1 hj
      rw [(hnew x hx).1]
      exact isSome_setChild (by simp [hc])
  child := by
    intro j d hd
    have hcalled : ({ s.setChild i c' with handled := s.handled ++ new } : Serve).connections =
        s.connections ++ new.map Handled.connection := List.map_append
    rw [hcalled]
    by_cases hj : j = i
    · subst hj
      obtain rfl := Option.some.inj ((setChild_self s j c').symm.trans hd)
      exact hc'
    · have hother : j ∈ s.connections ++ new.map Handled.connection ↔ j ∈ s.connections := by
        refine ⟨fun hmem => (List.mem_append.1 hmem).resolve_right fun hmem => ?_,
          List.mem_append_left _⟩
        obtain ⟨x, hx, rfl⟩ := List.mem_map.1 hmem
        exact hj (hnew x hx).1
      rw [hother]
      exact h.child j d ((setChild_ne hj).symm.trans hd)
  child_lt := by
    intro j d hd
    by_cases hj : j = i
    · exact hj ▸ h.child_lt i c hc
    · exact h.child_lt j d ((setChild_ne hj).symm.trans hd)
  forked := fun j hj => (h.forked j hj).imp_left isSome_setChild
  directory := h.directory
  opened := h.opened
  current := by
    intro j hj
    obtain ⟨hlast, hnone⟩ := h.current j hj
    have hne : j ≠ i := by
      rintro rfl
      rw [hc] at hnone
      cases hnone
    exact ⟨hlast, (setChild_ne hne).trans hnone⟩

/-- A child goes on without a call of the handler. -/
theorem Inv.setChild (h : s.Inv directory) (hc : s.child i = some c)
    (hc' : ChildInv directory (i ∈ s.connections) i c') : (s.setChild i c').Inv directory := by
  have hmove : ({ s.setChild i c' with handled := s.handled ++ [] } : Serve).Inv directory :=
    h.move hc (by simp) (by simpa using h.once) (by simpa using hc')
  rwa [List.append_nil] at hmove

theorem Inv.accept (h : s.Inv directory) (hpc : s.pc = .accept) :
    ({ s with
      pc := .fork s.accepted
      parent := { s.parent with opened := insert (.client s.accepted) s.parent.opened }
      accepted := s.accepted + 1 } : Serve).Inv directory where
  answered := h.answered
  once := h.once
  called_lt := h.called_lt
  child := h.child
  child_lt j d hd := (h.child_lt j d hd).trans (Nat.lt_succ_self _)
  forked := by
    intro j hj
    rcases Nat.lt_succ_iff_lt_or_eq.1 hj with hj | rfl
    · refine .inl ?_
      simpa [hpc] using h.forked j hj
    · exact .inr (.inl rfl)
  directory := h.directory
  opened := by
    intro j hj
    rcases Finset.mem_insert.1 hj with hj | hj
    · cases hj
      exact .inl rfl
    · simpa [hpc] using h.opened j hj
  current := by
    rintro j hj
    cases hj
    refine ⟨rfl, ?_⟩
    rcases hchild : s.child s.accepted with _ | d
    · rfl
    · exact absurd (h.child_lt _ d hchild) (Nat.lt_irrefl _)

theorem Inv.fork (h : s.Inv directory) (hpc : s.pc = .fork i) :
    ({ s.setChild i (.start, s.parent) with pc := .close i } : Serve).Inv directory := by
  obtain ⟨hlast, hnone⟩ := h.current i hpc
  have huncalled : i ∉ s.connections := by
    intro hi
    have := h.called_lt i hi
    rw [hnone] at this
    cases this
  exact {
    answered := h.answered
    once := h.once
    called_lt := fun j hj => isSome_setChild (h.called_lt j hj)
    child := by
      intro j d hd
      by_cases hj : j = i
      · subst hj
        obtain rfl := Option.some.inj ((setChild_self s j _).symm.trans hd)
        refine ⟨fun _ => ⟨h.directory, huncalled⟩, ?_, ?_, fun _ => rfl, ?_⟩
        · rintro (hstart | hstart) <;> cases hstart
        · intro k hk
          simpa [hpc, eq_comm] using h.opened k hk
        · intro hstart
          cases hstart
      · exact h.child j d ((setChild_ne hj).symm.trans hd)
    child_lt := by
      intro j d hd
      by_cases hj : j = i
      · rw [hj]
        exact hlast.symm ▸ Nat.lt_succ_self i
      · exact h.child_lt j d ((setChild_ne hj).symm.trans hd)
    forked := by
      intro j hj
      rcases h.forked j hj with hchild | hfork | ⟨hexit, -⟩
      · exact .inl (isSome_setChild hchild)
      · obtain rfl : i = j := by simpa [hpc] using hfork
        exact .inl (by simp [setChild_self])
      · simp [hpc] at hexit
    directory := h.directory
    opened := by
      intro j hj
      have hfork := h.opened j hj
      refine .inr ?_
      simpa [hpc] using hfork
    current := by
      rintro j ⟨⟩ }

theorem Inv.forkFails (h : s.Inv directory) :
    ({ s with pc := .exited, parent := { s.parent with opened := ∅ } } : Serve).Inv directory where
  answered := h.answered
  once := h.once
  called_lt := h.called_lt
  child := h.child
  child_lt := h.child_lt
  forked := by
    intro j hj
    rcases h.forked j hj with hchild | hfork | hexit
    · exact .inl hchild
    · exact .inr (.inr ⟨rfl, (h.current j hfork).1⟩)
    · exact .inr (.inr ⟨rfl, hexit.2⟩)
  directory := h.directory
  opened := by
    intro j hj
    cases hj
  current := by
    rintro j ⟨⟩

theorem Inv.parentClose (h : s.Inv directory) (hpc : s.pc = .close i) :
    ({ s with
      pc := .accept
      parent := { s.parent with opened := s.parent.opened.erase (.client i) } } : Serve).Inv
        directory where
  answered := h.answered
  once := h.once
  called_lt := h.called_lt
  child := h.child
  child_lt := h.child_lt
  forked := by
    intro j hj
    refine .inl ?_
    simpa [hpc] using h.forked j hj
  directory := h.directory
  opened := by
    intro j hj
    obtain ⟨hne, hj⟩ := Finset.mem_erase.1 hj
    have hclose : i = j := by simpa [hpc] using h.opened j hj
    exact absurd (hclose ▸ rfl) hne
  current := by
    rintro j ⟨⟩

/-- The handler finds the directory of the server as it was before any request. -/
theorem Inv.handle {p : Process} (h : s.Inv directory) (hc : s.child i = some (.handler, p))
    (m : Machine) (received : Option (List UInt8)) :
    ({ s.setChild i (p.handle m received) with
      handled := s.handled ++
        [⟨i, m, received, handleFilesRequest (m.within p.directory) received⟩] } : Serve).Inv
          directory := by
  have hchild := h.child i _ hc
  obtain ⟨hdirectory, huncalled⟩ := hchild.before (.inr rfl)
  refine h.move hc ?_ ?_ ?_
  · intro x hx
    obtain rfl := List.mem_singleton.1 hx
    rw [← hdirectory]
    exact ⟨rfl, rfl⟩
  · exact h.once.append (List.nodup_singleton i) (List.disjoint_singleton.2 huncalled)
  · have hcalled : i ∈ s.connections ++ [i] := List.mem_append_right _ (List.mem_singleton_self i)
    unfold Process.handle
    split
    · refine ⟨?_, fun _ => hcalled, hchild.own, fun hserver => ?_, ?_⟩
      · rintro (hpc | hpc) <;> cases hpc
      · cases hchild.listening hserver
      · intro hpc
        cases hpc
    · exact .exited directory hcalled i p

theorem Inv.closeServer {p : Process} (h : s.Inv directory) (hc : s.child i = some (.start, p)) :
    (s.setChild i (.handler, { p with opened := p.opened.erase .server })).Inv directory := by
  have hchild := h.child i _ hc
  refine h.setChild hc ⟨fun _ => hchild.before (.inl rfl), ?_, ?_, ?_, ?_⟩
  · rintro (hpc | hpc) <;> cases hpc
  · exact fun j hj => hchild.own j (Finset.mem_of_mem_erase hj)
  · exact fun hserver => absurd rfl (Finset.mem_erase.1 hserver).1
  · intro hpc
    cases hpc

theorem Inv.childClose {p : Process} (h : s.Inv directory) (hc : s.child i = some (.close, p)) :
    (s.setChild i (.exited, { p with opened := ∅ })).Inv directory :=
  h.setChild hc (.exited directory ((h.child i _ hc).behind (.inl rfl)) i p)

theorem Inv.step {e : ServeStep} (h : s.Inv directory) (hstep : s.step e = some s') :
    s'.Inv directory := by
  cases e with
  | accept ok =>
    simp only [Serve.step] at hstep
    split at hstep
    next hpc =>
      split_ifs at hstep <;> cases hstep
      · exact h.accept hpc
      · exact h
    · cases hstep
  | fork ok =>
    simp only [Serve.step] at hstep
    split at hstep
    next hpc =>
      split_ifs at hstep <;> cases hstep
      · exact h.fork hpc
      · exact h.forkFails
    · cases hstep
  | parentClose =>
    simp only [Serve.step] at hstep
    split at hstep
    next hpc =>
      cases hstep
      exact h.parentClose hpc
    · cases hstep
  | closeServer i =>
    simp only [Serve.step] at hstep
    split at hstep
    next hc =>
      cases hstep
      exact h.closeServer hc
    · cases hstep
  | handle i machine received =>
    simp only [Serve.step] at hstep
    split at hstep
    next hc =>
      cases hstep
      exact h.handle hc machine received
    · cases hstep
  | childClose i =>
    simp only [Serve.step] at hstep
    split at hstep
    next hc =>
      cases hstep
      exact h.childClose hc
    · cases hstep

theorem Inv.sound (h : s.Inv directory) : s.Sound directory where
  answered := h.answered
  once := h.once
  called := by
    intro i pc p hc
    have hchild := h.child i _ hc
    refine ⟨fun hcalled => ?_, hchild.behind⟩
    cases pc with
    | start => exact absurd hcalled (hchild.before (.inl rfl)).2
    | handler => exact absurd hcalled (hchild.before (.inr rfl)).2
    | close => exact .inl rfl
    | exited => exact .inr rfl
  forked := h.forked
  ended := by
    rintro i p hc hpc (hparent | ⟨j, d, hd, hj⟩)
    · rcases h.opened i hparent with hfork | hclose
      · rw [(h.current i hfork).2] at hc
        cases hc
      · exact hpc hclose
    · obtain rfl := (h.child j d hd).own i hj
      obtain rfl := Option.some.inj (hc.symm.trans hd)
      rw [(h.child i _ hd).ended rfl] at hj
      cases hj
  listening := fun i _ _ hc => (h.child i _ hc).listening

end Serve

/-- In whatever order the parent and the children go on, and whichever calls of `accept` and `fork`
fail: the handler is called once for each connection that has a process, as if it was the first
one. Only the last connection may be left without one, if its `fork` fails. When the process of a
connection has exited and the parent has gone on, nobody has a descriptor of the connection. -/
theorem serve_run_sound (directory : CStr) (steps : List ServeStep) {s : Serve}
    (hrun : runOf Serve.step (Serve.init directory) steps = some s) : s.Sound directory :=
  (runOf_inv (Serve.Inv directory) (fun _ _ _ h hstep => h.step hstep) steps
    (Serve.init_inv directory) hrun).sound

/-- Two clients ask for the same file. The parent accepts the second one while the first one is
served. -/
def twoClients : List ServeStep :=
  let sent := (CStr.ofString "GET /a.css HTTP/1.0\n").bytes
  [.accept true, .fork true, .closeServer 0, .parentClose, .accept true,
    .handle 0 twoBytes (some sent), .fork true, .childClose 0, .closeServer 1,
    .handle 1 twoBytes (some sent), .childClose 1, .parentClose]

theorem serve_run_sound_twoClients : ∃ s,
    runOf Serve.step (Serve.init (.ofString "www")) twoClients = some s ∧
      s.Sound (.ofString "www") :=
  ⟨_, rfl, serve_run_sound (.ofString "www") twoClients rfl⟩

end FileServer

end Cs162
