import Cs162.FileServer
import Mathlib.Data.Finset.Erase
import Mathlib.Data.Finset.Insert

/-!
# Serving forever

The loop of `serve_forever` in `hw2/httpserver.c` for `handle_files_request`, with the processes it
starts, which take their steps in any order. A process has a `server_files_directory` of its own,
where the handler writes, and descriptors of its own. `fork` copies both, and whoever exits, or
follows a `NULL`, has no descriptor any more. Connections are numbered as they are accepted, and
process `i` is the one that is forked for connection `i`.
-/

namespace Cs162

open CLib

namespace FileServer

inductive Descriptor
  | server
  | client (i : ℕ)
deriving DecidableEq

structure Process where
  directory : CStr
  opened : Finset Descriptor

/-- Where the parent is in the loop. -/
inductive ParentPc
  | accept
  | fork (clientSocketNumber : ℕ)
  | close (clientSocketNumber : ℕ)
  | exited

/-- Where a child is: before it closes the socket that is listened on, before the handler, before it
closes the connection, or at its end. -/
inductive ChildPc
  | start
  | handler
  | close
  | exited

/-- A call of the handler: for which connection, what it found and received, and what it sent. -/
structure Handled where
  connection : ℕ
  machine : Machine
  received : Option (List UInt8)
  response : Option Response

structure Serve where
  pc : ParentPc
  parent : Process
  accepted : ℕ
  child : ℕ → Option (ChildPc × Process)
  handled : List Handled

/-- What happens next. `accept` and `fork` may fail, and the handler finds any files and receives
anything. -/
inductive ServeStep
  | accept (ok : Bool)
  | fork (ok : Bool)
  | parentClose
  | closeServer (i : ℕ)
  | handle (i : ℕ) (machine : Machine) (received : Option (List UInt8))
  | childClose (i : ℕ)

/-- The machine with `server_files_directory` as it is in a process. -/
def Machine.within (m : Machine) (directory : CStr) : Machine := { m with directory := directory }

/-- What `strcat` makes of `server_files_directory`. -/
def Machine.directoryAfter (m : Machine) (request : HttpRequest) : CStr :=
  let fullPath := m.fullPath request
  if m.stat fullPath m.pathStat = .dir then strcat fullPath indexName else fullPath

/-- A child after the call of the handler. -/
def Process.handle (p : Process) (m : Machine) (received : Option (List UInt8)) :
    ChildPc × Process :=
  match handleFilesRequest (m.within p.directory) received, received.bind httpRequestParse with
  | some _, some request =>
    (.close, { p with directory := (m.within p.directory).directoryAfter request })
  | _, _ => (.exited, { p with opened := ∅ })

namespace Serve

/-- Before the loop. -/
def init (directory : CStr) : Serve where
  pc := .accept
  parent := ⟨directory, {.server}⟩
  accepted := 0
  child _ := none
  handled := []

def setChild (s : Serve) (i : ℕ) (c : ChildPc × Process) : Serve :=
  { s with child := Function.update s.child i (some c) }

/-- A step, which is `none` where the process is elsewhere. -/
def step (s : Serve) : ServeStep → Option Serve
  | .accept ok =>
    match s.pc with
    | .accept =>
      if ok then
        let opened := insert (.client s.accepted) s.parent.opened
        some { s with
          pc := .fork s.accepted
          parent := { s.parent with opened := opened }
          accepted := s.accepted + 1 }
      else some s
    | _ => none
  | .fork ok =>
    match s.pc with
    | .fork i =>
      if ok then some { s.setChild i (.start, s.parent) with pc := .close i }
      else some { s with pc := .exited, parent := { s.parent with opened := ∅ } }
    | _ => none
  | .parentClose =>
    match s.pc with
    | .close i =>
      some { s with
        pc := .accept
        parent := { s.parent with opened := s.parent.opened.erase (.client i) } }
    | _ => none
  | .closeServer i =>
    match s.child i with
    | some (.start, p) =>
      some (s.setChild i (.handler, { p with opened := p.opened.erase .server }))
    | _ => none
  | .handle i machine received =>
    match s.child i with
    | some (.handler, p) =>
      let response := handleFilesRequest (machine.within p.directory) received
      some { s.setChild i (p.handle machine received) with
        handled := s.handled ++ [⟨i, machine, received, response⟩] }
    | _ => none
  | .childClose i =>
    match s.child i with
    | some (.close, p) => some (s.setChild i (.exited, { p with opened := ∅ }))
    | _ => none

end Serve

end FileServer

end Cs162
