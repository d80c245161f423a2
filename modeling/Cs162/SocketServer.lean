import Cs162.Wq
import Mathlib.Data.Finset.Erase
import Mathlib.Data.Finset.Insert
import Mathlib.Data.Int.Basic

/-!
# The server's threads

`hw4/src/socket_server.c`. The thread of `server_run` accepts connections and puts them into the
work queue, and the workers take them out, in `handle_leader` or `handle_follower`: the two loops
differ in the handler only, which is one step here. The mutex and the condition variable of the
queue are modelled, and the statements of `wq_push` and `wq_pop` are steps of their own, so any
thread may run between any two of them. A step that has to wait changes nothing. `none` is a
pointer to nothing that is followed, or a node that is freed twice.

Descriptors are those of connections, with a record of the ones accepted, handed to a worker and
closed. `accept` returns no descriptor that is open.
-/

namespace Cs162

open CLib

inductive Thread
  | acceptor
  | worker (i : ℕ)
deriving DecidableEq

/-- Where the thread of `server_run` stands. -/
inductive AcceptorPc
  | loop
  | accept
  | lock (clientSock : Int32)
  | alloc (clientSock : Int32)
  | append (clientSock : Int32) (wqItem : ℕ)
  | grow
  | broadcast
  | unlock
  | shutdown
  | done
deriving DecidableEq

/-- Where a worker stands. -/
inductive WorkerPc
  | loop
  | lock
  | test
  | wait
  | wake
  | item
  | shrink (wqItem : ℕ) (job : Int32)
  | unlink (wqItem : ℕ) (job : Int32)
  | unlock (wqItem : ℕ) (job : Int32)
  | free (wqItem : ℕ) (job : Int32)
  | handle (sockfd : Int32)
  | close (sockfd : Int32)
  | done

/-- What a broadcast does to a worker. -/
def WorkerPc.woken : WorkerPc → WorkerPc
  | wait => wake
  | pc => pc

structure Server where
  listening : Bool
  mutex : Option Thread
  size : ℤ
  head : ℕ
  heap : NodeHeap Int32
  acceptor : AcceptorPc
  worker : ℕ → WorkerPc
  opened : Finset Int32
  accepted : List Int32
  taken : List (ℕ × Int32)
  closed : List (ℕ × Int32)

namespace Server

/-- The server once its workers are created. -/
def init : Server where
  listening := true
  mutex := none
  size := 0
  head := 0
  heap _ := none
  acceptor := .loop
  worker _ := .loop
  opened := ∅
  accepted := []
  taken := []
  closed := []

/-- A worker goes on. -/
def goto (s : Server) (i : ℕ) (pc : WorkerPc) : Server :=
  { s with worker := Function.update s.worker i pc }

/-- A worker's loop, with `wq_pop`. -/
def workerStep (s : Server) (i : ℕ) : Option Server :=
  match s.worker i with
  | .loop => some (s.goto i (if s.listening then .lock else .done))
  | .lock | .wake =>
    some (if s.mutex = none then { s.goto i .test with mutex := some (.worker i) } else s)
  | .test =>
    some (if s.size = 0 then { s.goto i .wait with mutex := none } else s.goto i .item)
  | .wait => some s
  | .item => do
    let node ← s.heap s.head
    return s.goto i (.shrink s.head node.item)
  | .shrink wqItem job => some { s.goto i (.unlink wqItem job) with size := intAdd s.size (-1) }
  | .unlink wqItem job => do
    let deleted ← dlDelete s.heap s.head fun head => head
    return { s.goto i (.unlock wqItem job) with
      head := deleted.1
      heap := deleted.2
      taken := s.taken ++ [(i, job)] }
  | .unlock wqItem job => some { s.goto i (.free wqItem job) with mutex := none }
  | .free wqItem job =>
    if (s.heap wqItem).isSome then
      some { s.goto i (.handle job) with heap := Function.update s.heap wqItem none }
    else none
  | .handle sockfd => some (s.goto i (.close sockfd))
  | .close sockfd =>
    some { s.goto i .loop with
      opened := s.opened.erase sockfd
      closed := s.closed ++ [(i, sockfd)] }
  | .done => some s

/-- The loop of `server_run`, with `wq_push`. -/
def acceptorStep (s : Server) : Option Server :=
  match s.acceptor with
  | .loop => some { s with acceptor := if s.listening then .accept else .shutdown }
  | .lock clientSock =>
    some (if s.mutex = none then
      { s with mutex := some .acceptor, acceptor := .alloc clientSock } else s)
  | .append _ wqItem => do
    let appended ← dlAppend s.heap s.head wqItem
    return { s with head := appended.1, heap := appended.2, acceptor := .grow }
  | .grow => some { s with size := intAdd s.size 1, acceptor := .broadcast }
  | .broadcast => some { s with worker := fun i => (s.worker i).woken, acceptor := .unlock }
  | .unlock => some { s with mutex := none, acceptor := .loop }
  | .shutdown => some { s with acceptor := .done }
  | .accept | .alloc _ | .done => some s

/-- `accept` returns. A descriptor 0 is passed over, and stays open. -/
def acceptReturns (s : Server) (clientSock : Int32) : Server :=
  match s.acceptor with
  | .accept =>
    if clientSock ∈ s.opened then s
    else if 0 < clientSock then
      { s with
        acceptor := .lock clientSock
        opened := insert clientSock s.opened
        accepted := s.accepted ++ [clientSock] }
    else if clientSock = 0 then { s with acceptor := .loop, opened := insert 0 s.opened }
    else { s with acceptor := .loop }
  | _ => s

/-- `calloc` returns an address that is not in use, and the item is stored there. -/
def callocReturns (s : Server) (addr : ℕ) : Server :=
  match s.acceptor with
  | .alloc clientSock =>
    if addr = 0 ∨ (s.heap addr).isSome then s
    else { s with
      acceptor := .append clientSock addr
      heap := Function.update s.heap addr (some ⟨clientSock, 0, 0⟩) }
  | _ => s

/-- `pthread_cond_wait` returns though nothing was broadcast. -/
def wakeup (s : Server) (i : ℕ) : Server := s.goto i (s.worker i).woken

/-- `server_stop`. -/
def stop (s : Server) : Server := { s with listening := false }

end Server

inductive ServerEvent
  | acceptor
  | accept (clientSock : Int32)
  | calloc (addr : ℕ)
  | worker (i : ℕ)
  | wakeup (i : ℕ)
  | stop

def Server.step (maxThreads : ℕ) (s : Server) : ServerEvent → Option Server
  | .acceptor => s.acceptorStep
  | .accept clientSock => some (s.acceptReturns clientSock)
  | .calloc addr => some (s.callocReturns addr)
  | .worker i => if i < maxThreads then s.workerStep i else some s
  | .wakeup i => some (s.wakeup i)
  | .stop => some s.stop

end Cs162
