import Cs162.Lib.Simulation
import Cs162.Sprintf
import Cs162.TpcSystem

/-!
# Exchanges over sockets

What `TpcSystem` passes on as messages are bytes here: a follower runs `kvserver_handle` on what it
has read, and the leader decodes what it has read of the reply. Each side takes its message with one
`read`, so it may get less than was sent: `request` and `reply` are the bytes of the two messages
that have arrived by then, and neither side is told that some are missing.

`indexPage` is what `index_send` writes.
-/

namespace Cs162

open CLib

variable (strhash64 : CStr → UInt64) (indexPage : List UInt8)

/-- `kvserver_handle` of the bytes on its socket, with what it writes there. A response whose type
has no status code is not sent. -/
def kvserverHandle (s : KvServer) (sent : List UInt8) : Option (KvServer × List UInt8) :=
  match kvrequestRecieve sent with
  | none => some (s, (kvresponseSend ⟨.error, some errmsgInvalidRequest⟩).getD [])
  | some req =>
    if req.type = .index then some (s, indexPage)
    else do
      let handled ← kvserverHandleTpc strhash64 s req
      return (handled.1, (kvresponseSend handled.2).getD [])

/-- What the leader makes of the bytes of a reply. -/
def contactOf (received : List UInt8) : Option Contact :=
  match kvresponseRecieve received with
  | .ok res => some (.reply res)
  | .error .null => some .noReply
  | .error _ => none

/-- What becomes of a message: no connection, or one over which so many bytes arrive. -/
inductive WireDelivery
  | refused
  | connected (request reply : ℕ)

/-- One exchange of the leader with a follower, from `connect_to` to `close`. -/
def exchangeBytes (s : KvServer) (msg : KvRequest) : WireDelivery → Option (KvServer × Contact)
  | .refused => some (s, .refused)
  | .connected request reply => do
    let sent := (kvrequestSend msg).getD []
    let handled ← kvserverHandle strhash64 indexPage s (sent.take request)
    let contact ← contactOf (handled.2.take reply)
    return (handled.1, contact)

/-- The followers, and the threads of the leader that run `tpcleader_handle_tpc`. -/
structure WireSystem where
  followers : Addr → KvServer
  txns : ℕ → Option Txn

def WireSystem.init (followers : Addr → KvServer) : WireSystem := ⟨followers, fun _ => none⟩

/-- A client's connection is handled, or a thread exchanges a message with a follower. -/
inductive WireEvent
  | accept (i : ℕ) (sent : List UInt8)
  | exchange (i : ℕ) (d : WireDelivery)

variable (l : TpcLeader)

/-- The request `tpcleader_handle` passes to `tpcleader_handle_tpc`. -/
def tpcRequest (sent : List UInt8) : Option KvRequest :=
  (kvrequestRecieve sent).filter fun req =>
    req.type ≠ .index ∧ req.type ≠ .register ∧ req.type ≠ .getreq

/-- A connection of a client, handled in a thread not used before. Other requests than those for
`tpcleader_handle_tpc` leave followers and threads alone. -/
def WireSystem.accept (s : WireSystem) (i : ℕ) (sent : List UInt8) : Option WireSystem :=
  match tpcRequest sent with
  | none => some s
  | some req =>
    if (s.txns i).isSome then some s
    else do
      let thread ← tpcleaderHandleTpc strhash64 l req
      return { s with txns := Function.update s.txns i (some ⟨req, thread⟩) }

/-- The threads that are taken up. -/
def WireEvent.accepted : WireEvent → List ℕ
  | accept i sent => if (tpcRequest sent).isSome then [i] else []
  | exchange _ _ => []

def WireSystem.exchange (s : WireSystem) (i : ℕ) (d : WireDelivery) : Option WireSystem := do
  match s.txns i with
  | none => return s
  | some x =>
    match x.thread.locals with
    | none => return s
    | some t =>
      let f := l.addr t.currFollower
      let exchanged ← exchangeBytes strhash64 indexPage (s.followers f) t.req d
      let thread ← x.thread.receive strhash64 l exchanged.2
      return ⟨Function.update s.followers f exchanged.1,
        Function.update s.txns i (some { x with thread })⟩

def WireSystem.step (s : WireSystem) : WireEvent → Option WireSystem
  | .accept i sent => s.accept strhash64 l i sent
  | .exchange i d => s.exchange strhash64 indexPage l i d

end Cs162
