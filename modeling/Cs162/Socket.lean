import Cs162.Lib.SendLoop
import Cs162.Wire

/-!
# Exchanges call by call

An exchange of the leader with a follower is not one step: each call of `connect_to`, `write` and
`read` is a step here, and other threads run between any two of them. Both sides write in the loop
of `http_send_and_free` and read with one `read`, which may come when any part of the message is
there. A follower's worker reads a request and handles it in one step, and a write to a connection
that the other side has closed may fail but does not end the process.

`connect_to` sets a timeout, at which the leader may stop waiting for a reply before the follower
has come to the request. The request is then left behind: its connection is still in the follower's
work queue, and is handled at any later time or never. A `LeftSystem` makes single steps of whole
exchanges, of those that are given up, and of the handling of requests left behind.
-/

namespace Cs162

open CLib

/-! ## Requests left behind -/

/-- A request whose connection the leader has closed: where it was sent, and what was written of
it. -/
structure LeftBehind where
  follower : Addr
  request : List UInt8

structure LeftSystem extends WireSystem where
  left : List LeftBehind

def LeftSystem.init (followers : Addr → KvServer) : LeftSystem := ⟨.init followers, []⟩

/-- A step of whole exchanges, an exchange that its thread gives up after it has written some bytes
of its message, or a follower that reads at most `n` bytes of a request left behind and handles
them. -/
inductive LeftEvent
  | wire (e : WireEvent)
  | giveUp (i request : ℕ)
  | late (k n : ℕ)

namespace LeftSystem

variable (strhash64 : CStr → UInt64) (indexPage : List UInt8) (l : TpcLeader) (s : LeftSystem)

def giveUp (i request : ℕ) : Option LeftSystem :=
  match s.txns i with
  | none => some s
  | some x =>
    match x.thread.locals with
    | none => some s
    | some t => do
      let thread ← x.thread.receive strhash64 l .noReply
      let written := ((kvrequestSend t.req).getD []).take request
      return { s with
        txns := Function.update s.txns i (some { x with thread })
        left := s.left ++ [⟨l.addr t.currFollower, written⟩] }

def late (k n : ℕ) : Option LeftSystem :=
  match s.left[k]? with
  | none => some s
  | some r => do
    let handled ← kvserverHandle strhash64 indexPage (s.followers r.follower) (r.request.take n)
    return { s with
      followers := Function.update s.followers r.follower handled.1
      left := s.left.eraseIdx k }

def step : LeftEvent → Option LeftSystem
  | .wire e => do
    let wire ← s.toWireSystem.step strhash64 indexPage l e
    return { s with toWireSystem := wire }
  | .giveUp i request => s.giveUp strhash64 l i request
  | .late k n => s.late strhash64 indexPage k n

end LeftSystem

/-! ## Calls -/

/-- A connection of a thread to a follower: the leader's loop for the request, and once that is
handled the follower's loop for the reply. -/
structure Conn where
  request : SendLoop UInt8
  reply : Option (SendLoop UInt8)

/-- What has arrived of the reply. -/
def Conn.replied (c : Conn) : List UInt8 := c.reply.elim [] (·.written)

structure SocketSystem extends LeftSystem where
  conns : ℕ → Option Conn

def SocketSystem.init (followers : Addr → KvServer) : SocketSystem :=
  ⟨.init followers, fun _ => none⟩

/-- A client's connection is handled, or a call of a thread's exchange: the leader connects, or
fails to, it writes, the follower reads at most `n` bytes and handles them, it writes, and the
leader reads at most `n` bytes, or its timeout runs out. Or a request left behind is handled. -/
inductive SocketEvent
  | accept (i : ℕ) (sent : List UInt8)
  | connect (i : ℕ) (succeeds : Bool)
  | write (i : ℕ) (r : WriteResult)
  | handle (i n : ℕ)
  | respond (i : ℕ) (r : WriteResult)
  | receive (i n : ℕ)
  | late (k n : ℕ)

namespace SocketSystem

variable (strhash64 : CStr → UInt64) (indexPage : List UInt8) (l : TpcLeader) (s : SocketSystem)

/-- The locals of a thread before an exchange, or in it. -/
def locals (i : ℕ) : Option TpcLocals := (s.txns i).bind (·.thread.locals)

def accept (i : ℕ) (sent : List UInt8) : Option SocketSystem := do
  let wire ← s.toWireSystem.accept strhash64 l i sent
  return { s with toWireSystem := wire }

/-- A thread runs on from what its exchange brings, and its socket is closed. -/
def advance (i : ℕ) (con : Contact) : Option SocketSystem :=
  match s.txns i with
  | none => some s
  | some x => do
    let thread ← x.thread.receive strhash64 l con
    return { s with
      txns := Function.update s.txns i (some { x with thread })
      conns := Function.update s.conns i none }

def connect (i : ℕ) (succeeds : Bool) : Option SocketSystem :=
  match s.locals i, s.conns i with
  | some t, none =>
    if succeeds then
      let request := .start ((kvrequestSend t.req).getD [])
      some { s with conns := Function.update s.conns i (some ⟨request, none⟩) }
    else s.advance strhash64 l i .refused
  | _, _ => some s

/-- A round of the leader's loop. -/
def write (i : ℕ) (r : WriteResult) : SocketSystem :=
  match s.conns i with
  | some c =>
    { s with conns := Function.update s.conns i (some { c with request := c.request.write r }) }
  | none => s

/-- `kvserver_handle` up to its loop. -/
def handle (i n : ℕ) : Option SocketSystem :=
  match s.locals i, s.conns i with
  | some t, some ⟨request, none⟩ => do
    let f := l.addr t.currFollower
    let handled ← kvserverHandle strhash64 indexPage (s.followers f) (request.written.take n)
    return { s with
      followers := Function.update s.followers f handled.1
      conns := Function.update s.conns i (some ⟨request, some (.start handled.2)⟩) }
  | _, _ => some s

/-- A round of the follower's loop. -/
def respond (i : ℕ) (r : WriteResult) : SocketSystem :=
  match s.conns i with
  | some c =>
    { s with
      conns := Function.update s.conns i (some { c with reply := c.reply.map (·.write r) }) }
  | none => s

/-- A request that is not handled when the leader closes its connection. -/
def leave (i : ℕ) (c : Conn) : SocketSystem :=
  match s.locals i, c.reply with
  | some t, none => { s with left := s.left ++ [⟨l.addr t.currFollower, c.request.written⟩] }
  | _, _ => s

/-- The leader reads once its own loop is over. -/
def receive (i n : ℕ) : Option SocketSystem :=
  match s.conns i with
  | none => some s
  | some c =>
    if c.request.running then some s
    else do
      let contact ← contactOf (c.replied.take n)
      (s.leave l i c).advance strhash64 l i contact

def late (k n : ℕ) : Option SocketSystem := do
  let left ← s.toLeftSystem.late strhash64 indexPage k n
  return { s with toLeftSystem := left }

def step : SocketEvent → Option SocketSystem
  | .accept i sent => s.accept strhash64 l i sent
  | .connect i succeeds => s.connect strhash64 l i succeeds
  | .write i r => some (s.write i r)
  | .handle i n => s.handle strhash64 indexPage l i n
  | .respond i r => some (s.respond i r)
  | .receive i n => s.receive strhash64 l i n
  | .late k n => s.late strhash64 indexPage k n

end SocketSystem

end Cs162
