import Cs162.Wire

/-!
# `GET`s beside updates

Threads that run `tpcleader_handle_get` beside those that run `tpcleader_handle_tpc`. A step is one
exchange of one of them with a follower. Which updates were answered before a `GET` was taken up, and
whether a follower has been sent all of its request, are records that no program keeps.
-/

namespace Cs162

open CLib

variable (strhash64 : CStr → UInt64) (indexPage : List UInt8) (l : TpcLeader)

/-- A thread in `tpcleader_handle_get`, with the threads of updates that were over before it, and
whether some follower has been sent all of its request. -/
structure GetCall where
  req : KvRequest
  thread : GetThread
  before : List ℕ
  asked : Bool

/-- The followers and the threads of the leader, with the threads of updates in the order they were
taken up. -/
structure ReadSystem where
  wire : WireSystem
  taken : List ℕ
  gets : ℕ → Option GetCall

def ReadSystem.init (followers : Addr → KvServer) : ReadSystem where
  wire := .init followers
  taken := []
  gets _ := none

/-- An event of the updates, a `GET` that is taken up, or an exchange of its thread. -/
inductive ReadEvent
  | update (e : WireEvent)
  | get (j : ℕ) (sent : List UInt8)
  | read (j : ℕ) (d : WireDelivery)

/-- The request `tpcleader_handle` passes to `tpcleader_handle_get`. -/
def getRequest (sent : List UInt8) : Option KvRequest :=
  (kvrequestRecieve sent).filter fun req => req.type = .getreq

/-- All bytes of a message arrive. -/
def WireDelivery.sends (msg : List UInt8) : WireDelivery → Bool
  | refused => false
  | connected request _ => msg.length ≤ request

/-- A thread was taken up and is over. -/
def WireSystem.isOver (s : WireSystem) (i : ℕ) : Bool :=
  ((s.txns i).bind (·.thread.response)).isSome

namespace ReadSystem

variable (s : ReadSystem)

def update (e : WireEvent) : Option ReadSystem := do
  let wire ← s.wire.step strhash64 indexPage l e
  return { s with wire, taken := s.taken ++ e.accepted }

/-- A connection of a client, handled in a thread not used before. -/
def get (j : ℕ) (sent : List UInt8) : Option ReadSystem :=
  match getRequest sent with
  | none => some s
  | some req =>
    if (s.gets j).isSome then some s
    else do
      let thread ← tpcleaderHandleGet strhash64 l req
      let before := s.taken.filter s.wire.isOver
      return { s with gets := Function.update s.gets j (some ⟨req, thread, before, false⟩) }

/-- An exchange of a thread, and what `tpcleader_handle_get` does until the next. -/
def read (j : ℕ) (d : WireDelivery) : Option ReadSystem := do
  match s.gets j with
  | none => return s
  | some call =>
    match call.thread with
    | .ended _ => return s
    | .loop rVal currFollower =>
      let curr ← currFollower
      let f := l.addr curr
      let exchanged ← exchangeBytes strhash64 indexPage (s.wire.followers f) call.req d
      let thread ← GetThread.round l call.req exchanged.2 (.loop rVal currFollower)
      let asked := call.asked || d.sends ((kvrequestSend call.req).getD [])
      return { s with
        wire.followers := Function.update s.wire.followers f exchanged.1
        gets := Function.update s.gets j (some { call with thread, asked }) }

def step : ReadEvent → Option ReadSystem
  | .update e => s.update strhash64 indexPage l e
  | .get j sent => s.get strhash64 l j sent
  | .read j d => s.read strhash64 indexPage l j d

end ReadSystem

end Cs162
