import Cs162.TpcSystem

/-!
# Late messages

One thread of the leader runs `tpcleader_handle_tpc`, one request after the other, and waits for a
reply no longer than its timeout. What it has sent stays in the follower's work queue whether or not
it still waits, and the follower's workers may come to it at any time and in any order. A reply to
a message nobody waits for is lost.
-/

namespace Cs162

open CLib

/-- A message in the work queue of a follower, sent by transaction `txn`. -/
structure Copy where
  id : ℕ
  txn : ℕ
  follower : Addr
  msg : KvRequest

/-- The transactions taken up so far, the messages not handled yet, the number of messages sent, and
the message whose reply the leader waits for. -/
structure LateSystem extends TpcSystem where
  started : ℕ
  queue : List Copy
  sent : ℕ
  awaited : Option ℕ

/-- Followers that have handled no message yet. -/
def LateSystem.init (followers : Addr → KvServer) : LateSystem := ⟨.init followers, 0, [], 0, none⟩

namespace LateSystem

variable (strhash64 : CStr → UInt64) (l : TpcLeader)

/-- The transaction taken up last. -/
def current (s : LateSystem) : ℕ := s.started - 1

/-- The locals of the thread, before an exchange. -/
def locals (s : LateSystem) : Option TpcLocals := (s.txns s.current).bind (·.thread.locals)

/-- A request is taken up once the transaction before it is over. -/
def accept (s : LateSystem) (req : KvRequest) : Option LateSystem :=
  if s.locals.isSome then some s
  else do
    let t ← s.toTpcSystem.start strhash64 l s.started req
    return { s with toTpcSystem := t, started := s.started + 1 }

/-- The thread runs on from what its exchange brings. -/
def receive (s : LateSystem) (con : Contact) : Option LateSystem :=
  match s.txns s.current with
  | none => some s
  | some x => do
    let thread ← x.thread.receive strhash64 l con
    return { s with
      txns := Function.update s.txns s.current (some { x with thread })
      awaited := none }

/-- The thread sends its message, and waits. -/
def send (s : LateSystem) : LateSystem :=
  match s.locals, s.awaited with
  | some t, none => { s with
      queue := s.queue ++ [⟨s.sent, s.current, l.addr t.currFollower, t.req⟩]
      sent := s.sent + 1
      awaited := some s.sent }
  | _, _ => s

/-- `connect_to` fails. -/
def refuse (s : LateSystem) : Option LateSystem :=
  if s.awaited = none then s.receive strhash64 l .refused else some s

/-- The timeout of the reply. -/
def timeout (s : LateSystem) : Option LateSystem :=
  if s.awaited = none then some s else s.receive strhash64 l .noReply

/-- A follower handles a message of its queue. The reply reaches a thread that still waits for it,
if it is `inTime`. -/
def process (s : LateSystem) (n : ℕ) (inTime : Bool) : Option LateSystem :=
  match s.queue[n]? with
  | none => some s
  | some c => do
    let processed ← s.cluster.process strhash64 c.txn c.follower c.msg
    let s' := { s with cluster := processed.1, queue := s.queue.eraseIdx n }
    if inTime ∧ s.awaited = some c.id then s'.receive strhash64 l (.reply processed.2)
    else return s'

end LateSystem

inductive LateEvent
  | accept (req : KvRequest)
  | send
  | refuse
  | timeout
  | process (n : ℕ) (inTime : Bool)

variable (strhash64 : CStr → UInt64) (l : TpcLeader)

def LateSystem.step (s : LateSystem) : LateEvent → Option LateSystem
  | .accept req => s.accept strhash64 l req
  | .send => some (s.send l)
  | .refuse => s.refuse strhash64 l
  | .timeout => s.timeout strhash64 l
  | .process n inTime => s.process strhash64 l n inTime

def LateSystem.run (s : LateSystem) : List LateEvent → Option LateSystem
  | [] => some s
  | e :: es => do
    let s' ← s.step strhash64 l e
    s'.run es

end Cs162
