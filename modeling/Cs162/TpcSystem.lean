import Cs162.TpcLeader
import Cs162.KvServer

/-!
# The leader and its followers

A follower is found at a host and a port and handles its messages one at a time. Messages arrive as
they were sent. A `Cluster` has, besides the followers, two records no program keeps: the
transaction whose message filled each follower's pending slot, and every update that was applied.

In a `TpcSystem` any number of threads of the leader run `tpcleader_handle_tpc`, and one step is one
exchange of one of them with a follower.
-/

namespace Cs162

open CLib

/-- Where a follower listens. -/
structure Addr where
  host : CStr
  port : UInt32
deriving DecidableEq

/-- Where the follower of a node of the ring listens. -/
def TpcLeader.addr (l : TpcLeader) (node : ℕ) : Addr := ⟨(l.nodes node).host, (l.nodes node).port⟩

/-- The types of the requests that ask for an update. -/
def MsgType.isUpdate : MsgType → Bool
  | putreq | delreq => true
  | _ => false

/-- What a `COMMIT` applied: the follower, the transaction whose message had filled its slot, the
slot, and the directory before and after. -/
structure Applied where
  follower : Addr
  owner : Option ℕ
  slot : Pending
  before : Dir
  after : Dir

structure Cluster where
  followers : Addr → KvServer
  owner : Addr → Option ℕ
  applied : List Applied

/-- What becomes of a message: no connection, a connection that breaks off before the message is
handled, or one that breaks off before the reply is there, or a reply. -/
inductive Delivery
  | refused
  | dropped
  | unanswered
  | answered

/-- A request to the leader, and the thread that handles it. -/
structure Txn where
  call : KvRequest
  thread : TpcThread

structure TpcSystem where
  cluster : Cluster
  txns : ℕ → Option Txn

/-- Followers that have handled no message yet. -/
def TpcSystem.init (followers : Addr → KvServer) : TpcSystem :=
  ⟨⟨followers, fun _ => none, []⟩, fun _ => none⟩

variable (strhash64 : CStr → UInt64)

/-- A follower handles a message of a transaction. A vote fills its slot, an acknowledgement leaves
it empty. -/
def Cluster.process (c : Cluster) (txn : ℕ) (f : Addr) (msg : KvRequest) :
    Option (Cluster × KvResponse) := do
  let s := c.followers f
  let handled ← kvserverHandleTpc strhash64 s msg
  let owner :=
    if handled.2.type = .vote then some txn
    else if handled.2.type = .ack then none
    else c.owner f
  let applied :=
    if msg.type = .commit ∧ s.pending.msg.isUpdate then
      c.applied ++ [⟨f, c.owner f, s.pending, s.dir, handled.1.dir⟩]
    else c.applied
  return (⟨Function.update c.followers f handled.1, Function.update c.owner f owner, applied⟩,
    handled.2)

def Cluster.deliver (c : Cluster) (txn : ℕ) (f : Addr) (msg : KvRequest) :
    Delivery → Option (Cluster × Contact)
  | .refused => some (c, .refused)
  | .dropped => some (c, .noReply)
  | .unanswered => do
    let processed ← c.process strhash64 txn f msg
    return (processed.1, .noReply)
  | .answered => do
    let processed ← c.process strhash64 txn f msg
    return (processed.1, .reply processed.2)

/-- The locals of a thread that stands before an exchange. -/
def TpcThread.locals : TpcThread → Option TpcLocals
  | phase1 t | phase2 t => some t
  | ended _ => none

/-- The response of a thread that is over. -/
def TpcThread.response : TpcThread → Option KvResponse
  | ended res => some res
  | _ => none

variable (l : TpcLeader)

/-- The leader takes up a request as a transaction not used before. -/
def TpcSystem.start (s : TpcSystem) (i : ℕ) (req : KvRequest) : Option TpcSystem :=
  if (s.txns i).isSome then some s
  else do
    let thread ← tpcleaderHandleTpc strhash64 l req
    return { s with txns := Function.update s.txns i (some ⟨req, thread⟩) }

/-- One exchange of a transaction's thread. -/
def TpcSystem.exchange (s : TpcSystem) (i : ℕ) (d : Delivery) : Option TpcSystem := do
  match s.txns i with
  | none => return s
  | some x =>
    match x.thread.locals with
    | none => return s
    | some t =>
      let delivered ← s.cluster.deliver strhash64 i (l.addr t.currFollower) t.req d
      let thread ← x.thread.receive strhash64 l delivered.2
      return ⟨delivered.1, Function.update s.txns i (some { x with thread })⟩

/-- A thread takes up a request, or exchanges a message with a follower. -/
inductive TpcEvent
  | start (i : ℕ) (req : KvRequest)
  | exchange (i : ℕ) (d : Delivery)

def TpcSystem.step (s : TpcSystem) : TpcEvent → Option TpcSystem
  | .start i req => s.start strhash64 l i req
  | .exchange i d => s.exchange strhash64 l i d

def TpcSystem.run (s : TpcSystem) : List TpcEvent → Option TpcSystem
  | [] => some s
  | e :: es => do
    let s' ← s.step strhash64 l e
    s'.run es

/-! ## Clients one after the other -/

/-- A request to the leader with what becomes of its exchanges. Every exchange of a `GET` is
answered. -/
inductive ClientCall
  | update (req : KvRequest) (script : List Delivery)
  | get (req : KvRequest) (exchanges : ℕ)

def ClientCall.req : ClientCall → KvRequest
  | update req _ | get req _ => req

def GetThread.response : GetThread → Option KvResponse
  | loop _ _ => none
  | ended res => some res

/-- The exchanges of a `GET`. -/
def TpcSystem.runGet (s : TpcSystem) (i : ℕ) (req : KvRequest) :
    ℕ → GetThread → Option (TpcSystem × GetThread)
  | 0, t => some (s, t)
  | _ + 1, .ended res => some (s, .ended res)
  | n + 1, .loop rVal currFollower => do
    let curr ← currFollower
    let processed ← s.cluster.process strhash64 i (l.addr curr) req
    let t ← GetThread.receive l (.reply processed.2) (.loop rVal currFollower)
    TpcSystem.runGet { s with cluster := processed.1 } i req n t

/-- A client's call as transaction `i`, with its response if the exchanges bring it to an end. -/
def TpcSystem.serve (s : TpcSystem) (i : ℕ) :
    ClientCall → Option (TpcSystem × Option KvResponse)
  | .update req script => do
    let s ← s.start strhash64 l i req
    let s ← s.run strhash64 l (script.map (.exchange i))
    return (s, (s.txns i).bind (·.thread.response))
  | .get req exchanges => do
    let t ← tpcleaderHandleGet strhash64 l req
    let served ← s.runGet strhash64 l i req exchanges t
    return (served.1, served.2.response)

/-- A call that was handled to completion. -/
structure Visit where
  req : KvRequest
  res : KvResponse
  before : Addr → KvServer
  after : Addr → KvServer

/-- The calls that are handled to completion, each before the next is taken up. -/
def TpcSystem.serveAll (s : TpcSystem) (i : ℕ) : List ClientCall → Option (List Visit)
  | [] => some []
  | call :: calls => do
    let served ← s.serve strhash64 l i call
    match served.2 with
    | none => return []
    | some res =>
      let visits ← served.1.serveAll (i + 1) calls
      return ⟨call.req, res, s.cluster.followers, served.1.cluster.followers⟩ :: visits

/-- The followers a key is stored on. -/
def TpcLeader.replicas (key : CStr) : List Addr :=
  match tpcleaderGetPrimary strhash64 l key with
  | some (some primary) =>
    (List.iterate (tpcleaderGetSuccessor l) primary l.redundancy.toNat).map l.addr
  | _ => []

end Cs162
