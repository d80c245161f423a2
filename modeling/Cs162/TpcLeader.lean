import Cs162.Sprintf

/-!
# The leader

`tpcleader.c`. The leader keeps its followers in a circular doubly linked list, sorted by id. A
node of the list is named by its place in the order of allocation, and its fields are found in
`nodes`. `none` is the outcome of a read through `NULL`, and of a loop that never ends.

`tpcleader_handle_tpc` and `tpcleader_handle_get` are cut at the exchanges they wait for: a thread
that runs one of them stands before an exchange with `curr_follower` or is over, and `receive` runs
it on from what the exchange brings. Its `int r_val` is set from the `unsigned int` redundancy.

`tpcleader_register` prints a follower's address into an array two bytes too short for it
(`addressPrinted`). What that overwrites is left out here. The buffers `kvrequest_send` prints into
are followed for a `GET` (`GetThread.round`) and taken to be large enough for updates.
-/

namespace Cs162

open CLib

/-- `tpcfollower_t`. -/
structure TpcFollower where
  id : UInt64
  host : CStr
  port : UInt32
  next : ℕ
  prev : ℕ

/-- `tpcleader_t`, with the nodes allocated for its list. -/
structure TpcLeader where
  followerCapacity : UInt32
  followerCount : UInt32
  redundancy : UInt32
  followersHead : Option ℕ
  nodes : ℕ → TpcFollower
  allocated : ℕ

/-- `tpcleader_init` of the memory `mem`. -/
def tpcleaderInit (mem : TpcLeader) (followerCapacity redundancy : UInt32) : TpcLeader :=
  { mem with
    followerCapacity
    followerCount := 0
    redundancy := if followerCapacity < redundancy then followerCapacity else redundancy
    followersHead := none }

/-! ## The ring -/

namespace TpcLeader

def setNext (l : TpcLeader) (node next : ℕ) : TpcLeader :=
  { l with nodes := Function.update l.nodes node { l.nodes node with next } }

def setPrev (l : TpcLeader) (node prev : ℕ) : TpcLeader :=
  { l with nodes := Function.update l.nodes node { l.nodes node with prev } }

/-- The four assignments that link a node in before another. -/
def linkBefore (l : TpcLeader) (node curr : ℕ) : TpcLeader :=
  let l := l.setNext node curr
  let l := l.setPrev node (l.nodes curr).prev
  let l := l.setPrev curr node
  l.setNext (l.nodes node).prev node

/-- The node `tpcleader_register` allocates. -/
def newFollower (l : TpcLeader) (id : UInt64) (host : CStr) (port : UInt32) : TpcLeader :=
  { l with
    nodes := Function.update l.nodes l.allocated ⟨id, host, port, l.allocated, l.allocated⟩
    allocated := l.allocated + 1 }

end TpcLeader

/-- The loop of `tpcleader_register` and what follows it, from `curr_follower` on. -/
def registerLoop (l : TpcLeader) (node first : ℕ) : ℕ → ℕ → Option TpcLeader
  | 0, _ => none
  | fuel + 1, curr =>
    if (l.nodes node).id < (l.nodes curr).id then
      let l' := l.linkBefore node curr
      some { l' with
        followersHead := if curr = first then some node else l'.followersHead
        followerCount := l'.followerCount + 1 }
    else if (l.nodes curr).id = (l.nodes node).id then some l
    else if (l.nodes curr).next = first then
      let l' := l.linkBefore node first
      some { l' with followerCount := l'.followerCount + 1 }
    else registerLoop l node first fuel (l.nodes curr).next

/-- The section of `tpcleader_register` under the write lock, on a node with links to itself. -/
def registerLocked (l : TpcLeader) (node : ℕ) : Option TpcLeader :=
  match l.followersHead with
  | none => some { l with followersHead := some node, followerCount := l.followerCount + 1 }
  | some first => registerLoop l node first l.followerCount.toNat first

variable (strhash64 : CStr → UInt64)

/-- `sprintf` of a port and a host. -/
def followerAddress (port host : CStr) : CStr :=
  cstr (port.bytes ++ byte ':' :: host.bytes)

def tpcleaderRegister (l : TpcLeader) (req : KvRequest) : Option (TpcLeader × KvResponse) :=
  if l.followerCount = l.followerCapacity then some (l, ⟨.error, some errmsgFollowerCapacity⟩)
  else do
    let host ← req.key
    let port ← req.val
    let id := strhash64 (followerAddress port host)
    let l' ← registerLocked (l.newFollower id host (.ofInt (atoi port))) l.allocated
    return (l', ⟨.success, none⟩)

/-- The leader after registration requests, handled in order. -/
def registerAll (l : TpcLeader) : List KvRequest → Option TpcLeader
  | [] => some l
  | req :: reqs => do
    let registered ← tpcleaderRegister strhash64 l req
    registerAll registered.1 reqs

/-- The loop of `tpcleader_get_primary`, from `curr_follower` on. -/
def getPrimaryLoop (l : TpcLeader) (hash : UInt64) (head : ℕ) : ℕ → ℕ → Option ℕ
  | 0, _ => none
  | fuel + 1, curr =>
    if hash < (l.nodes curr).id then some curr
    else if (l.nodes curr).next = head then some head
    else getPrimaryLoop l hash head fuel (l.nodes curr).next

/-- `tpcleader_get_primary`, which returns `NULL` before the leader is at capacity. -/
def tpcleaderGetPrimary (l : TpcLeader) (key : CStr) : Option (Option ℕ) :=
  if l.followerCount < l.followerCapacity then some none
  else do
    let head ← l.followersHead
    let primary ← getPrimaryLoop l (strhash64 key) head l.followerCount.toNat head
    return some primary

def tpcleaderGetSuccessor (l : TpcLeader) (predecessor : ℕ) : ℕ := (l.nodes predecessor).next

/-- `int r_val = leader->redundancy`. -/
def TpcLeader.rVal (l : TpcLeader) : ℤ := l.redundancy.toInt32.toInt

/-! ## Two-phase commit -/

/-- What an exchange with a follower brings: no connection, no reply that can be decoded, or a
reply. -/
inductive Contact
  | refused
  | noReply
  | reply (res : KvResponse)

/-- The locals of `tpcleader_handle_tpc`. -/
structure TpcLocals where
  req : KvRequest
  rVal : ℤ
  currFollower : ℕ
  abortBool : ℕ

/-- A thread in `tpcleader_handle_tpc`: before an exchange of one of the phases, or over with a
response. -/
inductive TpcThread
  | phase1 (t : TpcLocals)
  | phase2 (t : TpcLocals)
  | ended (res : KvResponse)

/-- Whether a follower's answer in phase 1 raises `abortBool`. -/
def votesAbort : Contact → Option Bool
  | .reply res =>
    if res.type ≠ .vote then some true
    else do
      let votebody ← res.body
      return votebody ≠ msgCommit
  | _ => some true

/-- Whether a follower's answer in phase 2 ends the retries. -/
def acked : Contact → Bool
  | .reply res => res.type = .ack
  | _ => false

/-- The head of the loop of phase 2. -/
def phase2Head (t : TpcLocals) : TpcThread :=
  if 0 < t.rVal then .phase2 t
  else if 0 < t.abortBool then .ended ⟨.error, some errmsgGenericError⟩
  else .ended ⟨.success, none⟩

/-- From the end of phase 1 to the head of the loop of phase 2. -/
def endPhase1 (l : TpcLeader) (t : TpcLocals) : Option TpcThread := do
  let key ← t.req.key
  let primary ← (← tpcleaderGetPrimary strhash64 l key)
  let type := if 0 < t.abortBool then .abort else .commit
  return phase2Head ⟨{ t.req with type }, l.rVal, primary, t.abortBool⟩

/-- The head of the loop of phase 1. -/
def phase1Head (l : TpcLeader) (t : TpcLocals) : Option TpcThread :=
  if 0 < t.rVal then some (.phase1 t) else endPhase1 strhash64 l t

/-- `tpcleader_handle_tpc` up to its first exchange. -/
def tpcleaderHandleTpc (l : TpcLeader) (req : KvRequest) : Option TpcThread :=
  if l.followerCount ≠ l.followerCapacity then
    some (.ended ⟨.error, some errmsgNotAtCapacity⟩)
  else do
    let key ← req.key
    let primary ← (← tpcleaderGetPrimary strhash64 l key)
    phase1Head strhash64 l ⟨req, l.rVal, primary, 0⟩

/-- `tpcleader_handle_tpc` from what an exchange brings to the next exchange. -/
def TpcThread.receive (l : TpcLeader) (c : Contact) : TpcThread → Option TpcThread
  | .phase1 t => do
    let abort ← votesAbort c
    phase1Head strhash64 l
      { t with
        rVal := t.rVal - 1
        currFollower := tpcleaderGetSuccessor l t.currFollower
        abortBool := if abort then t.abortBool + 1 else t.abortBool }
  | .phase2 t =>
    if acked c then
      some (phase2Head
        { t with
          rVal := t.rVal - 1
          currFollower := tpcleaderGetSuccessor l t.currFollower })
    else some (.phase2 t)
  | .ended res => some (.ended res)

/-! ## GET -/

/-- A thread in `tpcleader_handle_get`: before an exchange, or over with a response. -/
inductive GetThread
  | loop (rVal : ℤ) (currFollower : Option ℕ)
  | ended (res : KvResponse)

/-- The head of the loop. -/
def getHead (rVal : ℤ) (currFollower : Option ℕ) : GetThread :=
  if 0 < rVal then .loop rVal currFollower else .ended ⟨.error, some errmsgNoKey⟩

/-- `tpcleader_handle_get` up to its first exchange. -/
def tpcleaderHandleGet (l : TpcLeader) (req : KvRequest) : Option GetThread := do
  let key ← req.key
  let primary ← tpcleaderGetPrimary strhash64 l key
  return getHead l.rVal primary

/-- `tpcleader_handle_get` from what an exchange brings to the next exchange, where the request was
sent inside its buffers. A reply that is missing is read all the same. -/
def GetThread.receive (l : TpcLeader) (c : Contact) : GetThread → Option GetThread
  | .loop rVal currFollower => do
    let curr ← currFollower
    match c with
    | .refused => return getHead (rVal - 1) (tpcleaderGetSuccessor l curr)
    | .noReply => none
    | .reply res =>
      if res.type = .getresp then return .ended ⟨.getresp, res.body⟩
      else return getHead (rVal - 1) (tpcleaderGetSuccessor l curr)
  | .ended res => some (.ended res)

/-- A round of the loop. `kvrequest_send` is called without a connection, too. The outcome is `none`
where it writes behind a buffer, and without a method for the request nothing is sent. -/
def GetThread.round (l : TpcLeader) (req : KvRequest) (c : Contact) : GetThread → Option GetThread
  | .loop rVal currFollower =>
    if SendInside req then
      let c := if (kvrequestSendPrinted req).isSome then c else .refused
      GetThread.receive l c (.loop rVal currFollower)
    else none
  | .ended res => some (.ended res)

/-- `tpcleader_handle_get` from a thread to its end, given what becomes of a connection to each node:
the nodes it connects to, in order, and the response. -/
def GetThread.run (l : TpcLeader) (req : KvRequest) (contact : ℕ → Contact) :
    ℕ → GetThread → Option (List ℕ × KvResponse)
  | _, .ended res => some ([], res)
  | 0, .loop _ _ => none
  | fuel + 1, .loop rVal currFollower => do
    let curr ← currFollower
    let t ← GetThread.round l req (contact curr) (.loop rVal currFollower)
    let rest ← GetThread.run l req contact fuel t
    return (curr :: rest.1, rest.2)

/-- `tpcleader_handle_get`, which goes through its loop at most `redundancy` times. -/
def runHandleGet (l : TpcLeader) (req : KvRequest) (contact : ℕ → Contact) :
    Option (List ℕ × KvResponse) := do
  let t ← tpcleaderHandleGet strhash64 l req
  t.run l req contact l.redundancy.toNat

/-! ## The entry point -/

/-- What others first see of `tpcleader_handle`: a response, the index page, or a connection to a
follower. -/
inductive LeaderAct
  | respond (res : KvResponse)
  | index
  | connect (node : ℕ)

def GetThread.act : GetThread → Option LeaderAct
  | loop _ currFollower => currFollower.map .connect
  | ended res => some (.respond res)

def TpcThread.act : TpcThread → LeaderAct
  | phase1 t | phase2 t => .connect t.currFollower
  | ended res => .respond res

/-- `tpcleader_handle` of what `kvrequest_recieve` returned, up to the first that is seen of it. -/
def tpcleaderHandle (l : TpcLeader) : Option KvRequest → Option (TpcLeader × LeaderAct)
  | none => some (l, .respond ⟨.error, some errmsgInvalidRequest⟩)
  | some req =>
    if req.type = .index then some (l, .index)
    else if req.type = .register then
      (tpcleaderRegister strhash64 l req).map fun r => (r.1, .respond r.2)
    else if req.type = .getreq then do
      let t ← tpcleaderHandleGet strhash64 l req
      let act ← t.act
      return (l, act)
    else do
      let t ← tpcleaderHandleTpc strhash64 l req
      return (l, t.act)

end Cs162
