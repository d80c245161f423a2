import Cs162.KvMessage
import Cs162.TpcLog

/-!
# The follower

`kvserver.c`. A follower keeps its store and its log in one directory, and in memory the update it
voted for, in three fields: `pending_msg`, `pending_key` and `pending_value`. `kvserver_init` sets
none of the three, so they start as whatever the memory held. `none` is the outcome of a read
through a pointer that is `NULL` or was never set.

`kvserver_handle_tpc` logs through a copy of the server's `tpclog_t`, which it throws away.
Requests are handled with every file operation succeeding that the files' modes permit.
-/

namespace Cs162

open CLib

/-- A `char *` of the pending slot: `NULL`, a value memory held by chance that points at no string,
or a string in a buffer with room for so many bytes. -/
inductive CharPtr
  | null
  | wild
  | str (s : CStr) (room : ℕ)
deriving DecidableEq

namespace CharPtr

/-- The string a pointer points at. -/
def deref : CharPtr → Option CStr
  | str s _ => some s
  | _ => none

/-- `alloc_msg` of a string. -/
def alloc (s : CStr) : CharPtr := str s (s.strlen + 1)

/-- `strcpy` into the buffer pointed at. -/
def strcpy (s : CStr) : CharPtr → Option CharPtr
  | str _ room => if s.strlen + 1 ≤ room then some (str s room) else none
  | _ => none

/-- Two pointers are both `NULL` or point at equal strings. -/
def Same : CharPtr → CharPtr → Prop
  | null, null => True
  | str s _, str s' _ => s = s'
  | _, _ => False

end CharPtr

/-- The update a follower has voted for. -/
structure Pending where
  msg : MsgType
  key : CharPtr
  value : CharPtr
deriving DecidableEq

/-- No update. -/
def Pending.none : Pending := ⟨.empty, .null, .null⟩

/-- Two slots hold the same message type and the same strings. -/
def Pending.Same (p q : Pending) : Prop := p.msg = q.msg ∧ p.key.Same q.key ∧ p.value.Same q.value

/-- `kvserver_t`, with the contents of its directory. -/
structure KvServer where
  dir : Dir
  log : TpcLog
  pending : Pending

section Server

variable (strhash64 : CStr → UInt64) (d : Dir)

def kvserverGet (key : CStr) : ℤ × Option CStr :=
  if maxKeylen < key.strlen then (errKeylen, none) else kvstoreGet strhash64 d key

def kvserverPutCheck (key value : Option CStr) : Option ℤ := do
  let key ← key
  if maxKeylen < key.strlen ∨ key.strlen = 0 then return errKeylen
  let value ← value
  if maxVallen < value.strlen then return errVallen
  return kvstorePutCheck d key value

def kvserverPut (key value : Option CStr) : Option (Dir × ℤ) := do
  let check ← kvserverPutCheck d key value
  if check < 0 then return (d, check)
  let key ← key
  let value ← value
  return kvstorePut strhash64 d key value

def kvserverDelCheck (key : Option CStr) : Option ℤ := do
  let key ← key
  if maxKeylen < key.strlen ∨ key.strlen = 0 then return errKeylen
  return kvstoreDelCheck strhash64 d key

def kvserverDel (key : Option CStr) : Option (Dir × ℤ) := do
  let check ← kvserverDelCheck strhash64 d key
  if check < 0 then return (d, check)
  let key ← key
  return kvstoreDel strhash64 d key

/-- What a `COMMIT` does with the pending slot, in the handler and in recovery alike. -/
def applyPending (p : Pending) : Option (Dir × Pending) :=
  match p.msg with
  | .putreq => do
    let stored ← kvserverPut strhash64 d p.key.deref p.value.deref
    return (stored.1, .none)
  | .delreq => do
    let removed ← kvserverDel strhash64 d p.key.deref
    return (removed.1, .none)
  | _ => some (d, p)

end Server

variable (strhash64 : CStr → UInt64)

/-- The directory after the handler has logged a request. -/
def KvServer.logRequest (s : KvServer) (req : KvRequest) : Option Dir :=
  if req.type = .getreq then some s.dir
  else (tpclogLog s.dir s.log req.type req.key req.val).map (·.1)

def kvserverHandleTpc (s : KvServer) (req : KvRequest) : Option (KvServer × KvResponse) := do
  let d ← s.logRequest req
  match req.type with
  | .putreq =>
    let _ ← kvserverPutCheck d req.key req.val
    let key ← req.key
    let val ← req.val
    return ({ s with dir := d, pending := ⟨.putreq, .alloc key, .alloc val⟩ },
      ⟨.vote, some msgCommit⟩)
  | .delreq =>
    let delResp ← kvserverDelCheck strhash64 d req.key
    let key ← req.key
    if delResp = 0 then
      return ({ s with dir := d, pending := ⟨.delreq, .alloc key, .null⟩ },
        ⟨.vote, some msgCommit⟩)
    else return ({ s with dir := d }, ⟨.error, some errmsgInvalidRequest⟩)
  | .commit =>
    let applied ← applyPending strhash64 d s.pending
    return ({ s with dir := applied.1, pending := applied.2 }, ⟨.ack, none⟩)
  | .abort => return ({ s with dir := d, pending := .none }, ⟨.ack, none⟩)
  | .getreq =>
    let key ← req.key
    let found := kvserverGet strhash64 d key
    if found.1 = 0 then return ({ s with dir := d }, ⟨.getresp, found.2⟩)
    else return ({ s with dir := d }, ⟨.error, some errmsgNoKey⟩)
  | _ => return ({ s with dir := d }, ⟨.error, some errmsgEndOfHandleTpc⟩)

/-- `kvserver_rebuild_state`: only the last entry of the log counts. -/
def kvserverRebuildState (s : KvServer) : Option KvServer :=
  match (tpclogIterate s.dir s.log).getLast? with
  | none => some s
  | some logEnt => do
    let logEnt ← logEnt
    match logEnt.type with
    | .putreq =>
      return { s with pending := ⟨.putreq, .alloc logEnt.key, .alloc logEnt.value⟩ }
    | .delreq =>
      let key ← s.pending.key.strcpy logEnt.key
      return { s with pending := ⟨.delreq, key, .null⟩ }
    | .commit =>
      let applied ← applyPending strhash64 s.dir s.pending
      return { s with dir := applied.1, pending := applied.2 }
    | .abort => return { s with pending := .none }
    | _ => return s

/-- `kvserver_init` of the memory `mem` on a directory. -/
def kvserverInit (mem : KvServer) (d : Dir) : Option KvServer :=
  let d := kvstoreInit d
  kvserverRebuildState strhash64 { mem with dir := d, log := tpclogInit d mem.log }

/-- The requests of a list, handled in order. -/
def handleAll (s : KvServer) : List KvRequest → Option KvServer
  | [] => some s
  | req :: reqs => do
    let handled ← kvserverHandleTpc strhash64 s req
    handleAll handled.1 reqs

end Cs162
