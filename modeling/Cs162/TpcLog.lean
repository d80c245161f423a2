import Cs162.KvStore

/-!
# The log of TPC messages

`tpclog.c`. Entry `i` of the log is the file `i.log` in the follower's directory, holding a
`logentry_t`: the message type and the data's length, four bytes each, and then the data. Files are
created with mode `S_IRUSR`, so nobody may open one for writing again.
-/

namespace Cs162

open CLib

/-- `tpclog_t`. -/
structure TpcLog where
  nextid : ℕ
  iterpos : ℕ

/-- `logentry_t`. -/
structure LogEntry where
  type : MsgType
  length : ℕ
  data : List UInt8
deriving DecidableEq

/-- `sizeof(logentry_t)`. -/
def sizeofLogentry : ℕ := 8

namespace LogEntry

/-- The bytes `write` stores for an entry. -/
def dump (e : LogEntry) : List UInt8 := leBytes 4 e.type.code ++ leBytes 4 e.length ++ e.data

/-- `tpclog_load_entry` on a file's contents, which fails on a file too short for its header or
for the length the header gives. The length is an `int`, and a negative one, which `tpclog_log` does
not write, is not described here. -/
def load (file : List UInt8) : Option LogEntry :=
  let length := leNat ((file.drop 4).take 4)
  if file.length < sizeofLogentry then none
  else if file.length < length + sizeofLogentry then none
  else some ⟨.ofCode (leNat (file.take 4)), length, (file.drop sizeofLogentry).take length⟩

/-- The string at `data`. -/
def key (e : LogEntry) : CStr := cstr e.data

/-- The string behind the first terminator of `data`. -/
def value (e : LogEntry) : CStr := cstr (e.data.drop (e.key.strlen + 1))

end LogEntry

/-- The types `tpclog_log` accepts. -/
def MsgType.loggable : MsgType → Bool
  | putreq | delreq | abort | commit => true
  | _ => false

/-- `tpclog_init` on uninitialised memory: the next id is the first free one, `iterpos` is left
as it is. -/
def tpclogInit (d : Dir) (mem : TpcLog) : TpcLog := { mem with nextid := d.firstFree .log 0 }

/-- The entry `tpclog_log` builds. Only the strings its type calls for are read; `none` if one of
them is `NULL`. -/
def LogEntry.make (type : MsgType) (key value : Option CStr) : Option LogEntry := do
  let keyPart ← if type = .putreq ∨ type = .delreq then key.map CStr.layout else some []
  let valPart ← if type = .putreq then value.map CStr.layout else some []
  return ⟨type, keyPart.length + valPart.length, keyPart ++ valPart⟩

/-- `tpclog_log`, with its result code; `none` if it reads through `NULL`. -/
def tpclogLog (d : Dir) (log : TpcLog) (type : MsgType) (key value : Option CStr) :
    Option (Dir × TpcLog × ℤ) :=
  if type.loggable = false then some (d, log, errInvldmsg)
  else match d.openCreate (.log log.nextid) false with
    | none => some (d, log, errFilaccess)
    | some d' => do
      let entry ← LogEntry.make type key value
      return (d'.writeStart (.log log.nextid) entry.dump, { log with nextid := log.nextid + 1 }, 0)

def tpclogIterateBegin (log : TpcLog) : TpcLog := { log with iterpos := 0 }

def tpclogIterateHasNext (d : Dir) (log : TpcLog) : Bool := d.stat (.log log.iterpos)

/-- `tpclog_iterate_next`; `none` for the `NULL` it returns at the end or for a file it cannot
load. -/
def tpclogIterateNext (d : Dir) (log : TpcLog) : TpcLog × Option LogEntry :=
  match d.lookup (.log log.iterpos) with
  | none => (log, none)
  | some f => ({ log with iterpos := log.iterpos + 1 }, LogEntry.load f.bytes)

/-- What `while (has_next) next` yields. A log has no more entries than the directory files. -/
def tpclogIterateLoop (d : Dir) : ℕ → TpcLog → List (Option LogEntry)
  | 0, _ => []
  | fuel + 1, log =>
    if tpclogIterateHasNext d log then
      (tpclogIterateNext d log).2 :: tpclogIterateLoop d fuel (tpclogIterateNext d log).1
    else []

/-- The iteration of a whole log, from `tpclog_iterate_begin` on. -/
def tpclogIterate (d : Dir) (log : TpcLog) : List (Option LogEntry) :=
  tpclogIterateLoop d d.files.keys.card (tpclogIterateBegin log)

end Cs162
