import Cs162.TpcLog
import Cs162.Lib.Runs

/-!
# The log, its failures and its crashes

`tpclog.c` again, with what the system calls of `tpclog_log` may return, with `tpclog_clear_log`,
and with the bound of the `int`s that hold the sizes. `none` is the outcome of a size past that
bound. If one of the strings is so long, the buffer `malloc` is asked for is too small for what is
copied into it, or too large to be had. If only both are together, their sum is undefined in C.
-/

namespace Cs162

open CLib

/-- The outcomes of the system calls of `tpclog_log`. An `open` that succeeds is still subject to the
file's mode. -/
structure LogOutcome where
  opens : Bool
  write : WriteResult

/-- Both system calls do what they are asked to. -/
def LogOutcome.success : LogOutcome := ⟨true, .full⟩

/-- The conversion of a `ssize_t` to a `size_t`. -/
def toSizeT (n : ℤ) : ℕ := (n % 2 ^ 64).toNat

/-- A call of `tpclog_log`, with the strings that its type calls for. -/
structure LogCall where
  type : MsgType
  key : Option CStr
  value : Option CStr
  keyGiven : type = .putreq ∨ type = .delreq → key.isSome
  valueGiven : type = .putreq → value.isSome

namespace LogCall

def put (key value : CStr) : LogCall := ⟨.putreq, some key, some value, by simp, by simp⟩

def del (key : CStr) : LogCall := ⟨.delreq, some key, none, by simp, by simp⟩

end LogCall

/-- The entry that `tpclog_log` builds while `keylen`, `vallen` and their sum fit an `int`. -/
def LogCall.entry (c : LogCall) : Option LogEntry := do
  let entry ← LogEntry.make c.type c.key c.value
  if entry.length < 2 ^ 31 then return entry else none

/-- `tpclog_log`, with its result code. -/
def tpclogLogIo (d : Dir) (log : TpcLog) (o : LogOutcome) (c : LogCall) :
    Option (Dir × TpcLog × ℤ) :=
  if c.type.loggable = false then some (d, log, errInvldmsg)
  else match if o.opens then d.openCreate (.log log.nextid) false else none with
    | none => some (d, log, errFilaccess)
    | some d' => do
      let entry ← c.entry
      let size := sizeofLogentry + entry.length
      let ret := if toSizeT (o.write.ret size) < size then errFilaccess else 0
      return (d'.writeStart (.log log.nextid) (entry.dump.take (o.write.count size)),
        { log with nextid := log.nextid + 1 }, ret)

/-- The loop of `tpclog_clear_log` from `count` on, for at most so many removals, and whether they
succeed. -/
def clearLoop (d : Dir) : ℕ → ℕ → Dir × Bool
  | 0, _ => (d, true)
  | fuel + 1, count =>
    if d.stat (.log count) then
      match d.remove (.log count) with
      | none => (d, false)
      | some d' => clearLoop d' fuel (count + 1)
    else (d, true)

/-- `tpclog_clear_log`, with its result code. A log has no more entries than the directory files. -/
def tpclogClearLog (d : Dir) (log : TpcLog) : Dir × TpcLog × ℤ :=
  let cleared := clearLoop d d.files.keys.card 0
  if cleared.2 then (cleared.1, { log with nextid := 0 }, 0) else (cleared.1, log, enoent)

/-! ## Runs -/

/-- An operation on a log. A restarted process opens the log again, in memory of its own. -/
inductive LogOp
  | log (c : LogCall)
  | clear
  | reopen (mem : TpcLog)

/-- An operation whose system calls succeed. -/
def LogOp.step (s : Dir × TpcLog) : LogOp → Option (Dir × TpcLog)
  | .log c => (tpclogLogIo s.1 s.2 .success c).map fun r => (r.1, r.2.1)
  | .clear => some ((tpclogClearLog s.1 s.2).1, (tpclogClearLog s.1 s.2).2.1)
  | .reopen mem => some (s.1, tpclogInit s.1 mem)

/-- The calls a log holds the entries of: those since it was last cleared that were accepted. -/
def sinceClear : List LogOp → List LogCall :=
  List.foldl (fun since op =>
    match op with
    | .log c => if c.type.loggable then since ++ [c] else since
    | .clear => []
    | .reopen _ => since) []

end Cs162
