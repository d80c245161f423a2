import Mathlib.Data.Int.Notation
import Mathlib.Data.Nat.Notation
import Mathlib.Logic.Function.Basic

/-!
# The proxy's relay loop

The loop of `handle_proxy_request` in `hw2/httpserver.c`. What the two peers send are endless
streams of bytes. A turn says what the system calls of one round return. For each side the bytes
read from it so far and the bytes written to it so far are kept along.
-/

namespace Cs162

/-- The peers: the proxy target, on `socket_number`, and the client, on `fd`. -/
inductive Side
  | target
  | client
deriving DecidableEq

namespace Side

/-- The side that gets what is read from this one. -/
def other : Side → Side
  | target => client
  | client => target

end Side

/-- `sizeof(bufferr)`. -/
def bufferrSize : ℕ := 9999

/-- What `select`, `read` and `write` return in a round, and which descriptors are set then. -/
structure Turn where
  ret : ℤ
  isset : Side → Bool
  nread : ℤ
  nwritten : ℤ
  nread_ge : -1 ≤ nread
  nread_le : nread ≤ bufferrSize
  nwritten_ge : -1 ≤ nwritten
  nwritten_le : 0 < nread → nwritten ≤ nread

/-- The side that is read in the round. -/
def Turn.source (t : Turn) : Option Side :=
  if t.ret ≠ 0 ∧ t.isset .target then some .target
  else if t.ret ≠ 0 ∧ t.isset .client then some .client
  else none

structure Relay where
  bufferr : List UInt8
  read : Side → List UInt8
  written : Side → List UInt8
  running : Bool

/-- Before the loop, with whatever the buffer holds. -/
def relayStart (bufferr : List UInt8) : Relay := ⟨bufferr, fun _ => [], fun _ => [], true⟩

/-- The next bytes of a side's stream, as many as `read` returns. -/
def chunk (stream : Side → ℕ → UInt8) (s : Relay) (t : Turn) (side : Side) : List UInt8 :=
  (List.range t.nread.toNat).map fun i => stream side ((s.read side).length + i)

/-- Both branches of the loop: `read` from a side, and `write` to the other one. -/
def relayFrom (stream : Side → ℕ → UInt8) (s : Relay) (t : Turn) (side : Side) : Relay :=
  if t.nread > 0 then
    let bytes := chunk stream s t side
    let bufferr := bytes ++ s.bufferr.drop bytes.length
    let read := Function.update s.read side (s.read side ++ bytes)
    if t.nwritten > 0 then
      let written := Function.update s.written side.other
        (s.written side.other ++ bufferr.take t.nwritten.toNat)
      ⟨bufferr, read, written, true⟩
    else ⟨bufferr, read, s.written, false⟩
  else { s with running := false }

/-- A round of the loop. After the loop nothing happens any more. -/
def relayRound (stream : Side → ℕ → UInt8) (s : Relay) (t : Turn) : Relay :=
  if s.running then
    match t.source with
    | some side => relayFrom stream s t side
    | none => s
  else s

def relayRun (stream : Side → ℕ → UInt8) (s : Relay) (turns : List Turn) : Relay :=
  turns.foldl (relayRound stream) s

end Cs162
