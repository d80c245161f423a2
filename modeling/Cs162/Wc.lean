import Cs162.Lib.Bytes

/-!
# The word counter

`hw0/wc.c`. The loop stands in `main` twice, once for standard input and once for the file named by
the first argument; the two differ in the function they read a byte with. The counters are `long`s.
-/

namespace Cs162

open CLib

/-- The variables of the loop. -/
structure WcState where
  charCount : ℤ
  lineCount : ℤ
  wordCount : ℤ
  noWordBefore : Bool
deriving DecidableEq

def wcStart : WcState := ⟨0, 0, 0, true⟩

/-- `++` of a `long`. -/
def longSucc (n : ℤ) : ℤ := (n + 1).bmod (2 ^ 64)

/-- One round of the loop, on a byte that was read. -/
def wcRound (s : WcState) (c : UInt8) : WcState :=
  if c = 12 then { s with noWordBefore := true, charCount := longSucc s.charCount }
  else if c = 0 then { s with charCount := longSucc s.charCount }
  else if c = 13 ∨ c = 11 then { s with noWordBefore := true, charCount := longSucc s.charCount }
  else
    let s := if c = 10 then { s with noWordBefore := true, lineCount := longSucc s.lineCount }
      else if c = 32 then { s with noWordBefore := true }
      else if s.noWordBefore then { s with noWordBefore := false, wordCount := longSucc s.wordCount }
      else s
    { s with charCount := longSucc s.charCount }

/-- The loop, up to the end of the stream. -/
def wcLoop : List UInt8 → WcState → WcState
  | [], s => s
  | c :: rest, s => wcLoop rest (wcRound s c)

/-- What is printed: three counts, and the file's name if there is one. -/
structure WcOutput where
  lineCount : ℤ
  wordCount : ℤ
  charCount : ℤ
  name : Option CStr
deriving DecidableEq

/-- `main`, given the bytes of standard input and of the files there are. -/
def wcMain (argv1 : Option CStr) (stdin : List UInt8) (files : CStr → List UInt8) : WcOutput :=
  match argv1 with
  | none =>
    let s := wcLoop stdin wcStart
    ⟨s.lineCount, s.wordCount, s.charCount, none⟩
  | some name =>
    let s := wcLoop (files name) wcStart
    ⟨s.lineCount, s.wordCount, s.charCount, some name⟩

end Cs162
