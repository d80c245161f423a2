import Cs162.Lib.Strtok

/-!
# The shell's tokenizer

`get_toks` of `hw1/parse.c`. The tokens point into the line, which `strtok` cuts up on the way; a
pointer is given as its offset from the start of the line, and NULL as `none`.
-/

namespace Cs162

open CLib

def maxtoks : ℕ := 100

/-- The bytes of `TOKseparator`. -/
def tokSeparator (b : UInt8) : Bool := b ∈ (CStr.ofString " \n:").bytes

/-- The loop, with so many entries of the array left to fill, given what the last call of `strtok`
returned. -/
def getToksLoop : ℕ → List (Option ℕ) → Option ℕ → Strtok → List (Option ℕ) × Strtok
  | left + 1, toks, some c, s =>
    let next := strtok tokSeparator s none
    getToksLoop left (toks.set (maxtoks - (left + 1)) (some c)) next.1 next.2
  | _, toks, _, s => (toks, s)

/-- The entries of an array in front of its first NULL. -/
def beforeNull {α : Type*} : List (Option α) → List α
  | some a :: tokens => a :: beforeNull tokens
  | _ => []

/-- `get_toks`: the array it returns, and what the line's memory holds then. -/
def getToks (line : CStr) : List (Option ℕ) × List UInt8 :=
  let first := strtok tokSeparator ⟨line.layout, 0⟩ (some 0)
  let (toks, s) := getToksLoop maxtoks (List.replicate maxtoks none) first.1 first.2
  (toks, s.mem)

end Cs162
