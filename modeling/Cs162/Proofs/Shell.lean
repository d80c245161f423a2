import Cs162.Shell
import Cs162.Proofs.Parse
import Mathlib.Data.List.Basic

/-!
# Command lines and what is executed

A command line is made of words, a redirection and an `&`, where the last two may be missing. The
shell looks for the redirection two tokens before the end, where it is only if no `&` follows it.
So exactly the lines that have both go wrong, besides those whose file `open` puts on the standard
descriptor itself, which is closed again at once (`shellLine_eq_iff`).
-/

namespace Cs162

open CLib

variable {F : Type}

inductive Direction
  | input
  | output

namespace Direction

def token : Direction → CStr
  | input => .ofString "<"
  | output => .ofString ">"

/-- The descriptor that is redirected. -/
def std : Direction → ℕ
  | input => 0
  | output => 1

end Direction

/-- The tokens that are no words. -/
def operators : List CStr := ["<", ">", "&"].map CStr.ofString

def lineTokens (words : List CStr) (redirection : Option (Direction × CStr))
    (inBackground : Bool) : List CStr :=
  words ++ redirection.elim [] (fun r => [r.1.token, r.2])
    ++ if inBackground then [CStr.ofString "&"] else []

/-- A command with its arguments, a redirection from or to a named file, and an `&`. -/
structure CommandLine where
  command : CStr
  args : List CStr
  redirection : Option (Direction × CStr)
  inBackground : Bool
  notBuiltin : command ∉ cmdTable
  plain : ∀ w ∈ command :: args, w ∉ operators
  namePlain : ∀ r ∈ redirection, r.2 ∉ operators
  fits : (lineTokens (command :: args) redirection inBackground).length < maxtoks

/-- The array that holds these tokens. -/
def tokenArray (tokens : List CStr) : List (Option CStr) :=
  tokens.map some ++ List.replicate (maxtoks - tokens.length) none

namespace CommandLine

def words (c : CommandLine) : List CStr := c.command :: c.args

def tokens (c : CommandLine) : List CStr := lineTokens c.words c.redirection c.inBackground

/-- The right execution: the words as argument vector, the file in the place of the standard
descriptor, and the parent waiting unless there is an `&`. -/
def execution (c : CommandLine) (sys : System F) : LineRun F :=
  .command ⟨c.command, c.words, c.redirection.elim sys.descriptors fun r =>
    Function.update sys.descriptors r.1.std (some (sys.openFile r.2).2)⟩ (!c.inBackground)

end CommandLine

/-! ## The token array -/

theorem getElem?_tokenArray (l : List CStr) (i : ℕ) : (tokenArray l)[i]?.join = l[i]? := by
  rw [tokenArray, List.getElem?_append]
  split_ifs with hi
  · rw [List.getElem?_map]
    cases l[i]? <;> rfl
  · rw [List.getElem?_replicate, List.getElem?_eq_none (by simpa using hi)]
    split_ifs <;> rfl

theorem tokenLen_append {α : Type*} : ∀ (l : List α) (rest : List (Option α)),
    tokenLen (l.map some ++ none :: rest) = some l.length
  | [], _ => rfl
  | a :: l, rest => by simp [tokenLen, tokenLen_append l rest]

theorem tokenLen_tokenArray {l : List CStr} (hl : l.length < maxtoks) :
    tokenLen (tokenArray l) = some l.length := by
  obtain ⟨n, hn⟩ := Nat.exists_eq_add_of_lt hl
  rw [tokenArray, show maxtoks - l.length = n + 1 by omega, List.replicate_succ, tokenLen_append]

theorem beforeNull_set {α : Type*} : ∀ (l : List (Option α)) (i : ℕ),
    beforeNull (l.set i none) = (beforeNull l).take i
  | [], i => by simp [beforeNull]
  | none :: l, 0 => rfl
  | none :: l, i + 1 => by simp [beforeNull]
  | some a :: l, 0 => rfl
  | some a :: l, i + 1 => by simp [beforeNull, beforeNull_set l i]

/-- Cutting the array elsewhere leaves the first entry. -/
theorem getElem?_set_tokenArray (l : List CStr) {i : ℕ} (hi : 0 < i) :
    ((tokenArray l).set i none)[0]?.join = l[0]? := by
  rw [List.getElem?_set_ne (by omega), getElem?_tokenArray]

theorem beforeNull_tokenArray (l : List CStr) : beforeNull (tokenArray l) = l :=
  beforeNull_append l _

/-! ## The parts of the loop body -/

section Parts

variable {l : List CStr} (sys : System F)

theorem background_eq (l : List CStr) : background (tokenArray l) l.length
    = some (decide (2 ≤ l.length ∧ l.getLast? = some (CStr.ofString "&"))) := by
  unfold background
  rw [getElem?_tokenArray, ← List.getLast?_eq_getElem?]
  by_cases hlen : 2 ≤ l.length
  · obtain ⟨token, htoken⟩ : ∃ token, l.getLast? = some token :=
      ⟨_, List.getLast?_eq_some_getLast (List.length_pos_iff.1 (by omega))⟩
    rw [if_pos hlen, htoken]
    simp [hlen, eq_comm]
  · rw [if_neg hlen]
    simp [hlen]

/-- Without `>` or `<` two tokens before the end nothing is done. -/
theorem redirect_plain (h : ∀ token, l[l.length - 2]? = some token → token ∉ operators) :
    redirect sys (tokenArray l) l.length = some (sys.descriptors, tokenArray l) := by
  unfold redirect
  rw [getElem?_tokenArray]
  split_ifs with hlen
  · have htoken := List.getElem?_eq_getElem (show l.length - 2 < l.length by omega)
    have hplain := h _ htoken
    rw [htoken]
    simp only [operators, List.map_cons, List.mem_cons, not_or] at hplain
    simp [Ne.symm hplain.1, Ne.symm hplain.2.1]
  · rfl

/-- The descriptors after a redirection: a file is opened, copied and closed again. -/
def redirected (std : ℕ) (name : CStr) : Descriptors F :=
  close (dup2 (Function.update sys.descriptors (sys.openFile name).1 (some (sys.openFile name).2))
    (sys.openFile name).1 std) (sys.openFile name).1

theorem redirect_eq (words : List CStr) (d : Direction) (name : CStr) (hne : words ≠ []) :
    redirect sys (tokenArray (words ++ [d.token, name])) (words ++ [d.token, name]).length
      = some (redirected sys d.std name,
          (tokenArray (words ++ [d.token, name])).set words.length none) := by
  have hpos := List.length_pos_iff.2 hne
  have hlen : (words ++ [d.token, name]).length = words.length + 2 := by simp
  unfold redirect redirectTo
  rw [if_pos (by omega)]
  simp only [getElem?_tokenArray, hlen, Nat.add_sub_cancel]
  have hname : (words ++ [d.token, name])[words.length + 2 - 1]? = some name := by
    simp
  have htoken : (words ++ [d.token, name])[words.length]? = some d.token := by
    simp
  rw [hname, htoken]
  cases d
  · have hne : CStr.ofString ">" ≠ CStr.ofString "<" := by decide +kernel
    simp [Direction.token, Direction.std, hne, redirected]
  · simp [Direction.token, Direction.std, redirected]

/-- The file ends up in the place of the standard descriptor, unless it was opened there. -/
theorem redirected_eq_iff (std : ℕ) (name : CStr) :
    redirected sys std name = Function.update sys.descriptors std (some (sys.openFile name).2)
      ↔ (sys.openFile name).1 ≠ std := by
  have hunused := sys.unused name
  unfold redirected
  rcases hopen : sys.openFile name with ⟨openInt, file⟩
  rw [hopen] at hunused
  simp only at hunused ⊢
  refine ⟨?_, fun hne => funext fun fd => ?_⟩
  · rintro h rfl
    have hstd := congrFun h openInt
    simp [close] at hstd
  · rcases eq_or_ne fd openInt with rfl | hfd
    · simp [close, hne, hunused]
    · rcases eq_or_ne fd std with rfl | hstd
      · simp [close, dup2, hfd]
      · simp [close, dup2, hfd, hstd]

end Parts

/-! ## The whole line -/

namespace CommandLine

variable (c : CommandLine)

theorem ne_ampersand {w : CStr} (hw : w ∉ operators) : w ≠ CStr.ofString "&" := by
  rintro rfl
  exact hw (by simp [operators])

theorem getElem?_tokens_zero : c.tokens[0]? = some c.command := rfl

theorem background_tokens :
    background (tokenArray c.tokens) c.tokens.length = some c.inBackground := by
  have hplain : ∀ w ∈ c.words, w ≠ CStr.ofString "&" := fun w hw => ne_ampersand (c.plain w hw)
  rw [background_eq, Option.some_inj, Bool.eq_iff_iff, decide_eq_true_eq]
  unfold tokens lineTokens
  rcases hbg : c.inBackground
  · rcases hred : c.redirection with _ | ⟨d, name⟩
    · simp only [Option.elim, Bool.false_eq_true, if_false, List.append_nil, iff_false, not_and]
      exact fun _ hlast => hplain _ (List.mem_of_getLast? hlast) rfl
    · simpa using ne_ampersand (c.namePlain _ hred)
  · refine iff_of_true ⟨?_, by simp⟩ rfl
    simp [words]
    omega

theorem shellLine_tokens (sys : System F) : shellLine sys (tokenArray c.tokens)
    = (child sys (tokenArray c.tokens) c.tokens.length c.inBackground).map
      (LineRun.command · (!c.inBackground)) := by
  have hlookup : lookup (tokenArray c.tokens)[0]?.join = none := by
    rw [getElem?_tokenArray, getElem?_tokens_zero]
    simpa [lookup] using fun x hx => ne_of_mem_of_not_mem hx c.notBuiltin
  unfold shellLine
  rw [hlookup]
  simp only [tokenLen_tokenArray (show c.tokens.length < maxtoks from c.fits),
    Option.bind_eq_bind, Option.bind_some, c.background_tokens]
  cases child sys (tokenArray c.tokens) c.tokens.length c.inBackground <;> rfl

/-- The child where no redirection is found: an `&` is cut off, and nothing else. -/
theorem child_plain (sys : System F)
    (h : ∀ token, c.tokens[c.tokens.length - 2]? = some token → token ∉ operators) :
    child sys (tokenArray c.tokens) c.tokens.length c.inBackground
      = some ⟨c.command, if c.inBackground then c.tokens.dropLast else c.tokens,
        sys.descriptors⟩ := by
  unfold child
  rw [redirect_plain sys h]
  rcases hbg : c.inBackground
  · simp [getElem?_tokenArray, beforeNull_tokenArray, getElem?_tokens_zero]
  · have hpos : 0 < c.tokens.length - 1 := by
      simp [tokens, lineTokens, words, hbg]
    simp [getElem?_set_tokenArray _ hpos, beforeNull_set, beforeNull_tokenArray,
      List.dropLast_eq_take, getElem?_tokens_zero]

theorem child_redirected (sys : System F) {d : Direction} {name : CStr}
    (hred : c.redirection = some (d, name)) (hbg : c.inBackground = false) :
    child sys (tokenArray c.tokens) c.tokens.length c.inBackground
      = some ⟨c.command, c.words, redirected sys d.std name⟩ := by
  have htokens : c.tokens = c.words ++ [d.token, name] := by
    simp [tokens, lineTokens, hred, hbg]
  have hpos : 0 < c.words.length := List.length_pos_iff.2 (List.cons_ne_nil _ _)
  unfold child
  rw [htokens, redirect_eq sys c.words d name (List.cons_ne_nil _ _), hbg]
  simp only [Option.bind_eq_bind, Option.bind_some, Bool.false_eq_true, if_false, beforeNull_set,
    beforeNull_tokenArray, List.take_left, getElem?_set_tokenArray _ (i := c.words.length) hpos]
  rfl

end CommandLine

/-- The line is executed right just if it does not have both a redirection and an `&`, and `open`
does not return the descriptor that is redirected. -/
theorem shellLine_eq_iff (sys : System F) (c : CommandLine) :
    shellLine sys (tokenArray c.tokens) = some (c.execution sys) ↔
      (c.redirection = none ∨ c.inBackground = false) ∧
        ∀ r ∈ c.redirection, (sys.openFile r.2).1 ≠ r.1.std := by
  unfold CommandLine.execution
  rw [c.shellLine_tokens]
  rcases hred : c.redirection with _ | ⟨d, name⟩
  · have htokens : c.tokens = c.words ++ if c.inBackground then [CStr.ofString "&"] else [] := by
      simp [CommandLine.tokens, lineTokens, hred]
    have hplain : ∀ token, c.tokens[c.tokens.length - 2]? = some token → token ∈ c.words := by
      intro token htoken
      have hpos : 0 < c.words.length := List.length_pos_iff.2 (List.cons_ne_nil _ _)
      rw [htokens] at htoken
      rcases hbg : c.inBackground <;> rw [hbg] at htoken
      · simp only [Bool.false_eq_true, if_false, List.append_nil] at htoken
        exact List.mem_of_getElem? htoken
      · rw [List.getElem?_append_left (by simp; omega)] at htoken
        exact List.mem_of_getElem? htoken
    rw [c.child_plain sys fun token htoken => c.plain token (hplain token htoken)]
    rcases hbg : c.inBackground <;> simp [htokens, hbg]
  · rcases hbg : c.inBackground
    · rw [← hbg, c.child_redirected sys hred hbg]
      simp [redirected_eq_iff]
    · have htokens : c.tokens = c.words ++ [d.token, name, CStr.ofString "&"] := by
        simp [CommandLine.tokens, lineTokens, hred, hbg]
      rw [← hbg, c.child_plain sys fun token htoken => ?_]
      · simp [htokens, hbg]
      · simp [htokens] at htoken
        exact htoken ▸ c.namePlain _ hred

/-- A line that has the tokens for words is tokenized to their array. -/
theorem shellInput_eq (sys : System F) (c : CommandLine) {line : CStr}
    (h : CLib.words tokSeparator line.bytes = c.tokens.map CStr.bytes) :
    shellInput sys line = shellLine sys (tokenArray c.tokens) := by
  obtain ⟨ptrs, htoks, hptrs⟩ := getToks_eq line
  have hfits : c.tokens.length < maxtoks := c.fits
  have htokens : ptrs.map (fun p => cstr ((getToks line).2.drop p)) = c.tokens := by
    refine List.map_injective_iff.2 (fun _ _ => CStr.ext) ?_
    rw [h, List.take_of_length_le (by simpa using hfits.le)] at hptrs
    rw [← hptrs, List.map_map]
    rfl
  have hlen : ptrs.length = c.tokens.length := by rw [← htokens, List.length_map]
  unfold shellInput
  simp only [htoks, List.map_append, List.map_map, List.map_replicate, Option.map_none, hlen]
  rw [tokenArray, ← htokens, List.map_map]
  rfl

/-- `cat < f &`. -/
def catInBackground : CommandLine where
  command := .ofString "cat"
  args := []
  redirection := some (.input, .ofString "f")
  inBackground := true
  notBuiltin := by decide +kernel
  plain := by decide +kernel
  namePlain := by
    rintro _ ⟨⟩
    decide +kernel
  fits := by decide +kernel

/-- The three standard descriptors are open, and the next file opened gets the fourth. -/
def standardSystem : System Unit where
  descriptors fd := if fd < 3 then some () else none
  openFile _ := (3, ())
  unused _ := rfl

/-- The argument vector of a child. -/
def LineRun.argv : LineRun F → List CStr
  | .builtin _ _ => []
  | .command child _ => child.argv

theorem catInBackground_wrong : shellLine standardSystem (tokenArray catInBackground.tokens)
    ≠ some (catInBackground.execution standardSystem) := fun h => by
  have hargv := congrArg (Option.map LineRun.argv) h
  revert hargv
  decide +kernel

end Cs162
