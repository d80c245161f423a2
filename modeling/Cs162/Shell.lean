import Cs162.Parse
import Mathlib.Logic.Function.Basic

/-!
# The shell

The loop body of `shell` in `hw1/shell.c`, from the tokens of a line on. An entry of the token array
is given as the string it points to. Signals, the terminal and the search through `PATH`, which
passes the same argument vector on, are left out.

`F` stands for open files. A descriptor table says which of them each descriptor refers to.
-/

namespace Cs162

open CLib

/-- The names in `cmd_table`. -/
def cmdTable : List CStr := ["?", "quit", "pwd", "cd"].map CStr.ofString

def lookup (cmd : Option CStr) : Option ℕ := cmd.bind fun cmd => cmdTable.findIdx? (· = cmd)

/-- The scan for the first NULL entry. It gives `none` if it leaves the array. -/
def tokenLen {α : Type*} : List (Option α) → Option ℕ
  | [] => none
  | none :: _ => some 0
  | some _ :: tokens => (tokenLen tokens).map (· + 1)

abbrev Descriptors (F : Type) := ℕ → Option F

/-- What the shell finds: the open descriptors, and what `open` returns for a name, which is no
descriptor that is open already. -/
structure System (F : Type) where
  descriptors : Descriptors F
  openFile : CStr → ℕ × F
  unused : ∀ name, descriptors (openFile name).1 = none

variable {F : Type}

def dup2 (fds : Descriptors F) (oldfd newfd : ℕ) : Descriptors F :=
  Function.update fds newfd (fds oldfd)

def close (fds : Descriptors F) (fd : ℕ) : Descriptors F := Function.update fds fd none

/-- The body of both branches: the file named by the last token is opened, and takes the place of
descriptor `std`. -/
def redirectTo (std : ℕ) (sys : System F) (tokens : List (Option CStr)) (tokenLen : ℕ) :
    Option (Descriptors F × List (Option CStr)) := do
  let name ← tokens[tokenLen - 1]?.join
  let (openInt, file) := sys.openFile name
  let fds := Function.update sys.descriptors openInt (some file)
  return (close (dup2 fds openInt std) openInt, tokens.set (tokenLen - 2) none)

/-- The redirection in the child. As everywhere here, `none` means that NULL is read as a string, or
an entry that is not there. -/
def redirect (sys : System F) (tokens : List (Option CStr)) (tokenLen : ℕ) :
    Option (Descriptors F × List (Option CStr)) := do
  if tokenLen > 2 then
    let token ← tokens[tokenLen - 2]?.join
    if CStr.ofString ">" = token then redirectTo 1 sys tokens tokenLen
    else if CStr.ofString "<" = token then redirectTo 0 sys tokens tokenLen
    else return (sys.descriptors, tokens)
  else return (sys.descriptors, tokens)

/-- Whether the last token asks for the background. -/
def background (tokens : List (Option CStr)) (tokenLen : ℕ) : Option Bool := do
  if tokenLen ≥ 2 then
    let token ← tokens[tokenLen - 1]?.join
    return CStr.ofString "&" = token
  else return false

/-- A call of `execv`: what it is given, and the descriptors the process has then. -/
structure Execv (F : Type) where
  path : CStr
  argv : List CStr
  descriptors : Descriptors F

/-- What is done about a line: a built-in is called with its arguments, or a child calls `execv`,
and the parent waits for it or does not. -/
inductive LineRun (F : Type)
  | builtin (fundex : ℕ) (args : List (Option CStr))
  | command (child : Execv F) (waits : Bool)

/-- The child, up to its first call of `execv`. -/
def child (sys : System F) (tokens : List (Option CStr)) (tokenLen : ℕ) (inBackground : Bool) :
    Option (Execv F) := do
  let (fds, tokens) ← redirect sys tokens tokenLen
  let tokens : List (Option CStr) :=
    if inBackground then tokens.set (tokenLen - 1) none else tokens
  let path ← tokens[0]?.join
  return ⟨path, beforeNull tokens, fds⟩

/-- The loop body of `shell`, given the tokens. -/
def shellLine (sys : System F) (tokens : List (Option CStr)) : Option (LineRun F) := do
  match lookup tokens[0]?.join with
  | some fundex => return .builtin fundex tokens.tail
  | none =>
    let tokenLen ← tokenLen tokens
    let inBackground ← background tokens tokenLen
    let child ← child sys tokens tokenLen inBackground
    return .command child (!inBackground)

/-- The loop body from the line on. -/
def shellInput (sys : System F) (line : CStr) : Option (LineRun F) :=
  let (toks, mem) := getToks line
  shellLine sys (toks.map (Option.map fun p => cstr (mem.drop p)))

end Cs162
