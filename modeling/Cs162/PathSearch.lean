import Cs162.Lib.Strtok

/-!
# The search through `PATH`

The end of the child in `shell` of `hw1/shell.c`: `execv` of the command as it is, and then in each
directory of `PATH`. `strtok` cuts up the string `getenv` returned, which is the one in the
environment, so it is kept what a program would find there at each call. The argument vector is the
same in all calls.
-/

namespace Cs162

open CLib

/-- The size of `path`. -/
def pathSize : ℕ := 1024

def pathSeparator (b : UInt8) : Bool := b = byte ':'

/-- A call of `execv`: the path, and what `PATH` is in the environment then. -/
structure ExecCall where
  path : CStr
  pathString : CStr
deriving DecidableEq

/-- How the child goes on: as the program, by its last `return`, or having written over the end of
`path`. -/
inductive ChildEnd
  | executed
  | returned
  | overflow
deriving DecidableEq

/-- `path` after `strcpy` and the two calls of `strcat`. -/
def commandPath (tokenPath : List UInt8) (command : CStr) : CStr :=
  cstr (tokenPath ++ byte '/' :: command.bytes)

/-- The loop, given what the last call of `strtok` returned. `execv` succeeds for the paths in
`programs`. -/
def pathLoop (programs : CStr → Bool) (command : CStr) :
    ℕ → Option ℕ → Strtok → List ExecCall × ChildEnd
  | fuel + 1, some tokenPath, s =>
    let path := commandPath (stringAt s.mem tokenPath) command
    if pathSize < path.strlen + 1 then ([], .overflow)
    else
      let call : ExecCall := ⟨path, cstr s.mem⟩
      if programs path then ([call], .executed)
      else
        let next := strtok pathSeparator s none
        let rest := pathLoop programs command fuel next.1 next.2
        (call :: rest.1, rest.2)
  | _, _, _ => ([], .returned)

/-- The child from its first call of `execv` on, where `PATH` is set. -/
def runCommand (programs : CStr → Bool) (pathString command : CStr) : List ExecCall × ChildEnd :=
  if programs command then ([⟨command, pathString⟩], .executed)
  else
    let first := strtok pathSeparator ⟨pathString.layout, 0⟩ (some 0)
    let rest := pathLoop programs command (pathString.strlen + 1) first.1 first.2
    (⟨command, pathString⟩ :: rest.1, rest.2)

end Cs162
