import Cs162.PathSearch

/-!
# Which program runs, and what it finds in `PATH`

The child tries the command in the directories of `PATH`, in their order, until one of them has it
(`runCommand_eq`). But the first call of `strtok` has cut `PATH` behind its first directory, in the
environment that the program gets. So a program that is found there cannot search the other
directories any more.
-/

namespace Cs162

open CLib

/-- The directories of `PATH`. -/
def directories (pathString : CStr) : List (List UInt8) := words pathSeparator pathString.bytes

/-- `PATH` up to the end of its first directory. -/
def firstDirectory (pathString : CStr) : CStr :=
  let seps := pathString.bytes.takeWhile pathSeparator
  let rest := pathString.bytes.dropWhile pathSeparator
  cstr (seps ++ rest.takeWhile (! pathSeparator ·))

/-- The command is tried in one directory after the other, with the same environment. -/
def searchIn (programs : CStr → Bool) (command pathString : CStr) :
    List (List UInt8) → List ExecCall × ChildEnd
  | [] => ([], .returned)
  | dir :: dirs =>
    let path := commandPath dir command
    if pathSize < path.strlen + 1 then ([], .overflow)
    else if programs path then ([⟨path, pathString⟩], .executed)
    else
      let rest := searchIn programs command pathString dirs
      (⟨path, pathString⟩ :: rest.1, rest.2)

variable (programs : CStr → Bool) (command : CStr)

/-- From a call of `strtok` on, with `t` left: the directories in `t` are searched, with what `PATH`
reads after this call. -/
theorem pathLoop_eq : ∀ (fuel : ℕ) {s : Strtok} {str : Option ℕ} {done t : List UInt8},
    str.getD s.saved = done.length → s.mem = done ++ (t ++ [0]) → 0 ∉ t → t.length < fuel →
    pathLoop programs command fuel (strtok pathSeparator s str).1 (strtok pathSeparator s str).2 =
      searchIn programs command (cstr (strtok pathSeparator s str).2.mem) (words pathSeparator t)
  | 0, _, _, _, _, _, _, _, hfuel => absurd hfuel (Nat.not_lt_zero _)
  | fuel + 1, s, str, done, t, hpos, hmem, ht, hfuel => by
    rcases strtok_cases pathSeparator hpos hmem ht with ⟨hwords, n, hcall⟩ |
      ⟨front, w, cut, t', hwords, hfront, hw, ht', hlength, hcut, hcall⟩
    · rw [hcall, hwords]
      rfl
    · have hstring : stringAt (front ++ (w ++ cut) ++ (t' ++ [0])) front.length = w := by
        rw [List.append_assoc, List.append_assoc]
        rcases hcut with rfl | ⟨rfl, rfl⟩
        · exact stringAt_append hw _
        · exact stringAt_append hw []
      have hword : w ≠ [] := by
        have hmem' : w ∈ words pathSeparator t := hwords ▸ List.mem_cons_self
        simpa using (List.mem_filter.1 hmem').2
      have hshorter : t'.length < fuel := by
        have hle : done.length ≤ front.length := hfront.length_le
        have hpos' : 0 < w.length := List.length_pos_iff.2 hword
        simp only [List.length_append] at hlength
        omega
      have hend : 0 ∈ front ++ (w ++ cut) ∨ t' = [] :=
        hcut.imp (fun h => by simp [h]) And.right
      generalize hnext :
        (⟨front ++ (w ++ cut) ++ (t' ++ [0]), (front ++ (w ++ cut)).length⟩ : Strtok) = s' at hcall
      have hpos' : (none : Option ℕ).getD s'.saved = (front ++ (w ++ cut)).length := hnext ▸ rfl
      have hmem' : s'.mem = front ++ (w ++ cut) ++ (t' ++ [0]) := hnext ▸ rfl
      rw [hcall, hwords, pathLoop, searchIn]
      simp only [hmem', hstring]
      rw [pathLoop_eq fuel hpos' hmem' ht' hshorter, cstr_strtok hpos' hmem' ht' hend, hmem']

/-- The command is executed as it is if that can be, and else from the first of the directories of
`PATH` where it is found; a path too long for `path` is written over its end. A program that is
found in a directory finds no more in `PATH` than the first directory. -/
theorem runCommand_eq (pathString : CStr) : runCommand programs pathString command =
    if programs command then ([⟨command, pathString⟩], .executed)
    else
      let rest := searchIn programs command (firstDirectory pathString) (directories pathString)
      (⟨command, pathString⟩ :: rest.1, rest.2) := by
  have hpos : (some 0).getD (⟨pathString.layout, 0⟩ : Strtok).saved = ([] : List UInt8).length :=
    rfl
  have hloop := pathLoop_eq programs command (pathString.strlen + 1) hpos rfl pathString.noNul
    (Nat.lt_succ_self _)
  rw [cstr_strtok_first] at hloop
  simp only [runCommand, hloop]
  rfl

end Cs162
