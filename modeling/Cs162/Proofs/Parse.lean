import Cs162.Shell

/-!
# What the tokenizer returns

The array holds the first `maxtoks` words of the line, and NULL behind them as far as it reaches
(`getToks_eq`). So it is terminated just if the line has fewer words (`getToks_exact_iff`): the
loop fills the last entry too.
-/

namespace Cs162

open CLib

/-- The strings of the entries before the first NULL. -/
def tokenStrings (toks : List (Option ℕ)) (mem : List UInt8) : List (List UInt8) :=
  (beforeNull toks).map (stringAt mem)

/-- The array holds the words of the line, and a NULL that ends the shell's scan. -/
structure Exact (line : CStr) (toks : List (Option ℕ)) (mem : List UInt8) : Prop where
  length : toks.length = maxtoks
  strings : tokenStrings toks mem = words tokSeparator line.bytes
  terminated : none ∈ toks
  scanned : (tokenLen toks).isSome

/-! ## Arrays -/

theorem beforeNull_append {α : Type*} : ∀ (l : List α) (n : ℕ),
    beforeNull (l.map some ++ List.replicate n none) = l
  | [], 0 => rfl
  | [], _ + 1 => rfl
  | a :: l, _ => congrArg (a :: ·) (beforeNull_append l _)

theorem tokenLen_isSome_iff {α : Type*} : ∀ tokens : List (Option α),
    (tokenLen tokens).isSome ↔ none ∈ tokens
  | [] => by simp [tokenLen]
  | none :: tokens => by simp [tokenLen]
  | some _ :: tokens => by simp [tokenLen, tokenLen_isSome_iff tokens]

/-! ## The loop -/

theorem exists_behind {done front t : List UInt8} {n : ℕ} (hfront : done <+: front)
    (hlength : front.length + t.length = done.length + n) (last : List UInt8) :
    ∃ t', t'.length = n ∧ front ++ (t ++ last) = done ++ (t' ++ last) := by
  obtain ⟨mid, rfl⟩ := hfront
  rw [List.length_append] at hlength
  exact ⟨mid ++ t, by rw [List.length_append]; omega, by simp only [List.append_assoc]⟩

/-- From a position on, with `t` left of the line: the loop adds the first words of `t`, and writes
nothing in front of it. -/
theorem getToksLoop_eq : ∀ (left : ℕ) (filled : List ℕ) (s : Strtok) (str : Option ℕ)
    (done t : List UInt8), filled.length + left = maxtoks → str.getD s.saved = done.length →
    s.mem = done ++ (t ++ [0]) → 0 ∉ t →
    ∃ ptrs t' n, t'.length = t.length ∧
      getToksLoop left (filled.map some ++ List.replicate left none)
        (strtok tokSeparator s str).1 (strtok tokSeparator s str).2
        = ((filled ++ ptrs).map some ++ List.replicate (left - ptrs.length) none,
          ⟨done ++ (t' ++ [0]), n⟩) ∧
      ptrs.map (stringAt (done ++ (t' ++ [0]))) = (words tokSeparator t).take left := by
  intro left
  induction left with
  | zero =>
    intro filled s str done t hlen hpos hmem ht
    rcases strtok_cases tokSeparator hpos hmem ht with
      ⟨-, n, hcall⟩ | ⟨front, w, cut, t', -, hfront, -, -, hlength, -, hcall⟩
    · exact ⟨[], t, n, rfl, by simp [hcall, hmem, getToksLoop], rfl⟩
    · obtain ⟨t₁, ht₁, hmem₁⟩ := exists_behind (hfront.trans (List.prefix_append _ _)) hlength [0]
      refine ⟨[], t₁, (front ++ (w ++ cut)).length, ht₁, ?_, rfl⟩
      rw [hcall, hmem₁]
      simp [getToksLoop]
  | succ left ih =>
    intro filled s str done t hlen hpos hmem ht
    rcases strtok_cases tokSeparator hpos hmem ht with
      ⟨hwords, n, hcall⟩ | ⟨front, w, cut, t', hwords, hfront, hw, ht', hlength, hcut, hcall⟩
    · exact ⟨[], t, n, rfl, by simp [hcall, hmem, getToksLoop], by rw [hwords]; rfl⟩
    · obtain ⟨ptrs, t₁, n, hlen₁, hloop, hptrs⟩ := ih (filled ++ [front.length])
        ⟨front ++ (w ++ cut) ++ (t' ++ [0]), (front ++ (w ++ cut)).length⟩ none
        (front ++ (w ++ cut)) t' (by simp; omega) rfl rfl ht'
      have hset : (filled.map some ++ List.replicate (left + 1) none).set (maxtoks - (left + 1))
          (some front.length)
          = (filled ++ [front.length]).map some ++ List.replicate left none := by
        have h := set_append_cons (filled.map some) none (some front.length)
          (List.replicate left none)
        rw [List.length_map] at h
        rw [List.replicate_succ, ← hlen, Nat.add_sub_cancel, h]
        simp
      obtain ⟨t₂, ht₂, hmem₂⟩ := exists_behind (hfront.trans (List.prefix_append _ _))
        (hlen₁ ▸ hlength) [0]
      have hstring : stringAt (done ++ (t₂ ++ [0])) front.length = w := by
        rw [← hmem₂, List.append_assoc, List.append_assoc]
        rcases hcut with rfl | ⟨rfl, rfl⟩
        · exact stringAt_append hw _
        · rw [List.eq_nil_of_length_eq_zero hlen₁]
          exact stringAt_append hw []
      refine ⟨front.length :: ptrs, t₂, n, ht₂, ?_, ?_⟩
      · rw [hcall, ← hmem₂]
        simp only [getToksLoop, hset, hloop]
        simp
      · rw [← hmem₂] at hstring ⊢
        rw [List.map_cons, hstring, hwords, List.take_succ_cons, hptrs]

/-- The array holds the first words of the line, then NULL. -/
theorem getToks_eq (line : CStr) : ∃ ptrs : List ℕ, (getToks line).1
      = ptrs.map some ++ List.replicate (maxtoks - ptrs.length) none ∧
    ptrs.map (stringAt (getToks line).2) = (words tokSeparator line.bytes).take maxtoks := by
  obtain ⟨ptrs, t, n, -, hloop, hptrs⟩ := getToksLoop_eq maxtoks [] ⟨line.layout, 0⟩ (some 0) []
    line.bytes rfl rfl rfl line.noNul
  rw [List.map_nil, List.nil_append] at hloop
  have htoks : getToks line = (ptrs.map some ++ List.replicate (maxtoks - ptrs.length) none,
      t ++ [0]) := by
    unfold getToks
    simp only [hloop]
    rfl
  rw [htoks]
  exact ⟨ptrs, rfl, hptrs⟩

/-- It holds a NULL just if there are fewer words than entries. -/
theorem getToks_terminated_iff (line : CStr) :
    none ∈ (getToks line).1 ↔ (words tokSeparator line.bytes).length < maxtoks := by
  obtain ⟨ptrs, htoks, hptrs⟩ := getToks_eq line
  have hlen : ptrs.length = min maxtoks (words tokSeparator line.bytes).length := by
    rw [← List.length_take, ← hptrs, List.length_map]
  rw [htoks, List.mem_append, List.mem_replicate]
  simp
  omega

/-- The array is right just if the line has fewer words than the array has entries. -/
theorem getToks_exact_iff (line : CStr) :
    Exact line (getToks line).1 (getToks line).2 ↔
      (words tokSeparator line.bytes).length < maxtoks := by
  have hnull := getToks_terminated_iff line
  refine ⟨fun h => hnull.1 h.terminated, fun hlt => ?_⟩
  obtain ⟨ptrs, htoks, hptrs⟩ := getToks_eq line
  rw [List.take_of_length_le hlt.le] at hptrs
  have hlen : ptrs.length < maxtoks := by rwa [← hptrs, List.length_map] at hlt
  refine ⟨?_, ?_, hnull.2 hlt, ?_⟩
  · rw [htoks, List.length_append, List.length_map, List.length_replicate]
    omega
  · rw [htoks, tokenStrings, beforeNull_append, hptrs]
  · rw [tokenLen_isSome_iff]
    exact hnull.2 hlt

/-- A hundred words `a`. -/
def hundredWords : CStr := cstr (List.replicate 100 [97, 32]).flatten

theorem hundredWords_not_exact :
    ¬ Exact hundredWords (getToks hundredWords).1 (getToks hundredWords).2 := fun h =>
  absurd ((getToks_terminated_iff hundredWords).1 h.terminated) (by decide +kernel)

end Cs162
