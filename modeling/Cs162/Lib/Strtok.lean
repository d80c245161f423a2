import Cs162.Lib.Bytes
import Cs162.Lib.Words

/-!
# `strtok`

`strtok` hands out the words of a string one a call. It works in the string itself, where it writes
a terminator over the separator behind each word, and keeps the position to go on from.

The string that the memory starts with is cut off behind its first word by the first call
(`cstr_strtok_first`), and no later call changes it (`cstr_strtok`).

Called in the middle of its work, with `done` in front of the position and `t` left, it finds no
word in `t`, or the first one (`strtok_cases`). The bytes of a word lie in front of the new position
then, where later calls write nothing.
-/

namespace CLib

/-- The memory a string lies in, and the position `strtok` goes on from. -/
structure Strtok where
  mem : List UInt8
  saved : ℕ

/-- `strtok`, on the string at a position or, given NULL, from the saved one on. -/
def strtok (sep : UInt8 → Bool) (s : Strtok) (str : Option ℕ) : Option ℕ × Strtok :=
  let pos := str.getD s.saved
  let string := (cstr (s.mem.drop pos)).bytes
  let start := pos + (string.takeWhile sep).length
  let rest := string.dropWhile sep
  let token := rest.takeWhile (! sep ·)
  if rest = [] then (none, { s with saved := start })
  else if token = rest then (some start, { s with saved := start + token.length })
  else (some start, ⟨s.mem.set (start + token.length) 0, start + token.length + 1⟩)

/-- The string a pointer points to. -/
def stringAt (mem : List UInt8) (p : ℕ) : List UInt8 := (cstr (mem.drop p)).bytes

theorem stringAt_append {front s : List UInt8} (hs : 0 ∉ s) (tail : List UInt8) :
    stringAt (front ++ (s ++ 0 :: tail)) front.length = s := by
  rw [stringAt, List.drop_left]
  exact takeWhile_ne hs tail

theorem set_append_cons {α : Type*} (l : List α) (a b : α) (r : List α) :
    (l ++ a :: r).set l.length b = l ++ b :: r := by
  simp [List.set_append_right]

variable {sep : UInt8 → Bool} {s : Strtok} {str : Option ℕ} {done t : List UInt8}

variable (sep) in
/-- A call with `t` left: no word is left, or the first one is found behind `front`, and `done'` is
done then. -/
theorem strtok_cases (hpos : str.getD s.saved = done.length) (hmem : s.mem = done ++ (t ++ [0]))
    (ht : 0 ∉ t) :
    (words sep t = [] ∧ ∃ n, strtok sep s str = (none, ⟨s.mem, n⟩)) ∨
    ∃ front w cut t', words sep t = w :: words sep t' ∧ done <+: front ∧ 0 ∉ w ∧ 0 ∉ t' ∧
      (front ++ (w ++ cut)).length + t'.length = done.length + t.length ∧
      (cut = [0] ∨ cut = [] ∧ t' = []) ∧
      strtok sep s str = (some front.length,
        ⟨front ++ (w ++ cut) ++ (t' ++ [0]), (front ++ (w ++ cut)).length⟩) := by
  have hstring : (cstr (s.mem.drop done.length)).bytes = t := by
    rw [hmem]
    exact stringAt_append ht []
  have hsplit : t.takeWhile sep ++ t.dropWhile sep = t := List.takeWhile_append_dropWhile
  unfold strtok
  simp only [hpos, hstring]
  rcases hrest : t.dropWhile sep with _ | ⟨b, rest⟩
  · refine .inl ⟨?_, _, if_pos rfl⟩
    rw [← words_dropWhile, hrest]
    rfl
  · have hb : sep b = false := dropWhile_head hrest
    rw [if_neg (List.cons_ne_nil b rest)]
    rw [hrest] at hsplit
    have hwords : words sep t = (b :: rest.takeWhile (! sep ·)) ::
        words sep (rest.dropWhile (! sep ·)) := by
      rw [← words_dropWhile, hrest, words_cons hb]
    have htoken : (b :: rest).takeWhile (! sep ·) = b :: rest.takeWhile (! sep ·) :=
      List.takeWhile_cons_of_pos (by simp [hb])
    have hrest' : rest.takeWhile (! sep ·) ++ rest.dropWhile (! sep ·) = rest :=
      List.takeWhile_append_dropWhile
    rw [hwords, htoken]
    generalize t.takeWhile sep = seps at *
    generalize rest.takeWhile (! sep ·) = token at *
    rcases hcut : rest.dropWhile (! sep ·) with _ | ⟨z, t'⟩
    · rw [hcut, List.append_nil] at hrest'
      subst hrest' hsplit
      simp only [List.mem_append, not_or] at ht
      refine .inr ⟨done ++ seps, b :: token, [], [], rfl, List.prefix_append _ _, ht.2,
        List.not_mem_nil, by simp, .inr ⟨rfl, rfl⟩, ?_⟩
      rw [if_pos rfl, hmem]
      simp [Nat.add_assoc]
    · have hz : sep z = true := by simpa using dropWhile_head hcut
      rw [hcut] at hrest'
      subst hrest' hsplit
      simp only [List.mem_append, List.mem_cons, not_or] at ht
      have hset := set_append_cons (done ++ seps ++ b :: token) z 0 (t' ++ [0])
      refine .inr ⟨done ++ seps, b :: token, [0], t', by rw [words_cons_sep hz],
        List.prefix_append _ _, by simp [ht], ht.2.2.2.2, by simp; omega, .inl rfl, ?_⟩
      rw [if_neg (by simp), hmem]
      simp only [List.length_append, List.append_assoc, List.cons_append, List.nil_append] at hset ⊢
      simp only [← Nat.add_assoc] at hset ⊢
      rw [hset]
      simp [Nat.add_assoc]

/-- Where a NUL is in front of the position, or nothing is left, a call leaves the string alone that
the memory starts with. -/
theorem cstr_strtok (hpos : str.getD s.saved = done.length) (hmem : s.mem = done ++ (t ++ [0]))
    (ht : 0 ∉ t) (hend : 0 ∈ done ∨ t = []) : cstr (strtok sep s str).2.mem = cstr s.mem := by
  rcases strtok_cases sep hpos hmem ht with ⟨-, n, hcall⟩ |
    ⟨front, w, cut, t', hwords, hfront, -, -, -, -, hcall⟩
  · rw [hcall]
  · rcases hend with hnul | rfl
    · have hmem' : done <+: front ++ (w ++ cut) ++ (t' ++ [0]) :=
        hfront.trans (by simp only [List.append_assoc, List.prefix_append])
      rw [hcall, cstr_eq_of_prefix hmem' hnul, hmem, cstr_eq_of_prefix (List.prefix_append ..) hnul]
    · cases hwords

/-- What is left of a string after the first call. -/
theorem cstr_strtok_first (c : CStr) : cstr (strtok sep ⟨c.layout, 0⟩ (some 0)).2.mem =
    cstr (c.bytes.takeWhile sep ++ (c.bytes.dropWhile sep).takeWhile (! sep ·)) := by
  have hstring : (cstr (c.layout.drop 0)).bytes = c.bytes := by rw [List.drop_zero, cstr_layout]
  have hsplit : c.bytes.takeWhile sep ++ c.bytes.dropWhile sep = c.bytes :=
    List.takeWhile_append_dropWhile
  have hrest : (c.bytes.dropWhile sep).takeWhile (! sep ·) ++
      (c.bytes.dropWhile sep).dropWhile (! sep ·) = c.bytes.dropWhile sep :=
    List.takeWhile_append_dropWhile
  simp only [strtok, Option.getD_some, hstring, Nat.zero_add]
  generalize c.bytes.takeWhile sep = seps at *
  generalize (c.bytes.dropWhile sep).takeWhile (! sep ·) = token at *
  rcases hcut : (c.bytes.dropWhile sep).dropWhile (! sep ·) with _ | ⟨z, tail⟩
  · rw [hcut, List.append_nil] at hrest
    rw [hrest, hsplit, cstr_bytes, if_pos rfl]
    split_ifs <;> exact cstr_layout c
  · rw [hcut] at hrest
    have hbytes : c.bytes = seps ++ token ++ z :: tail := by rw [List.append_assoc, hrest, hsplit]
    have hnoNul : 0 ∉ seps ++ token := fun h => c.noNul (hbytes ▸ List.mem_append_left _ h)
    have hset := set_append_cons (seps ++ token) z 0 (tail ++ [0])
    rw [List.length_append] at hset
    rw [← hrest, if_neg (by simp), if_neg (by simp), CStr.layout, hbytes,
      List.append_assoc _ (z :: tail), List.cons_append, hset]
    ext1
    rw [bytes_cstr hnoNul]
    exact takeWhile_ne hnoNul _

end CLib
