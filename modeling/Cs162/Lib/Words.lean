import Mathlib.Data.List.TakeWhile

/-!
# Words of a list

The words of a list are its maximal runs of elements that are no separators. A list that starts
with a separator has the words of the rest, and any other starts with its first word
(`words_cons`). So a word starts wherever an element that is no separator has one in front of it,
or nothing (`length_words`).

A stretch of elements ends where the first one comes that is of another kind (`span_append`). A list
that starts another one has the same stretch in front of its first separator (`prefix_append_cons`).
-/

namespace CLib

variable {α : Type*} {sep : α → Bool} {a : α} {l w : List α}

/-- The maximal runs of elements that are no separators. -/
def words (sep : α → Bool) (l : List α) : List (List α) := (l.splitOnP sep).filter (! ·.isEmpty)

theorem words_cons_sep (ha : sep a = true) : words sep (a :: l) = words sep l := by
  have h := List.splitOnP_append_cons (p := sep) [] l ha
  rw [List.nil_append] at h
  simp [words, h]

theorem words_append_sep (hw : ∀ b ∈ w, sep b = false) (hne : w ≠ []) (ha : sep a = true) :
    words sep (w ++ a :: l) = w :: words sep l := by
  rw [words, List.splitOnP_append_cons_of_forall_mem hw a ha, List.filter_cons_of_pos]
  · rfl
  · simpa using hne

theorem words_eq_singleton (hw : ∀ b ∈ w, sep b = false) (hne : w ≠ []) : words sep w = [w] := by
  simp [words, List.splitOnP_eq_singleton hw, hne]

theorem words_dropWhile : ∀ l : List α, words sep (l.dropWhile sep) = words sep l
  | [] => rfl
  | a :: l => by
    rw [List.dropWhile_cons]
    split_ifs with ha
    · rw [words_cons_sep ha, words_dropWhile l]
    · rfl

/-- The rest starts with an element that ends the stretch skipped. -/
theorem dropWhile_head {p : α → Bool} {rest : List α} (h : l.dropWhile p = a :: rest) :
    p a = false := by
  have hhead := List.head_dropWhile_not p (h ▸ List.cons_ne_nil a rest)
  simpa [h] using hhead

/-- A stretch ends at the first element that does not belong to it. -/
theorem span_append {p : α → Bool} {r : List α} (hl : ∀ a ∈ l, p a = true)
    (hr : ∀ a ∈ r.head?, p a = false) :
    (l ++ r).takeWhile p = l ∧ (l ++ r).dropWhile p = r := by
  rw [List.takeWhile_append_of_pos hl, List.dropWhile_append_of_pos hl]
  rcases r with _ | ⟨a, r⟩
  · exact ⟨by simp, rfl⟩
  · have ha : p a = false := hr a rfl
    rw [List.takeWhile_cons_of_neg (by simp [ha]), List.dropWhile_cons_of_neg (by simp [ha])]
    exact ⟨by simp, rfl⟩

/-- A prefix has the same stretch up to a separator, and goes on as a prefix behind it. -/
theorem prefix_append_cons {c : α} : ∀ {a b x y : List α}, c ∉ a → c ∉ b →
    a ++ c :: x <+: b ++ c :: y → a = b ∧ x <+: y
  | [], [], _, _, _, _, h => ⟨rfl, (List.cons_prefix_cons.1 h).2⟩
  | [], b' :: b, _, _, _, hb, h => by
    obtain ⟨rfl, -⟩ := List.cons_prefix_cons.1 h
    exact absurd List.mem_cons_self hb
  | a' :: a, [], _, _, ha, _, h => by
    obtain ⟨rfl, -⟩ := List.cons_prefix_cons.1 h
    exact absurd List.mem_cons_self ha
  | a' :: a, b' :: b, _, _, ha, hb, h => by
    rw [List.cons_append, List.cons_append] at h
    obtain ⟨rfl, hrest⟩ := List.cons_prefix_cons.1 h
    obtain ⟨rfl, hxy⟩ := prefix_append_cons (fun hc => ha (List.mem_cons_of_mem _ hc))
      (fun hc => hb (List.mem_cons_of_mem _ hc)) hrest
    exact ⟨rfl, hxy⟩

theorem takeWhile_not (sep : α → Bool) (l : List α) :
    ∀ b ∈ l.takeWhile (! sep ·), sep b = false := fun b hb => by
  simpa using List.mem_takeWhile_imp hb

/-- The first word, and what is behind it. -/
theorem words_cons (ha : sep a = false) :
    words sep (a :: l) = (a :: l.takeWhile (! sep ·)) :: words sep (l.dropWhile (! sep ·)) := by
  have hw : ∀ b ∈ a :: l.takeWhile (! sep ·), sep b = false :=
    List.forall_mem_cons.2 ⟨ha, takeWhile_not sep l⟩
  have hsplit : a :: l = (a :: l.takeWhile (! sep ·)) ++ l.dropWhile (! sep ·) := by
    rw [List.cons_append, List.takeWhile_append_dropWhile]
  rcases hrest : l.dropWhile (! sep ·) with _ | ⟨b, rest⟩
  · rw [hrest, List.append_nil] at hsplit
    rw [congrArg (words sep) hsplit, words_eq_singleton hw (List.cons_ne_nil _ _)]
    rfl
  · have hb : sep b = true := by simpa using dropWhile_head hrest
    rw [hrest] at hsplit
    rw [congrArg (words sep) hsplit, words_append_sep hw (List.cons_ne_nil _ _) hb, words_cons_sep hb]

/-! ## Where words start -/

/-- The elements of a list, each with the one in front of it. -/
def pairs (front : Option α) (l : List α) : List (Option α × α) := (front :: l.map some).zip l

@[simp] theorem pairs_nil (front : Option α) : pairs front [] = [] := rfl

@[simp] theorem pairs_cons (front : Option α) (a : α) (l : List α) :
    pairs front (a :: l) = (front, a) :: pairs (some a) l := rfl

theorem countP_pairs_le (p : Option α × α → Bool) (front : Option α) (l : List α) :
    (pairs front l).countP p ≤ l.length :=
  List.countP_le_length.trans (List.length_zip.trans_le (Nat.min_le_right _ _))

/-- No separator, behind one or at the start. -/
def startsWord (sep : α → Bool) (x : Option α × α) : Bool := x.1.all sep && ! sep x.2

/-- Behind an element that is no separator, the rest of its word counts for nothing. -/
theorem length_words_behind (sep : α → Bool) : ∀ (l : List α) (front : Option α),
    (words sep (if front.all sep then l else l.dropWhile (! sep ·))).length
      = (pairs front l).countP (startsWord sep)
  | [], front => by simp [words]
  | a :: l, front => by
    have ih := length_words_behind sep l (some a)
    rw [pairs_cons, List.countP_cons, ← ih, startsWord, Option.all_some]
    cases ha : sep a <;> cases hfront : front.all sep
    · simp [ha]
    · simp [words_cons ha]
    · simp [ha, words_cons_sep ha]
    · simp [words_cons_sep ha]

theorem length_words (sep : α → Bool) (l : List α) :
    (words sep l).length = (pairs none l).countP (startsWord sep) := length_words_behind sep l none

end CLib
