import Cs162.Wc
import Cs162.Lib.Ints
import Cs162.Lib.Words

/-!
# What the word counter counts

Lines and characters are counted right, up to `2 ^ 63` of them. Words are counted with a tab taken
for a part of a word (`wcLoop_eq`). So a tab at the start, or behind white space, may begin a word
too many, and a word behind a tab may be missed; the counts are right just if as many words are
missed as are counted too many (`wcMain_eq_iff`).
-/

namespace Cs162

open CLib

/-- What should be printed for a stream of these bytes. -/
def wcSpec (bytes : List UInt8) (name : Option CStr) : WcOutput where
  lineCount := bytes.count 10
  wordCount := (words isspace (bytes.filter (· ≠ 0))).length
  charCount := bytes.length
  name := name

/-- The bytes that end a word for `wc`: white space other than the tab. -/
def wcSpace (b : UInt8) : Bool := isspace b && b ≠ 9

/-- The tabs at the start or right behind white space that is no tab. -/
def tabsBehindSpace (bytes : List UInt8) : ℕ :=
  (pairs none bytes).countP fun x => x.1.all wcSpace && x.2 = 9

/-- The bytes that are no white space, right behind a tab. -/
def wordsBehindTab (bytes : List UInt8) : ℕ :=
  (pairs none bytes).countP fun x => x.1 = some 9 && ! isspace x.2

/-! ## The loop -/

theorem wcSpace_iff {c : UInt8} :
    wcSpace c = true ↔ c = 10 ∨ c = 11 ∨ c = 12 ∨ c = 13 ∨ c = 32 := by
  simp only [wcSpace, isspace, Bool.and_eq_true, decide_eq_true_eq]
  grind

/-- One round: a word starts at a byte that is neither a NUL nor taken for white space, if none was
there before it. -/
theorem wcRound_eq (s : WcState) (c : UInt8) : wcRound s c =
    { charCount := longSucc s.charCount
      lineCount := if c = 10 then longSucc s.lineCount else s.lineCount
      wordCount := if c ≠ 0 ∧ s.noWordBefore ∧ wcSpace c = false then longSucc s.wordCount
        else s.wordCount
      noWordBefore := if c = 0 then s.noWordBefore else wcSpace c } := by
  unfold wcRound
  by_cases hspace : wcSpace c = true
  · rcases wcSpace_iff.1 hspace with rfl | rfl | rfl | rfl | rfl <;> simp [hspace]
  · by_cases h0 : c = 0
    · subst h0
      simp
    · have hother := mt wcSpace_iff.2 hspace
      simp only [not_or] at hother
      obtain ⟨h10, h11, h12, h13, h32⟩ := hother
      rw [Bool.not_eq_true] at hspace
      rcases hword : s.noWordBefore <;> simp [hspace, h0, h10, h11, h12, h13, h32, hword]

/-- A `long` that has counted so many. -/
def long (n : ℕ) : ℤ := (n : ℤ).bmod (2 ^ 64)

theorem longSucc_long (n : ℕ) : longSucc (long n) = long (n + 1) := by
  unfold longSucc long
  generalize 2 ^ 64 = m
  rw [Int.bmod_add_bmod, Nat.cast_add, Nat.cast_one]

theorem wcRound_long (chars lines words : ℕ) (noWordBefore : Bool) (c : UInt8) :
    wcRound ⟨long chars, long lines, long words, noWordBefore⟩ c
      = ⟨long (chars + 1), long (if c = 10 then lines + 1 else lines),
        long (if c ≠ 0 ∧ noWordBefore ∧ wcSpace c = false then words + 1 else words),
        if c = 0 then noWordBefore else wcSpace c⟩ := by
  rw [wcRound_eq]
  simp only [longSucc_long]
  split_ifs <;> rfl

/-- The loop, from a byte on that has `front` in front of it, NULs left out. -/
theorem wcLoop_eq : ∀ (bytes : List UInt8) (chars lines words : ℕ) (front : Option UInt8),
    ∃ noWordBefore, wcLoop bytes ⟨long chars, long lines, long words, front.all wcSpace⟩
      = ⟨long (chars + bytes.length), long (lines + bytes.count 10),
        long (words + (pairs front (bytes.filter (· ≠ 0))).countP (startsWord wcSpace)),
        noWordBefore⟩
  | [], chars, lines, words, front => ⟨front.all wcSpace, by
    rw [wcLoop, List.length_nil, List.count_nil, List.filter_nil, pairs_nil, List.countP_nil,
      Nat.add_zero, Nat.add_zero, Nat.add_zero]⟩
  | c :: bytes, chars, lines, words, front => by
    have hchars : chars + 1 + bytes.length = chars + (c :: bytes).length := by
      rw [List.length_cons]
      omega
    have hlines : (if c = 10 then lines + 1 else lines) + bytes.count 10
        = lines + (c :: bytes).count 10 := by
      rw [List.count_cons]
      by_cases h10 : c = 10
      · subst h10
        simp only [if_true, beq_self_eq_true]
        omega
      · rw [if_neg h10, if_neg (by simpa using h10), Nat.add_zero]
    rw [wcLoop, wcRound_long, ← hchars, ← hlines]
    by_cases h0 : c = 0
    · obtain ⟨b, hb⟩ := wcLoop_eq bytes (chars + 1) (if c = 10 then lines + 1 else lines) words front
      exact ⟨b, by simpa [h0] using hb⟩
    · obtain ⟨b, hb⟩ := wcLoop_eq bytes (chars + 1) (if c = 10 then lines + 1 else lines)
        (if c ≠ 0 ∧ front.all wcSpace ∧ wcSpace c = false then words + 1 else words) (some c)
      have hwords : (if c ≠ 0 ∧ front.all wcSpace ∧ wcSpace c = false then words + 1 else words)
          + (pairs (some c) (bytes.filter (· ≠ 0))).countP (startsWord wcSpace)
          = words + (pairs front ((c :: bytes).filter (· ≠ 0))).countP (startsWord wcSpace) := by
        rw [List.filter_cons_of_pos (by simpa using h0), pairs_cons, List.countP_cons]
        have hstart : (c ≠ 0 ∧ front.all wcSpace ∧ wcSpace c = false)
            = (startsWord wcSpace (front, c) = true) := by
          simp [startsWord, h0]
        simp only [hstart]
        split_ifs <;> omega
      rw [if_neg h0, ← hwords]
      exact ⟨b, hb⟩

theorem wcLoop_start (bytes : List UInt8) : ∃ noWordBefore, wcLoop bytes wcStart
    = ⟨long bytes.length, long (bytes.count 10),
      long ((pairs none (bytes.filter (· ≠ 0))).countP (startsWord wcSpace)), noWordBefore⟩ := by
  obtain ⟨b, hb⟩ := wcLoop_eq bytes 0 0 0 none
  simp only [Nat.zero_add] at hb
  exact ⟨b, hb⟩

/-! ## Words with tabs for letters -/

theorem isspace_of_ne {b : UInt8} (h : b ≠ 9) : isspace b = wcSpace b := by
  simp [wcSpace, h]

/-- The loop starts a word at a tab behind other white space, and none right behind a tab. -/
theorem startsWord_wcSpace (x : Option UInt8 × UInt8) :
    (if startsWord wcSpace x then 1 else 0) + (if x.1 = some 9 && ! isspace x.2 then 1 else 0)
      = (if startsWord isspace x then 1 else 0) + (if x.1.all wcSpace && x.2 = 9 then 1 else 0) := by
  obtain ⟨front, b⟩ := x
  have htab : wcSpace 9 = false := rfl
  have htab' : isspace 9 = true := rfl
  by_cases hb : b = 9
  · subst hb
    simp [startsWord, htab, htab']
  · rcases front with _ | f
    · simp [startsWord, isspace_of_ne hb, hb]
    · by_cases hf : f = 9
      · subst hf
        simp [startsWord, isspace_of_ne hb, hb, htab, htab']
      · simp [startsWord, isspace_of_ne hb, isspace_of_ne hf, hb, hf]

theorem countP_wcSpace (bytes : List UInt8) :
    (pairs none bytes).countP (startsWord wcSpace) + wordsBehindTab bytes
      = (words isspace bytes).length + tabsBehindSpace bytes := by
  rw [length_words, wordsBehindTab, tabsBehindSpace]
  induction pairs none bytes with
  | nil => rfl
  | cons x l ih =>
    have hx := startsWord_wcSpace x
    simp only [List.countP_cons]
    omega

theorem long_eq_iff (n : ℕ) : long n = n ↔ n < 2 ^ 63 := by
  unfold long
  generalize hm : 2 ^ 64 = m
  rw [bmod_natCast_eq_iff (by omega)]
  omega

theorem wcMain_eq (argv1 : Option CStr) (stdin : List UInt8) (files : CStr → List UInt8) :
    let bytes := argv1.elim stdin files
    wcMain argv1 stdin files
      = ⟨long (bytes.count 10), long ((pairs none (bytes.filter (· ≠ 0))).countP (startsWord wcSpace)),
        long bytes.length, argv1⟩ := by
  rcases argv1 with _ | name
  · obtain ⟨b, hb⟩ := wcLoop_start stdin
    simp only [wcMain, hb, Option.elim]
  · obtain ⟨b, hb⟩ := wcLoop_start (files name)
    simp only [wcMain, hb, Option.elim]

/-- `main` prints the right counts just if there are fewer than `2 ^ 63` bytes and, NULs deleted,
as many tabs stand at the start or right behind other white space as words stand right behind a
tab. -/
theorem wcMain_eq_iff (argv1 : Option CStr) (stdin : List UInt8) (files : CStr → List UInt8) :
    let bytes := argv1.elim stdin files
    wcMain argv1 stdin files = wcSpec bytes argv1 ↔
      bytes.length < 2 ^ 63 ∧
        tabsBehindSpace (bytes.filter (· ≠ 0)) = wordsBehindTab (bytes.filter (· ≠ 0)) := by
  rw [wcMain_eq]
  generalize argv1.elim stdin files = bytes
  simp only [wcSpec, WcOutput.mk.injEq]
  have hwords := countP_wcSpace (bytes.filter (· ≠ 0))
  have hstarts : (pairs none (bytes.filter (· ≠ 0))).countP (startsWord wcSpace) ≤ bytes.length :=
    (countP_pairs_le _ _ _).trans (List.length_filter_le _ _)
  constructor
  · rintro ⟨-, hcount, hchars, -⟩
    have hlt := (long_eq_iff bytes.length).1 hchars
    rw [(long_eq_iff _).2 (by omega)] at hcount
    exact ⟨hlt, by omega⟩
  · rintro ⟨hlt, htabs⟩
    have hlines : bytes.count 10 ≤ bytes.length := List.count_le_length
    refine ⟨(long_eq_iff _).2 (by omega), ?_, (long_eq_iff _).2 hlt, trivial⟩
    rw [(long_eq_iff _).2 (by omega)]
    omega

/-- A tab between two letters. -/
theorem wcMain_ne_wcSpec : wcMain none [97, 9, 98] (fun _ => []) ≠ wcSpec [97, 9, 98] none := by
  decide +kernel

end Cs162
