import Mathlib.Data.List.Basic
import Mathlib.Data.Nat.Digits.Lemmas
import Cs162.Lib.Bytes

/-!
# Numbers and substrings in texts

`decimal n` is how `printf` renders a number and `strtol` reads one back, up to the first byte that
is no digit (`strtol_decimal`). A number with its sign is read back by `atoi`
(`atoi_signedDecimal`). `strstr` finds the first place of a text in another.
-/

namespace CLib

/-- `strstr`. -/
def strstr : List UInt8 → List UInt8 → Option ℕ
  | [], needle => if needle = [] then some 0 else none
  | b :: s, needle => if needle.isPrefixOf (b :: s) then some 0 else (strstr s needle).map (· + 1)

/-- A needle starts where it is found. -/
theorem strstr_drop : ∀ {s needle : List UInt8} {n : ℕ}, strstr s needle = some n →
    needle <+: s.drop n
  | [], needle, n, h => by
    rw [strstr] at h
    split_ifs at h with hneedle
    rw [hneedle]
    exact List.nil_prefix
  | b :: s, needle, n, h => by
    rw [strstr] at h
    split_ifs at h with hneedle
    · obtain rfl := Option.some.inj h
      exact List.isPrefixOf_iff_prefix.1 hneedle
    · obtain ⟨k, hk, rfl⟩ := Option.map_eq_some_iff.1 h
      exact strstr_drop (s := s) hk

/-- A needle is found behind bytes that it does not start with. -/
theorem strstr_append {c : UInt8} (needle t : List UInt8) : ∀ {s : List UInt8}, c ∉ s →
    strstr (s ++ c :: needle ++ t) (c :: needle) = some s.length
  | [], _ => by
    have : (c :: needle).isPrefixOf (c :: (needle ++ t)) = true :=
      List.isPrefixOf_iff_prefix.2 (List.prefix_append (c :: needle) t)
    simp only [List.nil_append, List.cons_append, strstr, this, if_true, List.length_nil]
  | b :: s, h => by
    rw [List.mem_cons, not_or] at h
    have ih := strstr_append needle t h.2
    simp only [List.append_assoc, List.cons_append] at ih ⊢
    simp only [strstr, List.isPrefixOf, beq_eq_false_iff_ne.2 h.1, Bool.false_and,
      Bool.false_eq_true, if_false, ih, Option.map_some, List.length_cons]

def isdigit (b : UInt8) : Bool := 48 ≤ b ∧ b ≤ 57

/-- `strtol` to the base 10, with the number of bytes it takes. -/
def strtol (s : List UInt8) : ℤ × ℕ :=
  let spaces := (s.takeWhile isspace).length
  let rest := s.drop spaces
  let negative := rest.head? = some (byte '-')
  let sign := if negative ∨ rest.head? = some (byte '+') then 1 else 0
  let len := ((rest.drop sign).takeWhile isdigit).length
  let n : ℤ := digits (rest.drop sign)
  if len = 0 then (0, 0)
  else (max (-2 ^ 63) (min (2 ^ 63 - 1) (if negative then -n else n)), spaces + sign + len)

/-- A number printed with `%d`. -/
def decimal (n : ℕ) : List UInt8 :=
  if n = 0 then [48] else (Nat.digits 10 n).reverse.map fun d => .ofNat (48 + d)

theorem toNat_digit {n d : ℕ} (h : d ∈ Nat.digits 10 n) : (UInt8.ofNat (48 + d)).toNat = 48 + d := by
  have := Nat.digits_lt_base (show 1 < 10 by omega) h
  rw [UInt8.toNat_ofNat', Nat.mod_eq_of_lt (by omega)]

theorem decimal_ne_nil (n : ℕ) : decimal n ≠ [] := by
  unfold decimal
  split_ifs with h
  · exact List.cons_ne_nil _ _
  · simpa using Nat.digits_ne_nil_iff_ne_zero.2 h

theorem isdigit_decimal {n : ℕ} {b : UInt8} (h : b ∈ decimal n) : isdigit b = true := by
  unfold decimal at h
  split_ifs at h
  · obtain rfl := List.mem_singleton.1 h
    rfl
  · obtain ⟨d, hd, rfl⟩ := List.mem_map.1 h
    rw [List.mem_reverse] at hd
    have := Nat.digits_lt_base (show 1 < 10 by omega) hd
    simp only [isdigit, UInt8.le_iff_toNat_le, toNat_digit hd, decide_eq_true_eq]
    exact ⟨by simp, by simp; omega⟩

theorem notMem_decimal {c : UInt8} (hc : isdigit c = false) (n : ℕ) : c ∉ decimal n := fun h => by
  rw [isdigit_decimal h] at hc
  cases hc

theorem takeWhile_decimal {n : ℕ} {c : UInt8} (hc : isdigit c = false) (t : List UInt8) :
    (decimal n ++ c :: t).takeWhile isdigit = decimal n := by
  rw [List.takeWhile_append_of_pos fun b hb => isdigit_decimal hb, List.takeWhile_cons_of_neg,
    List.append_nil]
  simp [hc]

theorem digits_decimal {n : ℕ} {c : UInt8} (hc : isdigit c = false) (t : List UInt8) :
    digits (decimal n ++ c :: t) = n := by
  have htake : (decimal n ++ c :: t).takeWhile (fun b => 48 ≤ b ∧ b ≤ 57) = decimal n :=
    takeWhile_decimal hc t
  rw [digits, htake, decimal]
  split_ifs with h
  · simp [h]
  · rw [List.foldl_map, List.foldl_reverse]
    conv_rhs => rw [← Nat.ofDigits_digits 10 n, Nat.ofDigits_eq_foldr]
    refine List.foldr_ext _ _ _ fun d hd m => ?_
    rw [toNat_digit hd, Nat.add_sub_cancel_left, Nat.cast_id, add_comm]

/-- A printed number is read back. -/
theorem strtol_decimal {n : ℕ} (hn : n < 2 ^ 63) {c : UInt8} (hc : isdigit c = false)
    (t : List UInt8) : strtol (decimal n ++ c :: t) = ((n : ℤ), (decimal n).length) := by
  obtain ⟨b, bs, hb⟩ := List.exists_cons_of_ne_nil (decimal_ne_nil n)
  have hdigit : isdigit b = true := isdigit_decimal (hb ▸ List.mem_cons_self)
  simp only [isdigit, decide_eq_true_eq, UInt8.le_iff_toNat_le] at hdigit
  have hspace : (decimal n ++ c :: t).takeWhile isspace = [] := by
    rw [hb, List.cons_append, List.takeWhile_cons_of_neg]
    simp only [isspace, UInt8.le_iff_toNat_le, decide_eq_true_eq, not_or, not_and, not_le]
    refine ⟨?_, fun _ => ?_⟩
    · rintro rfl
      simp at hdigit
    · have h9 : (13 : UInt8).toNat = 13 := rfl
      have h48 : (48 : UInt8).toNat = 48 := rfl
      omega
  have hsign : ∀ s : Char, (byte s).toNat < 48 →
      (decimal n ++ c :: t).head? ≠ some (byte s) := by
    intro s hs e
    rw [hb, List.cons_append, List.head?_cons, Option.some.injEq] at e
    have h48 : (48 : UInt8).toNat = 48 := rfl
    rw [e] at hdigit
    omega
  have hminus := hsign '-' (by decide)
  have hplus := hsign '+' (by decide)
  have hlen : (decimal n).length ≠ 0 := by simpa using decimal_ne_nil n
  simp only [strtol, hspace, List.length_nil, List.drop_zero, hminus, hplus, or_self, if_false,
    takeWhile_decimal hc, digits_decimal hc, hlen, zero_add]
  rw [min_eq_right (by omega), max_eq_right (by omega)]

/-! ## Numbers with a sign -/

/-- An `int` printed with `%d`. -/
def signedDecimal (n : ℤ) : List UInt8 :=
  if n < 0 then byte '-' :: decimal n.natAbs else decimal n.natAbs

theorem digits_decimal_end (n : ℕ) : digits (decimal n) = n := by
  have hself : (decimal n).takeWhile isdigit = decimal n :=
    List.takeWhile_eq_self_iff.2 fun b hb => isdigit_decimal hb
  have htake : (decimal n).takeWhile isdigit = (decimal n ++ [0]).takeWhile isdigit :=
    hself.trans (takeWhile_decimal rfl []).symm
  have hfold : digits (decimal n) = digits (decimal n ++ [0]) :=
    congrArg (List.foldl (fun n (b : UInt8) => 10 * n + (b.toNat - 48)) 0) htake
  rw [hfold, digits_decimal rfl]

theorem mem_signedDecimal {n : ℤ} {b : UInt8} (h : b ∈ signedDecimal n) :
    b = byte '-' ∨ isdigit b = true := by
  unfold signedDecimal at h
  split_ifs at h
  · exact (List.mem_cons.1 h).imp_right isdigit_decimal
  · exact .inr (isdigit_decimal h)

theorem notMem_signedDecimal {c : UInt8} (hc : isdigit c = false) (hm : c ≠ byte '-') (n : ℤ) :
    c ∉ signedDecimal n := by
  intro h
  rcases mem_signedDecimal h with h | h
  · exact hm h
  · rw [hc] at h
    cases h

/-- A number printed with its sign is read back. -/
theorem atoi_signedDecimal (n : ℤ) : atoi (cstr (signedDecimal n)) = n := by
  have hbytes : (cstr (signedDecimal n)).bytes = signedDecimal n :=
    bytes_cstr (notMem_signedDecimal rfl (by decide) n)
  rw [atoi, hbytes, signedDecimal]
  split_ifs with hneg
  · rw [List.dropWhile_cons_of_neg (by decide)]
    simp only [if_true, digits_decimal_end]
    omega
  · obtain ⟨b, bs, hb⟩ := List.exists_cons_of_ne_nil (decimal_ne_nil n.natAbs)
    have hdigit : isdigit b = true := isdigit_decimal (hb ▸ List.mem_cons_self)
    have hspace : isspace b = false := by
      simp only [isdigit, isspace, decide_eq_true_eq, decide_eq_false_iff_not,
        UInt8.le_iff_toNat_le, ← UInt8.toNat_inj] at hdigit ⊢
      simp only [UInt8.reduceToNat] at hdigit ⊢
      omega
    have hsign : ∀ c : UInt8, isdigit c = false → b ≠ c := by
      rintro c hc rfl
      rw [hc] at hdigit
      cases hdigit
    have hread := digits_decimal_end n.natAbs
    rw [hb] at hread ⊢
    rw [List.dropWhile_cons_of_neg (by simp [hspace])]
    simp only [hsign (byte '-') rfl, hsign (byte '+') rfl, if_false, hread]
    omega

theorem length_decimal_le {n k : ℕ} (hk : 0 < k) (hn : n < 10 ^ k) : (decimal n).length ≤ k := by
  unfold decimal
  split_ifs with h
  · exact hk
  · rw [List.length_map, List.length_reverse]
    exact (Nat.digits_length_le_iff (by omega) n).2 hn

end CLib
