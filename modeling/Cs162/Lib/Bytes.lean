import Mathlib.Data.List.TakeWhile
import Mathlib.Tactic.Ring

/-!
# Words and C strings in byte buffers

`leBytes w n` is the little-endian rendering of `n` in `w` bytes and `leNat` reads one back.
A `CStr` is what a C string denotes: the bytes before the terminator, none of them NUL. `cstr`
reads the string that starts a buffer, so a string laid out with its terminator is read back
whatever follows it (`cstr_append_nul`).

`strchr` and `strncmp` act on the bytes from a cursor up to the terminator. A cursor they yield is
given as its offset.
-/

namespace CLib

/-- `n` in `w` bytes, least significant first. -/
def leBytes : ℕ → ℕ → List UInt8
  | 0, _ => []
  | w + 1, n => UInt8.ofNat n :: leBytes w (n / 256)

/-- The number a little-endian buffer holds. -/
def leNat : List UInt8 → ℕ
  | [] => 0
  | b :: bs => b.toNat + 256 * leNat bs

@[simp] theorem length_leBytes : ∀ w n : ℕ, (leBytes w n).length = w
  | 0, _ => rfl
  | w + 1, n => by simp [leBytes, length_leBytes w]

theorem leNat_leBytes : ∀ w n : ℕ, leNat (leBytes w n) = n % 256 ^ w
  | 0, n => by simp [leBytes, leNat, Nat.mod_one]
  | w + 1, n => by
    simp only [leBytes, leNat, leNat_leBytes w, UInt8.toNat_ofNat', Nat.reducePow]
    rw [pow_succ', Nat.mod_mul]

theorem leNat_leBytes_of_lt {w n : ℕ} (h : n < 256 ^ w) : leNat (leBytes w n) = n := by
  rw [leNat_leBytes, Nat.mod_eq_of_lt h]

theorem leBytes_add : ∀ (v w n : ℕ),
    leBytes (v + w) n = leBytes v n ++ leBytes w (n / 256 ^ v)
  | 0, w, n => by simp [leBytes]
  | v + 1, w, n => by
    rw [Nat.succ_add, leBytes, leBytes, List.cons_append, leBytes_add v w, Nat.div_div_eq_div_mul,
      ← Nat.pow_succ']

/-- `leBytes` reads its number modulo the width. -/
theorem leBytes_mod : ∀ (w n : ℕ), leBytes w (n % 256 ^ w) = leBytes w n
  | 0, n => rfl
  | w + 1, n => by
    rw [leBytes, leBytes, Nat.pow_succ', Nat.mod_mul_right_div_self, leBytes_mod w]
    congr 1
    apply UInt8.toNat_inj.1
    rw [UInt8.toNat_ofNat', UInt8.toNat_ofNat']
    exact Nat.mod_mul_right_mod n 256 (256 ^ w)

/-- A character constant. -/
def byte (c : Char) : UInt8 := UInt8.ofNat c.toNat

/-- A C string: the bytes before its terminator. -/
@[ext] structure CStr where
  bytes : List UInt8
  noNul : 0 ∉ bytes
deriving DecidableEq

/-- The string that starts a buffer: its bytes up to the first NUL. -/
def cstr (buf : List UInt8) : CStr where
  bytes := buf.takeWhile (· ≠ 0)
  noNul h := by simpa using List.mem_takeWhile_imp h

namespace CStr

/-- `strlen`. -/
def strlen (s : CStr) : ℕ := s.bytes.length

/-- The string with its terminator, as `strcpy` lays it out. -/
def layout (s : CStr) : List UInt8 := s.bytes ++ [0]

/-- A string literal. -/
def ofString (s : String) : CStr := cstr (s.toList.map byte)

/-- The first bytes of a string. -/
def cutOff (s : CStr) (n : ℕ) : CStr :=
  ⟨s.bytes.take n, fun h => s.noNul (List.take_subset _ _ h)⟩

theorem cutOff_of_le {s : CStr} {n : ℕ} (h : s.strlen ≤ n) : s.cutOff n = s := by
  ext1
  exact List.take_of_length_le h

theorem strlen_cutOff {s : CStr} {n : ℕ} (h : n ≤ s.strlen) : (s.cutOff n).strlen = n :=
  List.length_take_of_le h

@[simp] theorem length_layout (s : CStr) : s.layout.length = s.strlen + 1 := by
  simp [layout, strlen]

end CStr

theorem cstr_append_nul (s : CStr) (rest : List UInt8) : cstr (s.layout ++ rest) = s := by
  ext1
  have h : ∀ b ∈ s.bytes, decide (b ≠ 0) = true := fun b hb => by
    have : b ≠ 0 := fun h0 => s.noNul (h0 ▸ hb)
    simpa using this
  simp only [cstr, CStr.layout, List.append_assoc]
  rw [List.takeWhile_append_of_pos h]
  simp

theorem cstr_layout (s : CStr) : cstr s.layout = s := by
  simpa using cstr_append_nul s []

theorem cstr_bytes (s : CStr) : cstr s.bytes = s := by
  ext1
  exact List.takeWhile_eq_self_iff.2 fun b hb => by
    have : b ≠ 0 := fun h0 => s.noNul (h0 ▸ hb)
    simpa using this

/-- A buffer without a NUL is a string as a whole. -/
theorem bytes_cstr {buf : List UInt8} (h : 0 ∉ buf) : (cstr buf).bytes = buf :=
  congrArg CStr.bytes (cstr_bytes ⟨buf, h⟩)

theorem cstr_subset (buf : List UInt8) : (cstr buf).bytes ⊆ buf := List.takeWhile_subset _

theorem takeWhile_ne {c : UInt8} {l : List UInt8} (h : c ∉ l) (r : List UInt8) :
    (l ++ c :: r).takeWhile (· ≠ c) = l := by
  rw [List.takeWhile_append_of_pos fun b hb => by simpa using fun e : b = c => h (e ▸ hb)]
  simp

theorem dropWhile_ne {c : UInt8} {l : List UInt8} (h : c ∉ l) (r : List UInt8) :
    (l ++ c :: r).dropWhile (· ≠ c) = c :: r := by
  rw [List.dropWhile_append_of_pos fun b hb => by simpa using fun e : b = c => h (e ▸ hb)]
  simp

/-- The string in a buffer that ends with a NUL, and what is behind its terminator. -/
theorem exists_cstr_append {buf : List UInt8} (h : 0 ∈ buf) :
    ∃ tail, buf = (cstr buf).bytes ++ 0 :: tail := by
  obtain ⟨s, tail, rfl, hs⟩ := List.eq_append_cons_of_mem h
  have hbytes : (cstr (s ++ 0 :: tail)).bytes = s := takeWhile_ne hs tail
  exact ⟨tail, by rw [hbytes]⟩

/-- What a buffer starts with decides which string starts it, if a NUL is among it. -/
theorem cstr_eq_of_prefix {front buf : List UInt8} (h : front <+: buf) (hnul : 0 ∈ front) :
    cstr buf = cstr front := by
  obtain ⟨rest, rfl⟩ := h
  obtain ⟨tail, htail⟩ := exists_cstr_append hnul
  ext1
  conv_lhs => rw [htail, List.append_assoc, List.cons_append]
  exact takeWhile_ne (cstr front).noNul _

theorem prefix_cstr_iff {buf t : List UInt8} (ht : 0 ∉ t) : t <+: (cstr buf).bytes ↔ t <+: buf := by
  refine ⟨fun h => h.trans (List.takeWhile_prefix _), ?_⟩
  rintro ⟨r, rfl⟩
  have hall : ∀ b ∈ t, decide (b ≠ 0) = true := fun b hb => by
    simpa using fun h0 : b = 0 => ht (h0 ▸ hb)
  exact ⟨r.takeWhile (· ≠ 0), (List.takeWhile_append_of_pos hall).symm⟩

/-- Past a string and its terminator starts what was laid out after it. -/
theorem drop_layout (s : CStr) (rest : List UInt8) :
    (s.layout ++ rest).drop (s.strlen + 1) = rest := by
  rw [← s.length_layout, List.drop_left]

/-- Whether `strncmp` finds no difference. -/
def strncmp : List UInt8 → List UInt8 → ℕ → Bool
  | _, _, 0 => true
  | [], [], _ + 1 => true
  | a :: as, b :: bs, n + 1 => a = b && strncmp as bs n
  | _, _, _ + 1 => false

/-- `strchr`. -/
def strchr (s : List UInt8) (c : UInt8) : Option ℕ := s.findIdx? (· = c)

theorem strchr_append {s : List UInt8} {c : UInt8} (h : c ∉ s) (rest : List UInt8) :
    strchr (s ++ c :: rest) c = some s.length := by
  have hnone : s.findIdx? (· = c) = none := by
    rw [List.findIdx?_eq_none_iff]
    exact fun b hb => by simpa using fun hbc : b = c => h (hbc ▸ hb)
  simp [strchr, List.findIdx?_append, hnone, List.findIdx?_cons]

theorem strchr_eq_none {s : List UInt8} {c : UInt8} : strchr s c = none ↔ c ∉ s := by
  rw [strchr, List.findIdx?_eq_none_iff]
  exact ⟨fun h hc => by simpa using h c hc, fun h b hb => by
    simpa using fun hbc : b = c => h (hbc ▸ hb)⟩

/-- A byte found, what comes before it and what comes behind. -/
theorem strchr_eq_some {s : List UInt8} {c : UInt8} {n : ℕ} (h : strchr s c = some n) :
    ∃ front tail, s = front ++ c :: tail ∧ c ∉ front ∧ front.length = n := by
  by_cases hmem : c ∈ s
  · obtain ⟨front, tail, rfl, hfront⟩ := List.eq_append_cons_of_mem hmem
    rw [strchr_append hfront] at h
    exact ⟨front, tail, rfl, hfront, Option.some.inj h⟩
  · rw [strchr_eq_none.2 hmem] at h
    cases h

theorem strchr_lt {s : List UInt8} {c : UInt8} {n : ℕ} (h : strchr s c = some n) :
    n < s.length := by
  obtain ⟨front, tail, rfl, -, rfl⟩ := strchr_eq_some h
  simp

theorem strchr_ne {s : List UInt8} {c d : UInt8} {n m : ℕ} (hcd : c ≠ d)
    (hn : strchr s c = some n) (hm : strchr s d = some m) : n ≠ m := by
  rintro rfl
  obtain ⟨front, tail, rfl, -, rfl⟩ := strchr_eq_some hn
  obtain ⟨front', tail', heq, -, hlen⟩ := strchr_eq_some hm
  obtain ⟨-, htail⟩ := List.append_inj heq hlen.symm
  exact hcd (List.cons.inj htail).1

/-- What comes before the offset found has no such byte. -/
theorem notMem_take_strchr {s : List UInt8} {c : UInt8} {n : ℕ} (h : strchr s c = some n) :
    c ∉ s.take n := by
  obtain ⟨front, tail, rfl, hfront, rfl⟩ := strchr_eq_some h
  rwa [List.take_left]

theorem strncmp_append : ∀ s rest : List UInt8, strncmp (s ++ rest) s s.length = true
  | [], rest => by simp [strncmp]
  | a :: s, rest => by simp [strncmp, strncmp_append s rest]

theorem strncmp_iff : ∀ {s t : List UInt8} {n : ℕ}, strncmp s t n = true ↔ s.take n = t.take n
  | _, _, 0 => by simp [strncmp]
  | [], [], n + 1 => by simp [strncmp]
  | [], b :: t, n + 1 => by simp [strncmp]
  | a :: s, [], n + 1 => by simp [strncmp]
  | a :: s, b :: t, n + 1 => by simp [strncmp, strncmp_iff (s := s) (t := t) (n := n)]

theorem strncmp_prefix_iff {s t : List UInt8} : strncmp s t t.length = true ↔ t <+: s := by
  rw [strncmp_iff, List.take_length, List.prefix_iff_eq_take, eq_comm]

/-- Comparing as many bytes as the first string has asks whether it is a prefix. -/
theorem strncmp_append_length (s rest t : List UInt8) :
    strncmp (s ++ rest) t s.length = s.isPrefixOf t := by
  rw [Bool.eq_iff_iff, strncmp_iff, List.take_left, List.isPrefixOf_iff_prefix,
    List.prefix_iff_eq_take]

/-- `isspace`. -/
def isspace (b : UInt8) : Bool := b = 32 ∨ 9 ≤ b ∧ b ≤ 13

/-- The number the leading digits of a text give. -/
def digits (bs : List UInt8) : ℕ :=
  (bs.takeWhile fun b => 48 ≤ b ∧ b ≤ 57).foldl (fun n b => 10 * n + (b.toNat - 48)) 0

/-- `atoi`, before the result is cut to an `int`. A number that is no `long` is undefined in C, and
taken as it stands here. -/
def atoi (s : CStr) : ℤ :=
  match s.bytes.dropWhile isspace with
  | [] => 0
  | c :: bs =>
    if c = byte '-' then -digits bs
    else if c = byte '+' then digits bs
    else digits (c :: bs)

end CLib
