import Mathlib.Data.List.TakeDrop

/-!
# Absorbing a list block by block

A block function is folded over the whole blocks of `n` items a list has (`absorb`); fewer than
`n` items are left over. A list may come in pieces: what was left over is put in front of the next
piece (`absorb_append`, `leftover_append`), so nothing depends on where the list was cut.

A `Buffer` is an array of fixed length, and `Buffer.write` changes a stretch inside it.
-/

namespace CLib

variable {α σ : Type*}

section Buffer

/-- A buffer with the items from `k` on replaced by those of `l`. -/
def overwrite (buf : List α) (k : ℕ) (l : List α) : List α :=
  buf.take k ++ l ++ buf.drop (k + l.length)

theorem length_overwrite {buf l : List α} {k : ℕ} (h : k + l.length ≤ buf.length) :
    (overwrite buf k l).length = buf.length := by
  simp only [overwrite, List.length_append, List.length_take, List.length_drop]
  omega

/-- An array of `n` items. -/
@[ext] structure Buffer (α : Type*) (n : ℕ) where
  items : List α
  length_items : items.length = n
deriving DecidableEq

attribute [simp] Buffer.length_items

namespace Buffer

variable {n k : ℕ} (b : Buffer α n) {l : List α}

/-- `memcpy` into the buffer, which must have room for it. -/
def write (k : ℕ) (l : List α) : Buffer α n :=
  if h : k + l.length ≤ n then
    ⟨overwrite b.items k l, by
      rw [length_overwrite (by rwa [b.length_items]), b.length_items]⟩
  else b

theorem items_write (h : k + l.length ≤ n) : (b.write k l).items = overwrite b.items k l := by
  rw [write, dif_pos h]

/-- Up to the end of the stretch, a buffer has what it had before it and then the new items. -/
theorem take_write (h : k + l.length ≤ n) :
    (b.write k l).items.take (k + l.length) = b.items.take k ++ l := by
  have hk : k ≤ b.items.length := by rw [b.length_items]; omega
  have hlen : (b.items.take k ++ l).length = k + l.length := by
    rw [List.length_append, List.length_take_of_le hk]
  rw [items_write b h, overwrite, ← hlen, List.take_left]

/-- A stretch that reaches the end of the buffer. -/
theorem write_to_end (h : k + l.length = n) : (b.write k l).items = b.items.take k ++ l := by
  rw [← take_write b (Nat.le_of_eq h), h, List.take_of_length_le (by simp)]

end Buffer

end Buffer

section Blocks

variable (n : ℕ) (f : σ → List α → σ)

/-- The state after the first `k` blocks of a list. -/
def foldBlocks : ℕ → σ → List α → σ
  | 0, s, _ => s
  | k + 1, s, l => foldBlocks k (f s (l.take n)) (l.drop n)

/-- The state after the whole blocks of a list. -/
def absorb (s : σ) (l : List α) : σ := foldBlocks n f (l.length / n) s l

/-- What is behind the whole blocks. -/
def leftover (l : List α) : List α := l.drop (l.length / n * n)

variable {n f} {s : σ} {l r : List α}

theorem foldBlocks_append : ∀ {k : ℕ} {s : σ} {l : List α}, k * n ≤ l.length →
    foldBlocks n f k s (l ++ r) = foldBlocks n f k s l
  | 0, _, _, _ => rfl
  | k + 1, s, l, h => by
    rw [Nat.succ_mul] at h
    have hn : n ≤ l.length := by omega
    have hk : k * n ≤ (l.drop n).length := by rw [List.length_drop]; omega
    simp only [foldBlocks, List.take_append_of_le_length hn, List.drop_append_of_le_length hn]
    exact foldBlocks_append hk

theorem foldBlocks_add : ∀ (j k : ℕ) (s : σ) (l : List α),
    foldBlocks n f (j + k) s l = foldBlocks n f k (foldBlocks n f j s l) (l.drop (j * n))
  | 0, k, s, l => by simp [foldBlocks]
  | j + 1, k, s, l => by
    rw [Nat.succ_add_eq_add_succ, Nat.succ_eq_add_one, ← Nat.add_assoc]
    simp only [foldBlocks]
    rw [foldBlocks_add j k, List.drop_drop, Nat.succ_mul, Nat.add_comm n]

theorem length_leftover (n : ℕ) (l : List α) : (leftover n l).length = l.length % n := by
  rw [leftover, List.length_drop, Nat.mod_eq_sub_div_mul]

theorem absorb_of_lt (h : l.length < n) : absorb n f s l = s := by
  rw [absorb, Nat.div_eq_of_lt h, foldBlocks]

theorem leftover_of_lt (h : l.length < n) : leftover n l = l := by
  rw [leftover, Nat.div_eq_of_lt h, Nat.zero_mul, List.drop_zero]

/-- Only the whole blocks count. -/
theorem absorb_take (hn : 0 < n) (s : σ) (l : List α) :
    absorb n f s (l.take (l.length / n * n)) = absorb n f s l := by
  have hle : l.length / n * n ≤ l.length := Nat.div_mul_le_self _ _
  have hlen : (l.take (l.length / n * n)).length = l.length / n * n := List.length_take_of_le hle
  have happ := foldBlocks_append (f := f) (s := s) (r := l.drop (l.length / n * n))
    (Nat.le_of_eq hlen.symm)
  rw [List.take_append_drop] at happ
  rw [absorb, absorb, hlen, Nat.mul_div_cancel _ hn, happ]

private theorem length_append_div (hn : 0 < n) : (l ++ r).length / n =
    l.length / n + (leftover n l ++ r).length / n := by
  have hlen : l.length + r.length = (l.length % n + r.length) + n * (l.length / n) := by
    have := Nat.mod_add_div l.length n
    omega
  rw [List.length_append, List.length_append, length_leftover, hlen,
    Nat.add_mul_div_left _ _ hn, Nat.add_comm]

/-- A list in two pieces. -/
theorem absorb_append (hn : 0 < n) (s : σ) (l r : List α) :
    absorb n f s (l ++ r) = absorb n f (absorb n f s l) (leftover n l ++ r) := by
  have hle : l.length / n * n ≤ l.length := Nat.div_mul_le_self _ _
  rw [absorb, length_append_div hn, foldBlocks_add, foldBlocks_append hle,
    List.drop_append_of_le_length hle]
  rfl

theorem leftover_append (hn : 0 < n) (l r : List α) :
    leftover n (l ++ r) = leftover n (leftover n l ++ r) := by
  have hle : l.length / n * n ≤ l.length := Nat.div_mul_le_self _ _
  rw [leftover, length_append_div hn, Nat.add_mul, ← List.drop_drop,
    List.drop_append_of_le_length hle]
  rfl

/-- A list that starts with one block. -/
theorem absorb_block (hn : 0 < n) (s : σ) (hl : l.length = n) (r : List α) :
    absorb n f s (l ++ r) = absorb n f (f s l) r := by
  have hdiv : (l ++ r).length / n = 1 + r.length / n := by
    rw [List.length_append, hl, Nat.add_comm, Nat.add_div_right _ hn, Nat.add_comm]
  rw [absorb, hdiv, foldBlocks_add]
  simp only [foldBlocks, ← hl, Nat.one_mul, List.take_left, List.drop_left]
  rfl

theorem leftover_block (hn : 0 < n) (hl : l.length = n) (r : List α) :
    leftover n (l ++ r) = leftover n r := by
  have hnil : leftover n l = [] := List.eq_nil_of_length_eq_zero (by
    rw [length_leftover, hl, Nat.mod_self])
  rw [leftover_append hn, hnil, List.nil_append]

/-- A list of one block. -/
theorem absorb_one (hn : 0 < n) (s : σ) (hl : l.length = n) : absorb n f s l = f s l := by
  have h := absorb_block (f := f) hn s hl []
  rwa [List.append_nil, absorb_of_lt (l := []) hn] at h

end Blocks

end CLib
