import Mathlib.Data.Finmap
import Mathlib.Data.Finset.Card
import Mathlib.Order.Interval.Finset.Nat

/-!
# A directory of files

A `Directory` over a type of file names holds finitely many files. The operations are the
system calls on it; one that fails returns `none` and leaves the directory as it was.

Programs number their files `name 0`, `name 1`, … and find the next one by probing with `stat`.
`firstFree` is that probe. `Dense d name n` says the numbered files present are exactly those
below `n`; then the probe from anywhere up to `n` stops at `n` (`Dense.firstFree`), and `Dense` is
kept by appending at `n` and by overwriting below `n`.
-/

namespace CLib

/-- A file: its contents and whether its mode lets its owner open it for writing. -/
structure File where
  bytes : List UInt8
  writable : Bool
deriving DecidableEq

/-- A directory, which may itself be missing. -/
@[ext] structure Directory (N : Type*) where
  present : Bool
  files : Finmap fun _ : N => File

/-- What `write` or `fwrite` does with the bytes it is given: it fails, stores fewer, or all. -/
inductive WriteResult
  | failed
  | short (n : ℕ)
  | full

namespace WriteResult

/-- How many of the bytes are stored. -/
def count (size : ℕ) : WriteResult → ℕ
  | failed => 0
  | short n => min n (size - 1)
  | full => size

/-- The `ssize_t` that `write` returns. -/
def ret (size : ℕ) : WriteResult → ℤ
  | failed => -1
  | w => w.count size

theorem count_lt {size : ℕ} (hpos : 0 < size) : ∀ {w : WriteResult}, w ≠ full → w.count size < size
  | failed, _ => hpos
  | short n, _ => (Nat.min_le_right n _).trans_lt (Nat.sub_lt hpos Nat.one_pos)
  | full, h => absurd rfl h

end WriteResult

namespace Directory

variable {N : Type*} [DecidableEq N] (d : Directory N)

def lookup (n : N) : Option File := d.files.lookup n

/-- Whether `stat` on the name succeeds. -/
def stat (n : N) : Bool := (d.lookup n).isSome

def set (n : N) (f : File) : Directory N := { d with files := d.files.insert n f }

def erase (n : N) : Directory N := { d with files := d.files.erase n }

/-- `fopen(n, "w")`, one `fwrite` of the whole contents, and `fclose`. -/
def overwrite (n : N) (bytes : List UInt8) : Option (Directory N) :=
  match d.lookup n with
  | some f => if f.writable then some (d.set n { f with bytes := bytes }) else none
  | none => some (d.set n ⟨bytes, true⟩)

/-- `open(n, O_WRONLY | O_CREAT, mode)`, where the mode says whether a file it creates is
writable afterwards. An existing file is opened only if its own mode allows it. -/
def openCreate (n : N) (writable : Bool) : Option (Directory N) :=
  match d.lookup n with
  | some f => if f.writable then some d else none
  | none => some (d.set n ⟨[], writable⟩)

/-- `write` at the start of an open file: what lies past the bytes written stays. -/
def writeStart (n : N) (bytes : List UInt8) : Directory N :=
  match d.lookup n with
  | some f => d.set n { f with bytes := bytes ++ f.bytes.drop bytes.length }
  | none => d

def remove (n : N) : Option (Directory N) :=
  if d.stat n then some (d.erase n) else none

def rename (a b : N) : Option (Directory N) :=
  (d.lookup a).map fun f => (d.erase a).set b f

/-- The probe `while (stat(name(i)) != -1) i++`, for at most the given number of files. -/
def scan (name : ℕ → N) : ℕ → ℕ → ℕ
  | 0, i => i
  | fuel + 1, i => if d.stat (name i) then scan name fuel (i + 1) else i

/-- The first number from `i` on whose file does not exist. No probe passes more files than the
directory has. -/
def firstFree (name : ℕ → N) (i : ℕ) : ℕ := d.scan name d.files.keys.card i

@[simp] theorem present_set (n : N) (f : File) : (d.set n f).present = d.present := rfl

@[simp] theorem present_erase (n : N) : (d.erase n).present = d.present := rfl

theorem lookup_set (n m : N) (f : File) :
    (d.set n f).lookup m = if m = n then some f else d.lookup m := by
  split_ifs with h
  · subst h
    exact Finmap.lookup_insert _
  · exact Finmap.lookup_insert_of_ne _ h

theorem lookup_erase (n m : N) : (d.erase n).lookup m = if m = n then none else d.lookup m := by
  split_ifs with h
  · subst h
    exact Finmap.lookup_erase _ _
  · exact Finmap.lookup_erase_ne h

theorem ext_lookup {d d' : Directory N} (hp : d.present = d'.present)
    (h : ∀ n, d.lookup n = d'.lookup n) : d = d' :=
  Directory.ext hp (Finmap.ext_lookup h)

theorem stat_iff {d : Directory N} {n : N} : d.stat n = true ↔ ∃ f, d.lookup n = some f := by
  simp [stat, Option.isSome_iff_exists]

theorem stat_eq_false {d : Directory N} {n : N} : d.stat n = false ↔ d.lookup n = none := by
  simp [stat]

/-! ## Frames -/

section Frame

variable {d} {d' : Directory N} {n m : N}

theorem overwrite_frame {bytes : List UInt8} (h : d.overwrite n bytes = some d') (hm : m ≠ n) :
    d'.lookup m = d.lookup m := by
  unfold overwrite at h
  split at h
  · split_ifs at h
    simp only [Option.some.injEq] at h
    rw [← h, lookup_set, if_neg hm]
  · simp only [Option.some.injEq] at h
    rw [← h, lookup_set, if_neg hm]

theorem openCreate_frame {w : Bool} (h : d.openCreate n w = some d') (hm : m ≠ n) :
    d'.lookup m = d.lookup m := by
  unfold openCreate at h
  split at h
  · split_ifs at h
    simp only [Option.some.injEq] at h
    rw [h]
  · simp only [Option.some.injEq] at h
    rw [← h, lookup_set, if_neg hm]

theorem openCreate_present {w : Bool} (h : d.openCreate n w = some d') :
    d'.present = d.present := by
  unfold openCreate at h
  split at h
  · split_ifs at h
    simp only [Option.some.injEq] at h
    rw [h]
  · simp only [Option.some.injEq] at h
    rw [← h, present_set]

variable (d) in
theorem writeStart_frame (bytes : List UInt8) (hm : m ≠ n) :
    (d.writeStart n bytes).lookup m = d.lookup m := by
  unfold writeStart
  split
  · rw [lookup_set, if_neg hm]
  · rfl

variable (d n) in
@[simp] theorem present_writeStart (bytes : List UInt8) :
    (d.writeStart n bytes).present = d.present := by
  unfold writeStart
  split <;> rfl

variable (d n) in
theorem writeStart_created (w : Bool) (bytes : List UInt8) :
    (d.set n ⟨[], w⟩).writeStart n bytes = d.set n ⟨bytes, w⟩ := by
  refine ext_lookup (by simp) fun m => ?_
  simp only [writeStart, lookup_set, if_true, List.drop_nil, List.append_nil]
  split_ifs <;> rfl

theorem remove_frame (h : d.remove n = some d') (hm : m ≠ n) : d'.lookup m = d.lookup m := by
  unfold remove at h
  split_ifs at h
  simp only [Option.some.injEq] at h
  rw [← h, lookup_erase, if_neg hm]

theorem rename_frame {k : N} (h : d.rename n k = some d') (hn : m ≠ n) (hk : m ≠ k) :
    d'.lookup m = d.lookup m := by
  simp only [rename, Option.map_eq_some_iff] at h
  obtain ⟨f, -, rfl⟩ := h
  rw [lookup_set, if_neg hk, lookup_erase, if_neg hn]

end Frame

/-! ## The probe -/

theorem le_scan (name : ℕ → N) : ∀ fuel i, i ≤ d.scan name fuel i
  | 0, _ => le_rfl
  | fuel + 1, i => by
    simp only [scan]
    split_ifs
    · exact (Nat.le_succ i).trans (le_scan name fuel (i + 1))
    · exact le_rfl

theorem stat_of_lt_scan (name : ℕ → N) :
    ∀ fuel i j, i ≤ j → j < d.scan name fuel i → d.stat (name j) = true
  | 0, i, j, hij, hj => by simp only [scan] at hj; omega
  | fuel + 1, i, j, hij, hj => by
    simp only [scan] at hj
    split_ifs at hj with h
    · rcases hij.eq_or_lt with rfl | hlt
      · exact h
      · exact stat_of_lt_scan name fuel (i + 1) j hlt hj
    · omega

/-- A probe that stops short of its bound stops at a free number. -/
theorem scan_free (name : ℕ → N) :
    ∀ fuel i, d.scan name fuel i < i + fuel → d.stat (name (d.scan name fuel i)) = false
  | 0, i, h => by simp only [scan] at h; omega
  | fuel + 1, i, h => by
    simp only [scan] at h ⊢
    split_ifs at h ⊢ with hs
    · exact scan_free name fuel (i + 1) (by omega)
    · simpa using hs

theorem le_firstFree (name : ℕ → N) (i : ℕ) : i ≤ d.firstFree name i := le_scan d name _ i

theorem stat_of_lt_firstFree {name : ℕ → N} {i j : ℕ} (hij : i ≤ j)
    (hj : j < d.firstFree name i) : d.stat (name j) = true :=
  stat_of_lt_scan d name _ i j hij hj

/-- Distinct existing numbers are distinct files, so there are no more of them than files. -/
theorem card_le_of_stat {name : ℕ → N} (hinj : Function.Injective name) (s : Finset ℕ)
    (hs : ∀ j ∈ s, d.stat (name j) = true) : s.card ≤ d.files.keys.card := by
  refine Finset.card_le_card_of_injOn name (fun j hj => ?_) (hinj.injOn)
  obtain ⟨f, hf⟩ := stat_iff.1 (hs j hj)
  exact Finmap.mem_keys.2 (Finmap.mem_of_lookup_eq_some hf)

theorem stat_firstFree {name : ℕ → N} (hinj : Function.Injective name) (i : ℕ) :
    d.stat (name (d.firstFree name i)) = false := by
  by_cases hlt : d.firstFree name i < i + d.files.keys.card
  · exact scan_free d name _ i hlt
  · by_contra hs
    have hcard := card_le_of_stat d hinj (Finset.Icc i (d.firstFree name i)) fun j hj => by
      rw [Finset.mem_Icc] at hj
      rcases hj.2.eq_or_lt with rfl | hlt'
      · simpa using hs
      · exact stat_of_lt_firstFree d hj.1 hlt'
    rw [Nat.card_Icc] at hcard
    omega

/-- The probe stops at the only number that is free and has nothing free before it. -/
theorem firstFree_eq {name : ℕ → N} (hinj : Function.Injective name) {i n : ℕ} (hin : i ≤ n)
    (hn : d.stat (name n) = false) (hlt : ∀ j, i ≤ j → j < n → d.stat (name j) = true) :
    d.firstFree name i = n := by
  have hfree := stat_firstFree d hinj i
  have hle := le_firstFree d name i
  by_contra hne
  rcases Nat.lt_or_gt_of_ne hne with h | h
  · rw [hlt _ hle h] at hfree
    cases hfree
  · rw [stat_of_lt_firstFree d hin h] at hn
    cases hn

/-! ## Dense numbering -/

/-- The numbered files present are exactly those below `n`. -/
def Dense (name : ℕ → N) (n : ℕ) : Prop := ∀ i, d.stat (name i) = true ↔ i < n

variable {d} {name : ℕ → N} {n : ℕ}

theorem Dense.lookup_none (h : d.Dense name n) {i : ℕ} (hi : n ≤ i) : d.lookup (name i) = none := by
  rw [← stat_eq_false, ← Bool.not_eq_true]
  exact fun hs => absurd ((h i).1 hs) (by omega)

theorem Dense.lookup_some (h : d.Dense name n) {i : ℕ} (hi : i < n) :
    ∃ f, d.lookup (name i) = some f := stat_iff.1 ((h i).2 hi)

theorem Dense.lt_of_lookup (h : d.Dense name n) {i : ℕ} {f : File}
    (hf : d.lookup (name i) = some f) : i < n := (h i).1 (stat_iff.2 ⟨f, hf⟩)

theorem Dense.firstFree (hinj : Function.Injective name) (h : d.Dense name n) {i : ℕ}
    (hi : i ≤ n) : d.firstFree name i = n :=
  firstFree_eq d hinj hi (stat_eq_false.2 (h.lookup_none le_rfl)) fun j _ hj => (h j).2 hj

theorem Dense.firstFree_of_le (hinj : Function.Injective name) (h : d.Dense name n) {i : ℕ}
    (hi : n ≤ i) : d.firstFree name i = i :=
  firstFree_eq d hinj le_rfl (stat_eq_false.2 (h.lookup_none hi)) fun j hij hj => by omega

theorem stat_set (m k : N) (f : File) : (d.set m f).stat k = true ↔ k = m ∨ d.stat k = true := by
  simp only [stat_iff, lookup_set]
  split_ifs with h <;> simp [h]

theorem stat_erase (m k : N) : (d.erase m).stat k = true ↔ k ≠ m ∧ d.stat k = true := by
  simp only [stat_iff, lookup_erase]
  split_ifs with h <;> simp [h]

theorem Dense.append (hinj : Function.Injective name) (h : d.Dense name n) (f : File) :
    (d.set (name n) f).Dense name (n + 1) := by
  intro i
  rw [stat_set, hinj.eq_iff, h i]
  omega

theorem Dense.overwrite (hinj : Function.Injective name) (h : d.Dense name n) {i : ℕ} (hi : i < n)
    (f : File) : (d.set (name i) f).Dense name n := by
  intro j
  rw [stat_set, hinj.eq_iff, h j]
  omega

theorem Dense.congr {d' : Directory N} (h : d.Dense name n)
    (heq : ∀ i, d'.lookup (name i) = d.lookup (name i)) : d'.Dense name n := by
  intro i
  rw [← h i, stat_iff, stat_iff, heq]

end Directory

end CLib
