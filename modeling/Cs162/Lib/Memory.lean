import Cs162.Lib.Bytes

/-!
# Byte memory

A memory gives a byte at every address. `load` and `store` are little-endian words of any width,
`memset`, `memcpy` and `poke` change a range of bytes. A load reads what the last store to its word
left (`load_store`), and nothing outside its word matters to it (`load_congr`). `Only lo hi m m'`
says that `m'` differs from `m` in `[lo, hi)` at most; every write comes with such a fact.
-/

namespace CLib

abbrev Memory := ℕ → UInt8

namespace Memory

variable (m : Memory)

/-- The word of `w` bytes at an address. -/
def load (a w : ℕ) : ℕ := leNat ((List.range w).map fun i => m (a + i))

def store (a w v : ℕ) : Memory := fun x =>
  if a ≤ x ∧ x < a + w then UInt8.ofNat (v / 256 ^ (x - a)) else m x

def memset (a : ℕ) (c : UInt8) (n : ℕ) : Memory := fun x => if a ≤ x ∧ x < a + n then c else m x

def memcpy (dst src n : ℕ) : Memory := fun x =>
  if dst ≤ x ∧ x < dst + n then m (src + (x - dst)) else m x

/-- Writing a list of bytes. -/
def poke (a : ℕ) (bs : List UInt8) : Memory := fun x =>
  if a ≤ x ∧ x < a + bs.length then bs.getD (x - a) 0 else m x

/-- Nothing outside `[lo, hi)` differs. -/
def Only (lo hi : ℕ) (m m' : Memory) : Prop := ∀ x, x < lo ∨ hi ≤ x → m' x = m x

variable {m} {m' m'' : Memory} {lo hi : ℕ}

theorem Only.refl (lo hi : ℕ) (m : Memory) : Only lo hi m m := fun _ _ => rfl

theorem Only.trans (h : Only lo hi m m') (h' : Only lo hi m' m'') : Only lo hi m m'' :=
  fun x hx => (h' x hx).trans (h x hx)

theorem Only.mono {lo' hi' : ℕ} (h : Only lo hi m m') (hlo : lo' ≤ lo) (hhi : hi ≤ hi') :
    Only lo' hi' m m' := fun x hx => h x (by omega)

theorem store_only (a w v : ℕ) : Only a (a + w) m (m.store a w v) := fun x hx => by
  rw [store, if_neg (by omega)]

/-- One more store inside. -/
theorem Only.store {a w : ℕ} (h : Only lo hi m m') (v : ℕ) (ha : lo ≤ a ∧ a + w ≤ hi) :
    Only lo hi m (m'.store a w v) := h.trans ((store_only a w v).mono ha.1 ha.2)

theorem memset_only (a : ℕ) (c : UInt8) (n : ℕ) : Only a (a + n) m (m.memset a c n) :=
  fun x hx => by rw [memset, if_neg (by omega)]

theorem memcpy_only (dst src n : ℕ) : Only dst (dst + n) m (m.memcpy dst src n) :=
  fun x hx => by rw [memcpy, if_neg (by omega)]

theorem poke_only (a : ℕ) (bs : List UInt8) : Only a (a + bs.length) m (m.poke a bs) :=
  fun x hx => by rw [poke, if_neg (by omega)]

/-! ## Words -/

theorem load_congr {a w : ℕ} (h : ∀ i < w, m' (a + i) = m (a + i)) : m'.load a w = m.load a w := by
  unfold load
  congr 1
  exact List.map_congr_left fun i hi => h i (List.mem_range.1 hi)

theorem Only.load (h : Only lo hi m m') {a w : ℕ} (ha : a + w ≤ lo ∨ hi ≤ a) :
    m'.load a w = m.load a w := load_congr fun i hi => h _ (by omega)

theorem leBytes_eq_map : ∀ w v : ℕ,
    leBytes w v = (List.range w).map fun i => UInt8.ofNat (v / 256 ^ i)
  | 0, _ => rfl
  | w + 1, v => by
    rw [leBytes, leBytes_eq_map w, List.range_succ_eq_map, List.map_cons, List.map_map]
    simp only [pow_zero, Nat.div_one, List.cons.injEq, true_and]
    exact List.map_congr_left fun i _ => by
      rw [Function.comp_apply, Nat.div_div_eq_div_mul, ← pow_succ']

theorem load_store (a w v : ℕ) : (m.store a w v).load a w = v % 256 ^ w := by
  rw [← leNat_leBytes, leBytes_eq_map, load]
  congr 1
  refine List.map_congr_left fun i hi => ?_
  rw [List.mem_range] at hi
  rw [store, if_pos (by omega), Nat.add_sub_cancel_left]

theorem load_store_of_disjoint {a w v b u : ℕ} (h : b + u ≤ a ∨ a + w ≤ b) :
    (m.store a w v).load b u = m.load b u := (store_only a w v).load h

theorem leNat_lt : ∀ bs : List UInt8, leNat bs < 256 ^ bs.length
  | [] => by simp [leNat]
  | b :: bs => by
    have hb : b.toNat < 256 := UInt8.toNat_lt b
    have ih := leNat_lt bs
    rw [leNat, List.length_cons, pow_succ']
    omega

theorem load_lt (a w : ℕ) : m.load a w < 256 ^ w := by
  simpa [load] using leNat_lt ((List.range w).map fun i => m (a + i))

end Memory

end CLib
