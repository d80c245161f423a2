import Cs162.Md5

/-!
# The digest of a message that comes in pieces

Four `STEP`s are four steps of the digest, which rotates the words instead of naming them in turn,
so a round of `body` is sixteen of them (`round1_eq` and the others) and its loop absorbs blocks.
`Holds ctx msg` is what a context is after the bytes of `msg`; an update by more bytes keeps it,
however the bytes are cut into pieces.
-/

namespace Cs162

open CLib MessageDigest

namespace Md5

/-! ## Words -/

theorem F_eq (x y z : UInt32) : F x y z = auxiliary 0 x y z := by
  apply UInt32.eq_of_toBitVec_eq
  ext i
  simp only [F, auxiliary, UInt32.toBitVec_xor, UInt32.toBitVec_and, UInt32.toBitVec_or,
    UInt32.toBitVec_not, BitVec.getElem_xor, BitVec.getElem_and, BitVec.getElem_or,
    BitVec.getElem_not]
  cases x.toBitVec[i] <;> cases y.toBitVec[i] <;> cases z.toBitVec[i] <;> rfl

theorem G_eq (x y z : UInt32) : G x y z = auxiliary 1 x y z := by
  apply UInt32.eq_of_toBitVec_eq
  ext i
  simp only [G, auxiliary, UInt32.toBitVec_xor, UInt32.toBitVec_and, UInt32.toBitVec_or,
    UInt32.toBitVec_not, BitVec.getElem_xor, BitVec.getElem_and, BitVec.getElem_or,
    BitVec.getElem_not]
  cases x.toBitVec[i] <;> cases y.toBitVec[i] <;> cases z.toBitVec[i] <;> rfl

theorem H2_eq (x y z : UInt32) : H2 x y z = H x y z := (UInt32.xor_assoc x y z).symm

/-- The two shifts of `STEP` are one rotation. -/
theorem rotl_eq {s : UInt32} (hs : 0 < s.toNat) (hs' : s.toNat < 32) (a : UInt32) :
    (a <<< s) ||| ((a &&& 0xffffffff) >>> (32 - s)) = rotl a s.toNat := by
  have hall : a &&& 0xffffffff = a := by
    apply UInt32.eq_of_toBitVec_eq
    exact BitVec.and_allOnes
  have hsub : (32 - s).toNat = 32 - s.toNat :=
    UInt32.toNat_sub_of_le _ _ (UInt32.le_iff_toNat_le.2 hs'.le)
  apply UInt32.eq_of_toBitVec_eq
  rw [hall, rotl, BitVec.rotateLeft_def, UInt32.toBitVec_or, UInt32.toBitVec_shiftLeft,
    UInt32.toBitVec_shiftRight, Nat.mod_eq_of_lt hs']
  have hl : (s.toBitVec % 32).toNat = s.toNat := by
    rw [BitVec.toNat_umod, UInt32.toNat_toBitVec]
    exact Nat.mod_eq_of_lt hs'
  have hr : ((32 - s).toBitVec % 32).toNat = 32 - s.toNat := by
    rw [BitVec.toNat_umod, UInt32.toNat_toBitVec, hsub]
    exact Nat.mod_eq_of_lt (show 32 - s.toNat < 32 by omega)
  rw [BitVec.shiftLeft_eq', BitVec.ushiftRight_eq', hl, hr]

theorem step_eq {s : UInt32} (hs : 0 < s.toNat) (hs' : s.toNat < 32)
    (f : UInt32 → UInt32 → UInt32 → UInt32) (a b c d x t : UInt32) :
    step f a b c d x t s = b + rotl (a + f b c d + x + t) s.toNat := by
  simp only [step, rotl_eq hs hs', UInt32.add_assoc]
  exact UInt32.add_comm _ _

/-! ## Rounds -/

def words (r : Md5Regs) : Words := ⟨r.a, r.b, r.c, r.d⟩

/-- Four uses of `STEP`, one for each register, are four steps. -/
theorem quad {f f₁ f₂ f₃ : UInt32 → UInt32 → UInt32 → UInt32} {x x₁ x₂ x₃ t t₁ t₂ t₃ : UInt32}
    {s s₁ s₂ s₃ : UInt32} (h : 0 < s.toNat ∧ s.toNat < 32) (h₁ : 0 < s₁.toNat ∧ s₁.toNat < 32)
    (h₂ : 0 < s₂.toNat ∧ s₂.toNat < 32) (h₃ : 0 < s₃.toNat ∧ s₃.toNat < 32) (r : Md5Regs) :
    words (stepB f₃ x₃ t₃ s₃ (stepC f₂ x₂ t₂ s₂ (stepD f₁ x₁ t₁ s₁ (stepA f x t s r)))) =
      MessageDigest.step f₃ x₃ t₃ s₃.toNat (MessageDigest.step f₂ x₂ t₂ s₂.toNat
        (MessageDigest.step f₁ x₁ t₁ s₁.toNat (MessageDigest.step f x t s.toNat (words r)))) := by
  simp only [stepA, stepB, stepC, stepD, step_eq h.1 h.2, step_eq h₁.1 h₁.2, step_eq h₂.1 h₂.2,
    step_eq h₃.1 h₃.2]
  rfl

section Rounds

variable (block : ℕ → UInt32) {w : Words} {r : Md5Regs}

theorem round1_eq (h : words r = w) : words (round1 block r) = steps block 16 w := by
  have hF : F = auxiliary 0 := by funext x y z; exact F_eq x y z
  simp only [round1, hF]
  repeat rw [quad (by decide) (by decide) (by decide) (by decide)]
  rw [h]
  rfl

theorem round2_eq (h : words r = steps block 16 w) :
    words (round2 block r) = steps block 32 w := by
  have hG : G = auxiliary 1 := by funext x y z; exact G_eq x y z
  simp only [round2, hG]
  repeat rw [quad (by decide) (by decide) (by decide) (by decide)]
  rw [h]
  rfl

theorem round3_eq (h : words r = steps block 32 w) :
    words (round3 block r) = steps block 48 w := by
  have hH2 : H2 = H := by funext x y z; exact H2_eq x y z
  simp only [round3, hH2]
  repeat rw [quad (by decide) (by decide) (by decide) (by decide)]
  rw [h]
  rfl

theorem round4_eq (h : words r = steps block 48 w) :
    words (round4 block r) = steps block 64 w := by
  simp only [round4]
  repeat rw [quad (by decide) (by decide) (by decide) (by decide)]
  rw [h]
  rfl

end Rounds

theorem wordIndex_lt (i : ℕ) : wordIndex i < 16 := by
  unfold wordIndex
  split <;> omega

/-- Only the sixteen words of the block are read. -/
theorem steps_congr {block block' : ℕ → UInt32} (h : ∀ j < 16, block j = block' j) :
    ∀ (i : ℕ) (w : Words), steps block i w = steps block' i w
  | 0, w => rfl
  | i + 1, w => by
    simp only [steps, h _ (wordIndex_lt i), steps_congr h i w]

/-! ## Blocks -/

theorem or_shiftLeft {k lo : ℕ} (h : lo < 2 ^ k) (n : ℕ) : lo ||| n <<< k = lo + n * 2 ^ k := by
  rw [Nat.or_comm, ← Nat.shiftLeft_add_eq_or_of_lt h, Nat.shiftLeft_eq, Nat.add_comm]

/-- A byte shifted to its place in a word. -/
theorem toNat_byte_shift (b : UInt8) {s : UInt32} (hs : s.toNat ≤ 24) :
    (b.toUInt32 <<< s).toNat = b.toNat <<< s.toNat := by
  have hb := b.toNat_lt
  have hle : 2 ^ s.toNat ≤ 2 ^ 24 := Nat.pow_le_pow_right (by omega) hs
  have hlt : b.toNat * 2 ^ s.toNat < 2 ^ 32 := by
    calc b.toNat * 2 ^ s.toNat ≤ b.toNat * 2 ^ 24 := Nat.mul_le_mul_left _ hle
      _ < 2 ^ 32 := by omega
  rw [UInt32.toNat_shiftLeft, Nat.mod_eq_of_lt (show s.toNat < 32 by omega), UInt8.toNat_toUInt32,
    Nat.shiftLeft_eq, Nat.mod_eq_of_lt hlt]

/-- Four bytes put together, least significant first. -/
theorem or_bytes (b₀ b₁ b₂ b₃ : UInt8) :
    b₀.toUInt32 ||| (b₁.toUInt32 <<< 8) ||| (b₂.toUInt32 <<< 16) ||| (b₃.toUInt32 <<< 24) =
      UInt32.ofNat (leNat [b₀, b₁, b₂, b₃]) := by
  have h₀ := b₀.toNat_lt
  have h₁ := b₁.toNat_lt
  have h₂ := b₂.toNat_lt
  have h₃ := b₃.toNat_lt
  have e₁ : b₀.toNat ||| b₁.toNat <<< 8 = b₀.toNat + b₁.toNat * 2 ^ 8 := or_shiftLeft h₀ _
  have e₂ := or_shiftLeft (k := 16) (show b₀.toNat + b₁.toNat * 2 ^ 8 < 2 ^ 16 by omega) b₂.toNat
  have e₃ := or_shiftLeft (k := 24)
    (show b₀.toNat + b₁.toNat * 2 ^ 8 + b₂.toNat * 2 ^ 16 < 2 ^ 24 by omega) b₃.toNat
  apply UInt32.toNat_inj.1
  simp only [UInt32.toNat_or, UInt8.toNat_toUInt32]
  rw [toNat_byte_shift b₁ (by decide), toNat_byte_shift b₂ (by decide),
    toNat_byte_shift b₃ (by decide)]
  simp only [UInt32.reduceToNat, e₁, e₂, e₃, UInt32.toNat_ofNat', leNat]
  omega

theorem set_eq (p : Processor) {ptr : List UInt8} {n : ℕ} (h : n * 4 + 4 ≤ ptr.length) :
    set p ptr n = blockWord ptr n := by
  rcases p with _ | _
  · simp only [set, blockWord, Nat.mul_comm]
  · have hget : ∀ k, ptr.getD (n * 4 + k) 0 = (ptr.drop (n * 4)).getD k 0 := fun k => by
      simp only [List.getD_eq_getElem?_getD, List.getElem?_drop]
    have hget0 := hget 0
    have hlen : 4 ≤ (ptr.drop (n * 4)).length := by rw [List.length_drop]; omega
    rw [Nat.add_zero] at hget0
    simp only [set, blockWord, hget, hget0, Nat.mul_comm 4 n]
    generalize ptr.drop (n * 4) = l at hlen
    obtain ⟨b₀, b₁, b₂, b₃, rest, rfl⟩ : ∃ b₀ b₁ b₂ b₃ rest, l = b₀ :: b₁ :: b₂ :: b₃ :: rest := by
      match l, hlen with
      | b₀ :: b₁ :: b₂ :: b₃ :: rest, _ => exact ⟨b₀, b₁, b₂, b₃, rest, rfl⟩
    exact or_bytes b₀ b₁ b₂ b₃

/-- One time round the loop of `body`. -/
theorem words_bodyBlock (p : Processor) (r : Md5Regs) {ptr : List UInt8} (h : 64 ≤ ptr.length) :
    words (bodyBlock p r ptr) = compress (words r) (ptr.take 64) := by
  have hread : ∀ j < 16, set p ptr j = blockWord (ptr.take 64) j := fun j hj => by
    rw [set_eq p (by omega), blockWord, blockWord, List.drop_take, List.take_take,
      Nat.min_eq_left (by omega)]
  have h16 : words (round1 (set p ptr) r) = steps (set p ptr) 16 (words r) := round1_eq _ rfl
  have h64 := round4_eq _ (round3_eq _ (round2_eq _ h16))
  rw [steps_congr hread] at h64
  rw [compress, ← h64]
  rfl

theorem bodyLoop_eq (p : Processor) (n : ℕ) (r : Md5Regs) {ptr : List UInt8}
    (h : (n + 1) * 64 ≤ ptr.length) :
    words (bodyLoop p n r ptr).1 = foldBlocks 64 compress (n + 1) (words r) ptr ∧
      (bodyLoop p n r ptr).2 = ptr.drop ((n + 1) * 64) := by
  have hblock := words_bodyBlock p r (show 64 ≤ ptr.length by omega)
  induction n generalizing r ptr with
  | zero => simp only [bodyLoop, foldBlocks, hblock, Nat.zero_add, Nat.one_mul, and_self]
  | succ n ih =>
    rw [Nat.succ_mul] at h
    have hlen : (n + 1) * 64 ≤ (ptr.drop 64).length := by
      rw [List.length_drop]
      exact Nat.le_sub_of_add_le h
    have hle : 64 ≤ (ptr.drop 64).length :=
      (Nat.le_mul_of_pos_left 64 n.succ_pos).trans hlen
    obtain ⟨hregs, hptr⟩ := ih (bodyBlock p r ptr) hlen (words_bodyBlock p _ hle)
    rw [hblock] at hregs
    rw [List.drop_drop, Nat.add_comm, ← Nat.succ_mul] at hptr
    rw [bodyLoop, foldBlocks]
    exact ⟨hregs, hptr⟩

@[simp] theorem body_lo (p : Processor) (ctx : Md5Ctx) (data : List UInt8) (size : UInt64) :
    (body p ctx data size).1.lo = ctx.lo := rfl

@[simp] theorem body_hi (p : Processor) (ctx : Md5Ctx) (data : List UInt8) (size : UInt64) :
    (body p ctx data size).1.hi = ctx.hi := rfl

@[simp] theorem body_buffer (p : Processor) (ctx : Md5Ctx) (data : List UInt8) (size : UInt64) :
    (body p ctx data size).1.buffer = ctx.buffer := rfl

/-- `body` absorbs the blocks it is given and returns the pointer behind them. -/
theorem body_spec (p : Processor) (ctx : Md5Ctx) (data : List UInt8) (size : UInt64)
    (hpos : 64 ≤ size.toNat) (hwhole : size.toNat % 64 = 0) (hle : size.toNat ≤ data.length) :
    words (body p ctx data size).1.toMd5Regs =
        absorb 64 compress (words ctx.toMd5Regs) (data.take size.toNat) ∧
      (body p ctx data size).2 = data.drop size.toNat := by
  have hdiv : (size / 64).toNat = size.toNat / 64 := UInt64.toNat_div _ _
  have hn : (size / 64).toNat - 1 + 1 = size.toNat / 64 := by rw [hdiv]; omega
  have hmul : ((size / 64).toNat - 1 + 1) * 64 = size.toNat := by rw [hn]; omega
  obtain ⟨hregs, hptr⟩ := bodyLoop_eq p _ ctx.toMd5Regs (hmul.trans_le hle)
  refine ⟨?_, by rw [body, hptr, hmul]⟩
  have htake : (data.take size.toNat).length = size.toNat := List.length_take_of_le hle
  have hfold : foldBlocks 64 compress (size.toNat / 64) (words ctx.toMd5Regs) (data.take size.toNat)
      = foldBlocks 64 compress (size.toNat / 64) (words ctx.toMd5Regs) data := by
    conv_rhs => rw [← List.take_append_drop size.toNat data]
    exact (foldBlocks_append (by rw [htake]; omega)).symm
  rw [absorb, htake, hfold, body, hregs, hn]

/-- A full buffer through `body`. -/
theorem body_buffer_spec (p : Processor) (ctx : Md5Ctx) (b : Buffer UInt8 64) :
    words (body p ctx b.items 64).1.toMd5Regs = compress (words ctx.toMd5Regs) b.items := by
  obtain ⟨h, -⟩ := body_spec p ctx b.items 64 (by decide) (by decide)
    (by rw [b.length_items]; decide)
  have hall : b.items.take (64 : UInt64).toNat = b.items :=
    List.take_of_length_le (by rw [b.length_items]; decide)
  rwa [hall, absorb_one (by omega) _ b.length_items] at h

/-! ## Counts -/

theorem toNat_sub {x y : UInt64} (h : y.toNat ≤ x.toNat) : (x - y).toNat = x.toNat - y.toNat :=
  UInt64.toNat_sub_of_le _ _ (UInt64.le_iff_toNat_le.2 h)

theorem toNat_64 : (64 : UInt64).toNat = 64 := rfl

theorem toNat_and_63 (x : UInt64) : (x &&& 0x3f).toNat = x.toNat % 64 :=
  (UInt64.toNat_and _ _).trans (Nat.and_two_pow_sub_one_eq_mod x.toNat 6)

theorem toNat_and_not_63 (x : UInt64) : (x &&& ~~~0x3f).toNat = x.toNat / 64 * 64 := by
  have hmask : (~~~0x3f : UInt64).toNat = 2 ^ 64 - (63 + 1) := rfl
  have hmul : x.toNat / 64 * 64 = x.toNat >>> 6 <<< 6 := by
    rw [Nat.shiftRight_eq_div_pow, Nat.shiftLeft_eq]
  rw [UInt64.toNat_and, hmask, hmul]
  apply Nat.eq_of_testBit_eq
  intro i
  have h63 : Nat.testBit 63 i = decide (i < 6) := Nat.testBit_two_pow_sub_one 6 i
  rw [Nat.testBit_and, Nat.testBit_two_pow_sub_succ (by omega), h63, Nat.testBit_shiftLeft,
    Nat.testBit_shiftRight]
  rcases Nat.lt_or_ge i 6 with hi | hi
  · simp [hi]
  · have hback : 6 + (i - 6) = i := by omega
    rcases Nat.lt_or_ge i 64 with hi' | hi'
    · simp [hi, hi', hback]
    · have hfalse : x.toNat.testBit i = false :=
        Nat.testBit_lt_two_pow (x.toNat_lt.trans_le (Nat.pow_le_pow_right (by omega) hi'))
      simp [hback, hfalse]

theorem toNat_low_bits (x : UInt64) : (x &&& 0x1fffffff).toNat = x.toNat % 2 ^ 29 :=
  (UInt64.toNat_and _ _).trans (Nat.and_two_pow_sub_one_eq_mod x.toNat 29)

/-- What a context is after the bytes of a message. -/
structure Holds (ctx : Md5Ctx) (msg : List UInt8) : Prop where
  regs : words ctx.toMd5Regs = absorb 64 compress initial msg
  lo : ctx.lo.toNat = msg.length % 2 ^ 29
  hi : ctx.hi.toNat = msg.length / 2 ^ 29 % 2 ^ 32
  buffer : ctx.buffer.items.take (msg.length % 64) = leftover 64 msg

theorem holds_init (stack : Md5Ctx) : Holds (md5Init stack) [] where
  regs := rfl
  lo := rfl
  hi := rfl
  buffer := rfl

section Update

variable {p : Processor} {ctx : Md5Ctx} {msg data : List UInt8} {size : UInt64}

/-- Whole blocks go to `body`, the rest to the front of the buffer. -/
theorem updateBlocks_spec (p : Processor) (ctx : Md5Ctx) (hsize : size.toNat = data.length) :
    words (md5UpdateBlocks p ctx data size).toMd5Regs =
        absorb 64 compress (words ctx.toMd5Regs) data ∧
      (md5UpdateBlocks p ctx data size).lo = ctx.lo ∧
      (md5UpdateBlocks p ctx data size).hi = ctx.hi ∧
      (md5UpdateBlocks p ctx data size).buffer.items.take (data.length % 64) =
        leftover 64 data := by
  rcases Nat.lt_or_ge data.length 64 with h | h
  · have hlt : ¬64 ≤ size := by
      rw [UInt64.le_iff_toNat_le, hsize]
      exact Nat.not_le.2 h
    have hbuf := Buffer.take_write ctx.buffer (k := 0) (l := data) (by omega)
    rw [md5UpdateBlocks, if_neg hlt, hsize, List.take_length, absorb_of_lt h, leftover_of_lt h,
      Nat.mod_eq_of_lt h]
    rw [Nat.zero_add, List.take_zero, List.nil_append] at hbuf
    exact ⟨rfl, rfl, rfl, hbuf⟩
  · have hge : 64 ≤ size := by
      rw [UInt64.le_iff_toNat_le, hsize]
      exact h
    have hwhole : (size &&& ~~~0x3f).toNat = data.length / 64 * 64 := by
      rw [toNat_and_not_63, hsize]
    obtain ⟨hregs, hptr⟩ := body_spec p ctx data (size &&& ~~~0x3f)
      (by omega) (by omega) (by omega)
    have hrest : (leftover 64 data).length = data.length % 64 := length_leftover 64 data
    have hbuf := Buffer.take_write ctx.buffer (k := 0) (l := leftover 64 data) (by omega)
    rw [hwhole, absorb_take (by omega)] at hregs
    rw [hwhole] at hptr
    rw [Nat.zero_add, List.take_zero, List.nil_append, hrest] at hbuf
    have htake : (data.drop (data.length / 64 * 64)).take (data.length % 64) = leftover 64 data :=
      List.take_of_length_le hrest.le
    rw [md5UpdateBlocks, if_pos hge]
    simp only [hptr, toNat_and_63, hsize, htake, body_lo, body_hi, body_buffer]
    exact ⟨hregs, trivial, trivial, hbuf⟩

/-- The count of the low bits. -/
theorem toNat_lo (size : UInt64) {lo : UInt32} {len : ℕ} (hlo : lo.toNat = len % 2 ^ 29) :
    ((lo.toUInt64 + size) &&& 0x1fffffff).toUInt32.toNat = (len + size.toNat) % 2 ^ 29 := by
  have := size.toNat_lt
  rw [UInt64.toNat_toUInt32, toNat_low_bits, UInt64.toNat_add, UInt32.toNat_toUInt64, hlo]
  omega

/-- The count of the high bits, with a carry whenever the low bits have become fewer. -/
theorem toNat_hi {lo lo' hi : UInt32} {len : ℕ} (hlo : lo.toNat = len % 2 ^ 29)
    (hlo' : lo'.toNat = (len + size.toNat) % 2 ^ 29) (hhi : hi.toNat = len / 2 ^ 29 % 2 ^ 32) :
    ((if lo' < lo then hi + 1 else hi).toUInt64 + (size >>> 29)).toUInt32.toNat =
      (len + size.toNat) / 2 ^ 29 % 2 ^ 32 := by
  have hshift : (size >>> 29).toNat = size.toNat / 2 ^ 29 := by
    rw [UInt64.toNat_shiftRight, show (29 : UInt64).toNat % 64 = 29 from rfl,
      Nat.shiftRight_eq_div_pow]
  have hsize := size.toNat_lt
  have hcarry : (if lo' < lo then hi + 1 else hi).toNat =
      (len / 2 ^ 29 + if lo'.toNat < lo.toNat then 1 else 0) % 2 ^ 32 := by
    split
    · rename_i hlt
      rw [if_pos (UInt32.lt_iff_toNat_lt.1 hlt), UInt32.toNat_add, hhi, Nat.mod_add_mod]
      rfl
    · rename_i hge
      rw [if_neg (fun h => hge (UInt32.lt_iff_toNat_lt.2 h)), hhi, Nat.add_zero]
  rw [UInt64.toNat_toUInt32, UInt64.toNat_add, UInt32.toNat_toUInt64, hcarry, hshift, hlo, hlo']
  split <;> omega

theorem holds_update (h : Holds ctx msg) (hsize : size.toNat = data.length) :
    Holds (md5Update p ctx data size) (msg ++ data) := by
  have hlo := toNat_lo size h.lo
  have hhi := toNat_hi h.lo hlo h.hi
  rw [hsize, ← List.length_append] at hlo hhi
  have hused : (ctx.lo.toUInt64 &&& 0x3f).toNat = msg.length % 64 := by
    rw [toNat_and_63, UInt32.toNat_toUInt64, h.lo]
    omega
  have hleft : (leftover 64 msg).length = msg.length % 64 := length_leftover 64 msg
  have hmod := Nat.mod_lt msg.length (show 0 < 64 by omega)
  simp only [md5Update]
  generalize ((if (ctx.lo.toUInt64 + size &&& 0x1fffffff).toUInt32 < ctx.lo then ctx.hi + 1
    else ctx.hi).toUInt64 + size >>> 29).toUInt32 = hi at hhi ⊢
  generalize (ctx.lo.toUInt64 + size &&& 0x1fffffff).toUInt32 = lo at hlo ⊢
  generalize ctx.lo.toUInt64 &&& 0x3f = used at hused ⊢
  by_cases hz : used = 0
  · -- The buffer is empty, so the message was made of whole blocks.
    have hnil : leftover 64 msg = [] := List.eq_nil_of_length_eq_zero (by
      rw [hleft, ← hused, hz]
      rfl)
    obtain ⟨hregs, hlo', hhi', hbuf⟩ := updateBlocks_spec p { ctx with lo, hi } hsize
    rw [if_neg (not_not.2 hz)]
    refine ⟨?_, by rw [hlo', hlo], by rw [hhi', hhi], ?_⟩
    · rw [hregs, absorb_append (by omega), hnil, ← h.regs, List.nil_append]
    · rw [leftover_append (by omega), hnil, List.nil_append, ← hbuf, List.length_append]
      congr 1
      have : msg.length % 64 = 0 := by rw [← hused, hz]; rfl
      omega
  have havail : (64 - used).toNat = 64 - msg.length % 64 := by
    rw [toNat_sub (by rw [toNat_64]; omega), toNat_64, hused]
  rw [if_pos hz]
  by_cases hlt : size < 64 - used
  · -- Everything still fits behind what the buffer holds.
    rw [if_pos hlt]
    rw [UInt64.lt_iff_toNat_lt, hsize, havail] at hlt
    have hshort : (leftover 64 msg ++ data).length < 64 := by
      rw [List.length_append, hleft]
      omega
    have hbuf := Buffer.take_write ctx.buffer (k := msg.length % 64) (l := data) (by omega)
    rw [h.buffer] at hbuf
    refine ⟨?_, hlo, hhi, ?_⟩
    · rw [absorb_append (by omega), ← h.regs, absorb_of_lt hshort]
    · rw [leftover_append (by omega), leftover_of_lt hshort, List.length_append, ← hbuf, hsize,
        List.take_length, hused]
      congr 1
      omega
  · -- The buffer is filled up and absorbed first.
    rw [if_neg hlt]
    rw [UInt64.lt_iff_toNat_lt, hsize, havail, Nat.not_lt] at hlt
    obtain ⟨front, rest, rfl, hfront⟩ : ∃ front rest, data = front ++ rest ∧
        front.length = 64 - msg.length % 64 :=
      ⟨_, _, (List.take_append_drop _ data).symm, List.length_take_of_le hlt⟩
    have hblock : (leftover 64 msg ++ front).length = 64 := by
      rw [List.length_append, hleft, hfront]
      omega
    have hfull := Buffer.write_to_end ctx.buffer (k := msg.length % 64) (l := front) (by omega)
    have hrest : (size - (64 - used)).toNat = rest.length := by
      rw [toNat_sub (by omega), hsize, havail, List.length_append, hfront]
      omega
    simp only [havail, hused, ← hfront, List.take_left, List.drop_left]
    generalize ctx.buffer.write (msg.length % 64) front = buffer at hfull ⊢
    rw [h.buffer] at hfull
    have hfirst := body_buffer_spec p { ctx with lo, hi, buffer } buffer
    generalize hctx : (body p { ctx with lo, hi, buffer } buffer.items 64).1 = ctx' at hfirst ⊢
    rw [hfull] at hfirst
    obtain ⟨hregs, hlo', hhi', hbuf⟩ := updateBlocks_spec p ctx' hrest
    subst hctx
    have hcut : leftover 64 msg ++ (front ++ rest) = (leftover 64 msg ++ front) ++ rest :=
      (List.append_assoc _ _ _).symm
    refine ⟨?_, by rw [hlo']; exact hlo, by rw [hhi']; exact hhi, ?_⟩
    · rw [hregs, hfirst, absorb_append (by omega) _ msg, hcut, absorb_block (by omega) _ hblock,
        ← h.regs]
    · rw [leftover_append (by omega) msg, hcut, leftover_block (by omega) hblock, ← hbuf,
        List.length_append, List.length_append, hfront]
      congr 1
      omega

end Update

/-! ## The digest -/

theorem wordBytes_eq (w : UInt32) : wordBytes w = leBytes 4 w.toNat := by
  have h8 : (w >>> 8).toNat = w.toNat / 256 := by
    rw [UInt32.toNat_shiftRight, show (8 : UInt32).toNat % 32 = 8 from rfl,
      Nat.shiftRight_eq_div_pow]
  have h16 : (w >>> 16).toNat = w.toNat / 256 / 256 := by
    rw [UInt32.toNat_shiftRight, show (16 : UInt32).toNat % 32 = 16 from rfl,
      Nat.shiftRight_eq_div_pow, Nat.div_div_eq_div_mul]
  have h24 : (w >>> 24).toNat = w.toNat / 256 / 256 / 256 := by
    rw [UInt32.toNat_shiftRight, show (24 : UInt32).toNat % 32 = 24 from rfl,
      Nat.shiftRight_eq_div_pow, Nat.div_div_eq_div_mul, Nat.div_div_eq_div_mul]
  have hbyte : ∀ x : UInt32, x.toUInt8 = UInt8.ofNat x.toNat := fun x => rfl
  simp only [wordBytes, leBytes, hbyte, h8, h16, h24]

/-- The count in bits, as `md5Final` stores it. -/
theorem count_bytes {lo hi : UInt32} {len : ℕ} (hlo : lo.toNat = len % 2 ^ 29)
    (hhi : hi.toNat = len / 2 ^ 29 % 2 ^ 32) :
    wordBytes (lo <<< 3) ++ wordBytes hi = leBytes 8 (8 * len) := by
  have hshift : (lo <<< 3).toNat = 8 * len % 256 ^ 4 := by
    rw [UInt32.toNat_shiftLeft, show (3 : UInt32).toNat % 32 = 3 from rfl, Nat.shiftLeft_eq, hlo]
    omega
  have hhigh : hi.toNat = 8 * len / 256 ^ 4 % 256 ^ 4 := by
    rw [hhi]
    omega
  rw [wordBytes_eq, wordBytes_eq, hshift, hhigh, leBytes_mod, leBytes_mod, ← leBytes_add]

/-- The last block, when the buffer holds `front` and the count of a message. -/
theorem finalBlock_spec (p : Processor) (ctx : Md5Ctx) (front : List UInt8)
    {used available : UInt64} {len : ℕ} (hused : used.toNat = front.length)
    (havail : available.toNat = 64 - front.length) (hle : front.length ≤ 56)
    (hbuf : ctx.buffer.items.take front.length = front) (hlo : ctx.lo.toNat = len % 2 ^ 29)
    (hhi : ctx.hi.toNat = len / 2 ^ 29 % 2 ^ 32) :
    words (md5FinalBlock p ctx used available).toMd5Regs =
      compress (words ctx.toMd5Regs)
        (front ++ (.replicate (56 - front.length) 0 ++ leBytes 8 (8 * len))) := by
  have hroom : (available - 8).toNat = 56 - front.length := by
    have h8 : (8 : UInt64).toNat = 8 := rfl
    rw [toNat_sub (by omega), havail, h8]
    omega
  have hzeros := Buffer.take_write ctx.buffer (k := front.length)
    (l := .replicate (56 - front.length) 0) (by rw [List.length_replicate]; omega)
  rw [List.length_replicate, Nat.add_sub_cancel' hle, hbuf] at hzeros
  rw [md5FinalBlock, body_buffer_spec, count_bytes hlo hhi, hused, hroom,
    Buffer.write_to_end _ (by rw [length_leBytes]), hzeros, List.append_assoc]

theorem render_eq (r : Md5Regs) :
    wordBytes r.a ++ wordBytes r.b ++ wordBytes r.c ++ wordBytes r.d = render (words r) := by
  simp only [wordBytes_eq, render, words]

theorem final_eq {p : Processor} {ctx : Md5Ctx} {msg : List UInt8} (h : Holds ctx msg) :
    (md5Final p ctx).1 = digest msg := by
  have hused : (ctx.lo.toUInt64 &&& 0x3f).toNat = msg.length % 64 := by
    rw [toNat_and_63, UInt32.toNat_toUInt64, h.lo]
    omega
  have hmod := Nat.mod_lt msg.length (show 0 < 64 by omega)
  have hmark := Buffer.take_write ctx.buffer (k := msg.length % 64) (l := [0x80])
    (by rw [List.length_singleton]; omega)
  rw [h.buffer, List.length_singleton] at hmark
  simp only [md5Final, hused, render_eq]
  generalize ctx.lo.toUInt64 &&& 0x3f = used at hused ⊢
  generalize ctx.buffer.write (msg.length % 64) [0x80] = buffer at hmark ⊢
  have hused' : (used + 1).toNat = msg.length % 64 + 1 := by
    rw [UInt64.toNat_add, hused, show (1 : UInt64).toNat = 1 from rfl]
    omega
  have havail : (64 - (used + 1)).toNat = 63 - msg.length % 64 := by
    rw [toNat_sub (by rw [toNat_64]; omega), toNat_64, hused']
    omega
  have hlen : (leftover 64 msg ++ [0x80]).length = msg.length % 64 + 1 := by
    rw [List.length_append, length_leftover, List.length_singleton]
  have hpad : leftover 64 msg ++ padding msg.length =
      leftover 64 msg ++ [0x80] ++ .replicate (zeros msg.length) 0 ++ leBytes 8 (8 * msg.length) := by
    simp only [padding, List.append_assoc, List.cons_append, List.nil_append]
  rw [digest, absorb_append (by omega), hpad, ← h.regs]
  generalize leftover 64 msg ++ [0x80] = marked at hmark hlen ⊢
  by_cases hlt : 64 - (used + 1) < 8
  · -- No room for the count, so one more block is filled up with zeros first.
    rw [if_pos hlt]
    rw [UInt64.lt_iff_toNat_lt, havail, show (8 : UInt64).toNat = 8 from rfl] at hlt
    have hfull := Buffer.write_to_end buffer (k := msg.length % 64 + 1)
      (l := .replicate (63 - msg.length % 64) 0) (by rw [List.length_replicate]; omega)
    rw [hmark] at hfull
    rw [havail, hused']
    generalize buffer.write (msg.length % 64 + 1) (.replicate (63 - msg.length % 64) 0) = buffer'
      at hfull ⊢
    have hfirst := body_buffer_spec p { ctx with buffer := buffer' } buffer'
    generalize hctx : (body p { ctx with buffer := buffer' } buffer'.items 64).1 = ctx' at hfirst ⊢
    have hlo : ctx'.lo = ctx.lo := by rw [← hctx, body_lo]
    have hhi : ctx'.hi = ctx.hi := by rw [← hctx, body_hi]
    have hlast := finalBlock_spec p ctx' [] (show (0 : UInt64).toNat = 0 from rfl) toNat_64
      (by simp) rfl (by rw [hlo, h.lo]) (by rw [hhi, h.hi])
    have hblock : (marked ++ List.replicate (63 - msg.length % 64) 0).length = 64 := by
      rw [List.length_append, hlen, List.length_replicate]
      omega
    have hzeros : zeros msg.length = (63 - msg.length % 64) + 56 := by
      rw [zeros]
      omega
    have hcut : marked ++ List.replicate (zeros msg.length) 0 ++ leBytes 8 (8 * msg.length) =
        (marked ++ List.replicate (63 - msg.length % 64) 0) ++
          (List.replicate 56 0 ++ leBytes 8 (8 * msg.length)) := by
      rw [hzeros, ← List.replicate_append_replicate]
      simp only [List.append_assoc]
    rw [hcut, absorb_block (by omega) _ hblock, absorb_one (by omega) _ (by
      rw [List.length_append, List.length_replicate, length_leBytes])]
    rw [hfirst, List.nil_append, List.length_nil, Nat.sub_zero] at hlast
    rw [hlast, hfull]
  · rw [if_neg hlt]
    rw [UInt64.lt_iff_toNat_lt, havail, show (8 : UInt64).toNat = 8 from rfl] at hlt
    have hlast := finalBlock_spec p { ctx with buffer } marked
      (hused'.trans hlen.symm) (by rw [havail, hlen]; omega) (by omega) (by rw [hlen]; exact hmark)
      h.lo h.hi
    have hzeros : zeros msg.length = 56 - marked.length := by
      rw [zeros, hlen]
      omega
    rw [hzeros, List.append_assoc, absorb_one (by omega) _ (by
      rw [List.length_append, List.length_append, List.length_replicate, length_leBytes]
      omega), hlast]

end Md5

/-! ## Messages in pieces -/

open Md5

/-- The updates of a message that comes in pieces. -/
def md5Updates (p : Processor) (ctx : Md5Ctx) : List (List UInt8) → Md5Ctx
  | [] => ctx
  | piece :: pieces => md5Updates p (md5Update p ctx piece (UInt64.ofNat piece.length)) pieces

theorem holds_updates (p : Processor) : ∀ (pieces : List (List UInt8)) {ctx : Md5Ctx}
    {msg : List UInt8}, Holds ctx msg → (∀ piece ∈ pieces, piece.length < UInt64.size) →
      Holds (md5Updates p ctx pieces) (msg ++ pieces.flatten)
  | [], ctx, msg, h, _ => by rwa [List.flatten_nil, List.append_nil]
  | piece :: pieces, ctx, msg, h, hsize => by
    have hpiece : (UInt64.ofNat piece.length).toNat = piece.length :=
      UInt64.toNat_ofNat_of_lt' (hsize piece List.mem_cons_self)
    have hrest := holds_updates p pieces (holds_update (p := p) h hpiece)
      fun q hq => hsize q (List.mem_cons_of_mem _ hq)
    rwa [List.append_assoc] at hrest

/-- However a message is cut into pieces, on either kind of processor and whatever was in memory
before, the result is its digest. -/
theorem md5_pieces (p : Processor) (stack : Md5Ctx) (pieces : List (List UInt8))
    (hsize : ∀ piece ∈ pieces, piece.length < UInt64.size) :
    (md5Final p (md5Updates p (md5Init stack) pieces)).1 = digest pieces.flatten :=
  final_eq (holds_updates p pieces (holds_init stack) hsize)

/-- In two pieces, over memory that held other bytes. -/
theorem md5_pieces_abc :
    (md5Final .portable (md5Updates .portable
      (md5Init ⟨⟨1, 2, 3, 4⟩, 5, 6, ⟨.replicate 64 7, rfl⟩⟩) [[97], [98, 99]])).1 =
      digest [97, 98, 99] :=
  md5_pieces .portable _ [[97], [98, 99]] (by decide)

/-- The hash of a string is the start of the digest of its bytes. -/
theorem strhash64_eq (p : Processor) (stack : Md5Ctx) {str : CStr} (h : str.strlen < UInt64.size) :
    strhash64 p stack str = UInt64.ofNat (leNat ((digest str.bytes).take 8)) := by
  have hsize : (UInt64.ofNat str.strlen).toNat = str.bytes.length := UInt64.toNat_ofNat_of_lt' h
  have hfinal := final_eq (p := p) (holds_update (p := p) (holds_init stack) hsize)
  rw [strhash64, hfinal, List.nil_append]

end Cs162
