import Mathlib.Data.List.Iterate
import Cs162.TpcSystem
import Cs162.Proofs.TpcLeader
import Cs162.Proofs.TpcFollower

/-!
# The walk along a key's replicas

Both phases contact the followers of a key in the same order, the primary first. A leader that
`Serves` goes through all of them: at capacity every key has a primary, and a redundancy of at most
`INT_MAX` survives the assignment to `int r_val`.
-/

namespace Cs162

open CLib

variable (strhash64 : CStr → UInt64)

/-- The leader is full, and its redundancy is positive and fits an `int`. -/
structure TpcLeader.Serves (l : TpcLeader) : Prop where
  capacity : l.followerCount = l.followerCapacity
  primary : ∀ key, ∃ p, tpcleaderGetPrimary strhash64 l key = some (some p)
  rVal : l.rVal = l.redundancy.toNat
  pos : 1 ≤ l.redundancy.toNat

/-- The node that `n` steps from a key's primary lead to. -/
def TpcLeader.walk (l : TpcLeader) (key : CStr) (n : ℕ) : ℕ :=
  match tpcleaderGetPrimary strhash64 l key with
  | some (some primary) => (tpcleaderGetSuccessor l)^[n] primary
  | _ => 0

variable {strhash64} {l : TpcLeader} {req : KvRequest} {u : Update} {c : Contact}

theorem TpcLeader.walk_succ (hs : l.Serves strhash64) (key : CStr) (n : ℕ) :
    tpcleaderGetSuccessor l (l.walk strhash64 key n) = l.walk strhash64 key (n + 1) := by
  obtain ⟨p, hp⟩ := hs.primary key
  simp only [TpcLeader.walk, hp, Function.iterate_succ_apply']

theorem TpcLeader.Serves.primary_eq (hs : l.Serves strhash64) (key : CStr) :
    tpcleaderGetPrimary strhash64 l key = some (some (l.walk strhash64 key 0)) := by
  obtain ⟨p, hp⟩ := hs.primary key
  simp only [TpcLeader.walk, hp, Function.iterate_zero, id_eq]

theorem TpcLeader.mem_replicas (hs : l.Serves strhash64) {key : CStr} {f : Addr} :
    f ∈ l.replicas strhash64 key
      ↔ ∃ n < l.redundancy.toNat, l.addr (l.walk strhash64 key n) = f := by
  obtain ⟨p, hp⟩ := hs.primary key
  simp only [TpcLeader.replicas, TpcLeader.walk, hp, List.mem_map]
  constructor
  · rintro ⟨a, ha, rfl⟩
    obtain ⟨n, hn, rfl⟩ := List.mem_iff_getElem.1 ha
    rw [List.length_iterate] at hn
    exact ⟨n, hn, by rw [List.getElem_iterate]⟩
  · rintro ⟨n, hn, rfl⟩
    refine ⟨_, ?_, rfl⟩
    rw [← List.getElem_iterate (tpcleaderGetSuccessor l) p l.redundancy.toNat n
      (by rwa [List.length_iterate])]
    exact List.getElem_mem _

/-- A redundancy beyond `INT_MAX` becomes a negative `r_val`. -/
theorem TpcLeader.rVal_eq (l : TpcLeader) : l.rVal =
    if l.redundancy.toNat < 2 ^ 31 then (l.redundancy.toNat : ℤ)
    else l.redundancy.toNat - 2 ^ 32 := by
  have h := l.redundancy.toNat_lt
  have : l.rVal = (l.redundancy.toNat : ℤ).bmod (2 ^ 32) := by
    simp only [TpcLeader.rVal, Int32.toInt, UInt32.toInt32, BitVec.toInt_eq_toNat_bmod]
    rfl
  rw [this, Int.bmod_def]
  split_ifs <;> omega

section Registered

variable {mem : TpcLeader} {capacity redundancy : UInt32} {reqs : List KvRequest}

/-- A leader that has registered its capacity of followers has a primary for every key. -/
theorem TpcLeader.primary_of_capacity
    (hreg : registerAll strhash64 (tpcleaderInit mem capacity redundancy) reqs = some l)
    (hcap : l.followerCount = l.followerCapacity) (hne : l.followerCapacity ≠ 0) (key : CStr) :
    ∃ p, tpcleaderGetPrimary strhash64 l key = some (some p) := by
  obtain ⟨ring, hr, -, -⟩ := (hasRing_init mem capacity redundancy).registerAll hreg
  refine hr.getPrimary ?_ hcap strhash64 key
  rintro rfl
  exact hne (hcap ▸ UInt32.toNat_inj.1 hr.count)

theorem TpcLeader.primary
    (hreg : registerAll strhash64 (tpcleaderInit mem capacity redundancy) reqs = some l)
    (hcap : l.followerCount = l.followerCapacity) (hpos : 1 ≤ l.redundancy.toNat) (key : CStr) :
    ∃ p, tpcleaderGetPrimary strhash64 l key = some (some p) := by
  obtain ⟨ring, hr, hc, hred⟩ := (hasRing_init mem capacity redundancy).registerAll hreg
  refine TpcLeader.primary_of_capacity hreg hcap (fun h0 => ?_) key
  rw [hc] at h0
  have hle : l.redundancy.toNat ≤ capacity.toNat := by
    rw [hred]
    simp only [tpcleaderInit]
    split_ifs with h
    · exact le_rfl
    · rw [UInt32.lt_iff_toNat_lt] at h
      omega
  rw [show capacity = 0 from h0] at hle
  simp at hle
  omega

theorem TpcLeader.serves
    (hreg : registerAll strhash64 (tpcleaderInit mem capacity redundancy) reqs = some l)
    (hcap : l.followerCount = l.followerCapacity) (hpos : 1 ≤ l.redundancy.toNat)
    (hmax : l.redundancy.toNat < 2 ^ 31) : l.Serves strhash64 :=
  ⟨hcap, TpcLeader.primary hreg hcap hpos, by rw [l.rVal_eq, if_pos hmax], hpos⟩

end Registered

/-- A leader whose memory nobody has written yet. -/
def blankLeader : TpcLeader := ⟨0, 0, 0, none, fun _ => ⟨0, .ofString "", 0, 0, 0⟩, 0⟩

def soloRegister : KvRequest := ⟨.register, some (.ofString "h"), some (.ofString "16201")⟩

/-- A full leader of one follower, with a hash function that is constantly 0. -/
def soloLeader : TpcLeader :=
  { (tpcleaderInit blankLeader 1 1).newFollower 0 (.ofString "h") 16201 with
    followersHead := some 0
    followerCount := 1 }

theorem soloLeader_registered :
    registerAll (fun _ => 0) (tpcleaderInit blankLeader 1 1) [soloRegister] = some soloLeader := rfl

/-- A hash function that takes the first byte. -/
def firstByte (s : CStr) : UInt64 := .ofNat (s.bytes.headD 0).toNat

/-- The registrations of three followers of different ids. -/
def trioRegisters : List KvRequest :=
  [⟨.register, some (.ofString "h"), some (.ofString "3")⟩,
    ⟨.register, some (.ofString "h"), some (.ofString "1")⟩,
    ⟨.register, some (.ofString "h"), some (.ofString "2")⟩]

/-- A full leader of three followers. -/
def trioLeader (redundancy : UInt32) : TpcLeader :=
  (registerAll firstByte (tpcleaderInit blankLeader 3 redundancy) trioRegisters).getD blankLeader

theorem trioLeader_registered (redundancy : UInt32) :
    registerAll firstByte (tpcleaderInit blankLeader 3 redundancy) trioRegisters
      = some (trioLeader redundancy) := rfl

/-- Followers that have just created their stores. -/
def emptyFollowers : Addr → KvServer := fun _ => ⟨emptyDir, ⟨0, 0⟩, .none⟩

def putRequest (key value : String) : KvRequest :=
  ⟨.putreq, some (.ofString key), some (.ofString value)⟩

/-! ## Where a thread stands -/

/-- Before exchange `n` of a phase. -/
def TpcLocals.at (strhash64 : CStr → UInt64) (l : TpcLeader) (req : KvRequest) (key : CStr)
    (n abortBool : ℕ) : TpcLocals :=
  ⟨req, l.redundancy.toNat - n, l.walk strhash64 key n, abortBool⟩

/-- The message of phase 2. -/
def decision (req : KvRequest) (abortBool : ℕ) : KvRequest :=
  { req with type := if 0 < abortBool then .abort else .commit }

theorem handleTpc_start (hs : l.Serves strhash64) (hu : updateOf req = some u) :
    tpcleaderHandleTpc strhash64 l req = some (.phase1 (.at strhash64 l req u.key 0 0)) := by
  have hpos := hs.pos
  simp only [tpcleaderHandleTpc, hs.capacity, updateOf_key hu, hs.primary_eq, ne_eq,
    not_true_eq_false, if_false, Option.bind_eq_bind, Option.bind_some, phase1Head, hs.rVal]
  rw [if_pos (by omega)]
  simp [TpcLocals.at]

/-- Without a positive `r_val` both loops are skipped. -/
theorem handleTpc_overflow (hcap : l.followerCount = l.followerCapacity)
    (hprimary : ∀ k, ∃ p, tpcleaderGetPrimary strhash64 l k = some (some p)) (hr : l.rVal ≤ 0)
    (hu : updateOf req = some u) :
    tpcleaderHandleTpc strhash64 l req = some (.ended ⟨.success, none⟩) := by
  obtain ⟨p, hp⟩ := hprimary u.key
  simp [tpcleaderHandleTpc, hcap, updateOf_key hu, hp, phase1Head, endPhase1, phase2Head,
    not_lt.2 hr]

/-- A leader that does not serve answers every update at once. -/
theorem TpcLeader.serves_or_ended {mem : TpcLeader} {capacity redundancy : UInt32}
    {regs : List KvRequest}
    (hreg : registerAll strhash64 (tpcleaderInit mem capacity redundancy) regs = some l)
    (hne : l.followerCapacity ≠ 0) : l.Serves strhash64 ∨ ∀ req u, updateOf req = some u →
      ∃ res, tpcleaderHandleTpc strhash64 l req = some (.ended res) := by
  by_cases hcap : l.followerCount = l.followerCapacity
  · have hprimary := TpcLeader.primary_of_capacity hreg hcap hne
    by_cases hr : 0 < l.rVal
    · left
      have := l.redundancy.toNat_lt
      have hrVal := l.rVal_eq
      split_ifs at hrVal with hmax
      · exact ⟨hcap, hprimary, hrVal, by omega⟩
      · omega
    · exact .inr fun req u hu => ⟨_, handleTpc_overflow hcap hprimary (by omega) hu⟩
  · exact .inr fun req u _ => ⟨_, by rw [tpcleaderHandleTpc, if_pos hcap]⟩

theorem receive_phase1 (hs : l.Serves strhash64) (hu : updateOf req = some u) {n a : ℕ}
    (hn : n < l.redundancy.toNat) {b : Bool} (hb : votesAbort c = some b) :
    (TpcThread.phase1 (.at strhash64 l req u.key n a)).receive strhash64 l c
      = some (if n + 1 < l.redundancy.toNat
          then .phase1 (.at strhash64 l req u.key (n + 1) (if b then a + 1 else a))
          else .phase2 (.at strhash64 l (decision req (if b then a + 1 else a)) u.key 0
            (if b then a + 1 else a))) := by
  have hpos := hs.pos
  simp only [TpcThread.receive, TpcLocals.at, hb, Option.bind_eq_bind, Option.bind_some,
    TpcLeader.walk_succ hs, phase1Head]
  by_cases h : n + 1 < l.redundancy.toNat
  · rw [if_pos h, if_pos (by omega), Nat.cast_add, Nat.cast_one, sub_sub]
  · rw [if_neg h, if_neg (by omega)]
    simp only [endPhase1, updateOf_key hu, hs.primary_eq, Option.bind_eq_bind, Option.bind_some,
      hs.rVal, phase2Head, Option.pure_def]
    rw [if_pos (by omega)]
    simp [decision, updateOf_key hu]

theorem receive_phase2 (hs : l.Serves strhash64) {key : CStr} {n a : ℕ}
    (hn : n < l.redundancy.toNat) :
    (TpcThread.phase2 (.at strhash64 l req key n a)).receive strhash64 l c
      = some (if acked c then
          if n + 1 < l.redundancy.toNat then .phase2 (.at strhash64 l req key (n + 1) a)
          else .ended (if 0 < a then ⟨.error, some errmsgGenericError⟩ else ⟨.success, none⟩)
        else .phase2 (.at strhash64 l req key n a)) := by
  simp only [TpcThread.receive, TpcLocals.at, TpcLeader.walk_succ hs, phase2Head]
  by_cases hack : acked c = true
  · by_cases h : n + 1 < l.redundancy.toNat
    · rw [if_pos hack, if_pos hack, if_pos h, if_pos (by omega), Nat.cast_add, Nat.cast_one,
        sub_sub]
    · rw [if_pos hack, if_pos hack, if_neg h, if_neg (by omega)]
      split_ifs with ha <;> simp [ha]
  · rw [if_neg hack, if_neg hack]

end Cs162
