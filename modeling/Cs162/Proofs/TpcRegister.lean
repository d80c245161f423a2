import Cs162.Proofs.TpcRing
import Cs162.Lib.Runs

/-!
# Concurrent registrations

`tpcleader_register` tests the capacity before it takes the write lock, so other registrations may
run between its test and its insertion. `SharedLeader` is a leader with the calls that stand between
the two, each with the node it has allocated.

An insertion keeps the count within the capacity, and equal to the number of nodes on the ring, if
and only if there is still room for the node or its id is on the ring already (`goodVisit_iff`). So
two followers that pass the test at the last free place are one too many.
-/

namespace Cs162

open CLib

/-- A leader, and for each thread between its test and its insertion the node it has allocated. -/
structure SharedLeader where
  leader : TpcLeader
  calls : ℕ → Option ℕ

/-- A part of `tpcleader_register` that some thread runs. -/
inductive RegisterPart
  | test (thread : ℕ) (req : KvRequest)
  | insert (thread : ℕ)

variable (strhash64 : CStr → UInt64)

/-- A thread runs a part of a call. A call that finds the leader full is over with its test. A thread
that is between the parts starts no other call, and one that is not has nothing to insert. -/
def SharedLeader.step (s : SharedLeader) : RegisterPart → Option SharedLeader
  | .test t req =>
    if (s.calls t).isSome then some s
    else if s.leader.followerCount = s.leader.followerCapacity then some s
    else do
      let host ← req.key
      let port ← req.val
      let id := strhash64 (followerAddress port host)
      return ⟨s.leader.newFollower id host (.ofInt (atoi port)),
        Function.update s.calls t (some s.leader.allocated)⟩
  | .insert t =>
    match s.calls t with
    | none => some s
    | some node => do
      let l ← registerLocked s.leader node
      return ⟨l, Function.update s.calls t none⟩

/-- Nobody has called a leader that was just initialised. -/
def sharedInit (mem : TpcLeader) (followerCapacity redundancy : UInt32) : SharedLeader :=
  ⟨tpcleaderInit mem followerCapacity redundancy, fun _ => none⟩

/-- The count is within the capacity, and is the number of nodes on the ring. -/
structure CountsRing (l : TpcLeader) : Prop where
  capacity : l.followerCount ≤ l.followerCapacity
  count : ∃ ring : List ℕ, l.followersHead = ring.head? ∧
    Circular (fun a => (l.nodes a).next) (fun a => (l.nodes a).prev) ring ∧
    l.followerCount.toNat = ring.length

/-- An insertion returns, and the count is right before the step and after it. -/
structure GoodRegistration (x : SharedLeader × RegisterPart) : Prop where
  before : CountsRing x.1.leader
  returns : ∀ t, x.2 = .insert t → x.1.step strhash64 x.2 ≠ none
  after : ∀ s, x.1.step strhash64 x.2 = some s → CountsRing s.leader

/-- The ring, walked once around, has no follower of this id. -/
def TpcLeader.IsNewId (l : TpcLeader) (id : UInt64) : Prop :=
  ∀ head, l.followersHead = some head → ∀ i < l.followerCount.toNat,
    (l.nodes ((tpcleaderGetSuccessor l)^[i] head)).id ≠ id

/-- A follower of a new id is inserted only while there is room. -/
def HasRoom (x : SharedLeader × RegisterPart) : Prop :=
  ∀ t node, x.2 = .insert t → x.1.calls t = some node →
    x.1.leader.IsNewId (x.1.leader.nodes node).id →
    x.1.leader.followerCount < x.1.leader.followerCapacity

namespace TpcLeader

variable {l : TpcLeader} {ring : List ℕ}

theorem HasRing.countsRing (h : l.HasRing ring) : CountsRing l :=
  ⟨h.capacity, ring, h.head, h.linked, h.count⟩

theorem HasRing.isNewId_iff (h : l.HasRing ring) (id : UInt64) :
    l.IsNewId id ↔ id ∉ l.ids ring := by
  rw [mem_ids, IsNewId]
  rcases ring with _ | ⟨first, tail⟩
  · have hnone : l.followersHead = none := h.head
    simp [hnone]
  have hhead : l.followersHead = some first := h.head
  constructor
  · rintro hnew ⟨a, ha, hid⟩
    obtain ⟨i, hi, rfl⟩ := List.mem_iff_getElem.1 ha
    obtain ⟨hi', hget⟩ := h.iterate_next (h.count.symm ▸ hi)
    exact hnew first hhead i (h.count.symm ▸ hi) (by rw [hget, hid])
  · intro hno head hsome i hi hid
    obtain rfl : first = head := Option.some.inj (hhead.symm.trans hsome)
    obtain ⟨hi', hget⟩ := h.iterate_next hi
    exact hno ⟨_, List.getElem_mem hi', by rw [← hget, hid]⟩

end TpcLeader

/-- A node that waits for its insertion: linked to itself, and on no ring. -/
structure Waiting (l : TpcLeader) (ring : List ℕ) (node : ℕ) : Prop where
  allocated : node < l.allocated
  apart : node ∉ ring
  next : (l.nodes node).next = node
  prev : (l.nodes node).prev = node

/-- The followers stand in one ring, and each thread holds a node of its own. -/
structure SharedLeader.Inv (s : SharedLeader) : Prop where
  ring : ∃ ring, s.leader.HasRing ring ∧ ∀ t node, s.calls t = some node → Waiting s.leader ring node
  own : ∀ t t' node, s.calls t = some node → s.calls t' = some node → t = t'

variable {strhash64} {l l' : TpcLeader} {ring ring' : List ℕ} {node : ℕ} {s s' : SharedLeader}

theorem sharedInit_inv (mem : TpcLeader) (followerCapacity redundancy : UInt32) :
    (sharedInit mem followerCapacity redundancy).Inv where
  ring := ⟨[], TpcLeader.hasRing_init mem _ _, by simp [sharedInit]⟩
  own := by simp [sharedInit]

theorem SharedLeader.Inv.test {t : ℕ} {req : KvRequest} (h : s.Inv)
    (hs : s.step strhash64 (.test t req) = some s') : s'.Inv := by
  simp only [step] at hs
  split_ifs at hs with hbusy hfull
  · rwa [← Option.some.inj hs]
  · rwa [← Option.some.inj hs]
  simp only [Option.bind_eq_bind, Option.bind_eq_some_iff, Option.pure_def, Option.some.injEq] at hs
  obtain ⟨host, -, port, -, rfl⟩ := hs
  obtain ⟨ring, hring, hwaits⟩ := h.ring
  have hfresh : ∀ t', s.calls t' ≠ some s.leader.allocated := by
    intro t' hheld
    exact lt_irrefl _ (hwaits t' _ hheld).allocated
  refine ⟨⟨ring, hring.newFollower _ _ _, fun t' node hheld => ?_⟩, fun t₁ t₂ node h₁ h₂ => ?_⟩
  · simp only [Function.update_apply] at hheld
    split_ifs at hheld with ht
    · obtain rfl : s.leader.allocated = node := Option.some.inj hheld
      have hnode : ∀ id host port, (s.leader.newFollower id host port).nodes s.leader.allocated
          = ⟨id, host, port, s.leader.allocated, s.leader.allocated⟩ :=
        fun _ _ _ => Function.update_self ..
      exact ⟨Nat.lt_succ_self _, fun hmem => lt_irrefl _ (hring.allocated _ hmem), by rw [hnode],
        by rw [hnode]⟩
    · obtain ⟨halloc, hapart, hnext, hprev⟩ := hwaits t' node hheld
      have hold : ∀ id host port, (s.leader.newFollower id host port).nodes node
          = s.leader.nodes node := fun _ _ _ => Function.update_of_ne halloc.ne _ _
      exact ⟨halloc.trans (Nat.lt_succ_self _), hapart, by rw [hold, hnext], by rw [hold, hprev]⟩
  · simp only [Function.update_apply] at h₁ h₂
    split_ifs at h₁ h₂ with ht₁ ht₂ ht₂
    · rw [ht₁, ht₂]
    · exact absurd (h₂.trans h₁.symm) (hfresh t₂)
    · exact absurd (h₁.trans h₂.symm) (hfresh t₁)
    · exact h.own t₁ t₂ node h₁ h₂

/-- Held nodes still wait after a step that links another one in, or none. -/
theorem Waiting.of_inserted {other : ℕ} (h : Waiting l ring other)
    (hins : TpcLeader.Inserted l l' ring ring' node) (hne : other ≠ node) :
    Waiting l' ring' other where
  allocated := hins.allocated ▸ h.allocated
  apart hmem := (hins.subset other hmem).elim hne h.apart
  next := by rw [hins.frame other h.apart hne, h.next]
  prev := by rw [hins.frame other h.apart hne, h.prev]

theorem not_countsRing_of_full (hfull : l.followerCount = l.followerCapacity)
    (hhead : l'.followersHead ≠ none) (hcount : l'.followerCount = l.followerCount + 1)
    (hcap : l'.followerCapacity = l.followerCapacity) : ¬ CountsRing l' := by
  rintro ⟨hle, ring, hring, -, hlen⟩
  rw [hcap, ← hfull, UInt32.le_iff_toNat_le] at hle
  rw [hcount, UInt32.toNat_add] at hle hlen
  have hlt := l.followerCount.toNat_lt
  have hzero : (l.followerCount.toNat + UInt32.toNat 1) % 2 ^ 32 = 0 := by
    simp only [UInt32.reduceToNat] at hle ⊢
    omega
  rw [hzero] at hlen
  rw [List.length_eq_zero_iff.1 hlen.symm] at hring
  exact hhead hring

/-- What an insertion makes of the leader: nothing if the id is there already, and else a ring of
one more node, or a wrong count if there is no room. -/
theorem SharedLeader.Inv.insert_cases (h : s.Inv) {t : ℕ} (hheld : s.calls t = some node) :
    ∃ l', registerLocked s.leader node = some l' ∧
      (¬ s.leader.IsNewId (s.leader.nodes node).id ∧ l' = s.leader ∨
        s.leader.IsNewId (s.leader.nodes node).id ∧
        (s.leader.followerCount < s.leader.followerCapacity →
          ∃ ring ring', (∀ t node, s.calls t = some node → Waiting s.leader ring node) ∧
            TpcLeader.Inserted s.leader l' ring ring' node) ∧
        (s.leader.followerCount = s.leader.followerCapacity → ¬ CountsRing l')) := by
  obtain ⟨ring, hring, hwaits⟩ := h.ring
  have hw := hwaits t node hheld
  rw [hring.isNewId_iff]
  rcases hring.registerLocked_cases hw.apart hw.allocated hw.next hw.prev with
    ⟨hid, heq⟩ | ⟨hid, l', heq, hhead, hcount, hcap, hins⟩
  · exact ⟨s.leader, heq, .inl ⟨not_not.2 hid, rfl⟩⟩
  · refine ⟨l', heq, .inr ⟨hid, fun hroom => ?_, fun hfull =>
      not_countsRing_of_full hfull hhead hcount hcap⟩⟩
    obtain ⟨ring', hins⟩ := hins hroom
    exact ⟨ring, ring', hwaits, hins⟩

theorem SharedLeader.Inv.insert {t : ℕ} (h : s.Inv) (hroom : HasRoom (s, .insert t))
    (hs : s.step strhash64 (.insert t) = some s') : s'.Inv := by
  rcases hheld : s.calls t with _ | node
  · simp only [step, hheld, Option.some.injEq] at hs
    rwa [← hs]
  obtain ⟨l', heq, hcases⟩ := h.insert_cases hheld
  simp only [step, hheld, heq, Option.bind_eq_bind, Option.bind_some, Option.pure_def,
    Option.some.injEq] at hs
  subst hs
  have hrest : ∀ t' other, Function.update s.calls t none t' = some other →
      t' ≠ t ∧ s.calls t' = some other := by
    intro t' other hother
    rw [Function.update_apply] at hother
    split_ifs at hother with ht
    exact ⟨ht, hother⟩
  have hown : ∀ t₁ t₂ other, Function.update s.calls t none t₁ = some other →
      Function.update s.calls t none t₂ = some other → t₁ = t₂ := by
    intro t₁ t₂ other h₁ h₂
    exact h.own t₁ t₂ other (hrest t₁ other h₁).2 (hrest t₂ other h₂).2
  rcases hcases with ⟨-, rfl⟩ | ⟨hnew, hins, -⟩
  · obtain ⟨ring, hring, hwaits⟩ := h.ring
    exact ⟨⟨ring, hring, fun t' other hother => hwaits t' other (hrest t' other hother).2⟩, hown⟩
  · obtain ⟨ring, ring', hwaits, hins⟩ := hins (hroom t node rfl hheld hnew)
    refine ⟨⟨ring', hins.hasRing, fun t' other hother => ?_⟩, hown⟩
    obtain ⟨ht, hother⟩ := hrest t' other hother
    refine (hwaits t' other hother).of_inserted hins ?_
    rintro rfl
    exact ht (h.own t' t other hother hheld)

theorem SharedLeader.Inv.step {part : RegisterPart} (h : s.Inv) (hroom : HasRoom (s, part))
    (hs : s.step strhash64 part = some s') : s'.Inv := by
  cases part with
  | test t req => exact h.test hs
  | insert t => exact h.insert hroom hs

theorem SharedLeader.Inv.countsRing (h : s.Inv) : CountsRing s.leader := by
  obtain ⟨ring, hring, -⟩ := h.ring
  exact hring.countsRing

theorem SharedLeader.Inv.insert_returns (h : s.Inv) (t : ℕ) :
    s.step strhash64 (.insert t) ≠ none := by
  rcases hheld : s.calls t with _ | node
  · simp [SharedLeader.step, hheld]
  · obtain ⟨l', heq, -⟩ := h.insert_cases hheld
    simp [SharedLeader.step, hheld, heq]

theorem goodRegistration_iff (h : s.Inv) (part : RegisterPart) :
    GoodRegistration strhash64 (s, part) ↔ HasRoom (s, part) := by
  constructor
  · rintro hgood t node rfl hheld hnew
    dsimp only at hheld
    obtain ⟨l', heq, hcases⟩ := h.insert_cases hheld
    rcases hcases with ⟨hold, -⟩ | ⟨-, -, hfull⟩
    · exact absurd hnew hold
    have hs : s.step strhash64 (.insert t) = some ⟨l', Function.update s.calls t none⟩ := by
      simp [SharedLeader.step, hheld, heq]
    have hle := h.countsRing.capacity
    rw [UInt32.le_iff_toNat_le] at hle
    rw [UInt32.lt_iff_toNat_lt]
    exact lt_of_le_of_ne hle fun e => hfull (UInt32.toNat_inj.1 e) (hgood.after _ hs)
  · intro hroom
    refine ⟨h.countsRing, ?_, fun s' hs => (h.step hroom hs).countsRing⟩
    rintro t rfl
    exact h.insert_returns t

variable (strhash64) in
/-- In an interleaving of registrations the count is always right and never beyond the capacity, if
and only if each new follower is inserted while there is room. -/
theorem register_concurrent_iff (mem : TpcLeader) (followerCapacity redundancy : UInt32)
    (parts : List RegisterPart) :
    (∀ x ∈ stepsOf (SharedLeader.step strhash64) (sharedInit mem followerCapacity redundancy) parts,
        GoodRegistration strhash64 x)
      ↔ ∀ x ∈ stepsOf (SharedLeader.step strhash64)
          (sharedInit mem followerCapacity redundancy) parts, HasRoom x :=
  forall_stepsOf_iff (fun _ part h => goodRegistration_iff h part)
    (fun _ _ _ h hroom hs => h.step hroom hs) parts (sharedInit_inv mem followerCapacity redundancy)

/-- Two followers pass the test for the one place there is, and are both inserted. -/
def lastPlace : List RegisterPart :=
  let port := CStr.ofString "1"
  [.test 0 ⟨.register, some (.ofString "a"), some port⟩,
    .test 1 ⟨.register, some (.ofString "bb"), some port⟩, .insert 0, .insert 1]

theorem lastPlace_not_good :
    ¬ ∀ (strhash64 : CStr → UInt64) (mem : TpcLeader) (followerCapacity redundancy : UInt32)
        (parts : List RegisterPart),
      ∀ x ∈ stepsOf (SharedLeader.step strhash64) (sharedInit mem followerCapacity redundancy) parts,
        GoodRegistration strhash64 x := by
  intro hall
  have hgood := hall (fun s => .ofNat s.strlen) blankLeader 1 1 lastPlace
  obtain ⟨x, hx, s, hs, hcount⟩ : ∃ x ∈ stepsOf (SharedLeader.step fun s => .ofNat s.strlen)
      (sharedInit blankLeader 1 1) lastPlace, ∃ s, x.1.step (fun s => .ofNat s.strlen) x.2 = some s ∧
        s.leader.followerCount = 2 ∧ s.leader.followerCapacity = 1 :=
    ⟨_, List.mem_of_getElem? (i := 3) rfl, _, rfl, rfl, rfl⟩
  have hle := ((hgood x hx).after s hs).capacity
  rw [hcount.1, hcount.2] at hle
  exact absurd hle (by decide)

end Cs162
