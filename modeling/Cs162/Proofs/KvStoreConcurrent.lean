import Cs162.Proofs.KvStoreRefines
import Cs162.Lib.Runs

/-!
# The store under concurrent callers

A `put` or a `del` is two locked sections: the lookup, and then the update at the position the
lookup returned. Between them the lock is free, so other callers' sections may run. `SharedStore`
is a store with the calls that stand between their sections, and `visits` lists the steps of an
interleaving.

An update is good if it leaves the store well formed and loses no entry of another key. On a
well-formed store it is good exactly if the lookup is still `Fresh`: the position holds the key's own
entry, or, for a `put`, the key still has none and the position is the end of its chain
(`good_update_iff`). So the steps of an interleaving are all good if and only if its updates are all
fresh, and two `put`s of one new key already break it.
-/

namespace Cs162

open CLib

/-- A call between its two sections, with what its lookup returned. `kvstore_put_check` has passed
for a `put`, and a `del` has found its key. -/
inductive PendingCall
  | put (key value : CStr) (hlim : key.strlen ≤ maxKeylen ∧ value.strlen ≤ maxVallen) (counter : ℤ)
  | del (key : CStr) (chainpos : ℕ)

namespace PendingCall

def key : PendingCall → CStr
  | put k _ _ _ => k
  | del k _ => k

variable (strhash64 : CStr → UInt64) (d : Dir)

/-- The update section. -/
def update : PendingCall → Dir
  | put k v _ counter => (kvstorePutLocked strhash64 d k v counter).1
  | del k chainpos => (kvstoreDelLocked strhash64 d k chainpos).1

/-- What a call's lookup said of its key still holds where the update acts on it. -/
def Fresh : PendingCall → Prop
  | put k _ _ counter =>
    (∃ w, EntryAt d (strhash64 k) (putPos strhash64 d k counter) k w) ∨
      d.Dense (.entry (strhash64 k)) (putPos strhash64 d k counter) ∧
        ∀ j w, ¬ EntryAt d (strhash64 k) j k w
  | del k chainpos =>
    (∃ w, EntryAt d (strhash64 k) chainpos k w) ∨
      d.stat (.entry (strhash64 k) chainpos) = false

end PendingCall

/-- A store with the calls of its threads that are between their sections. -/
structure SharedStore where
  dir : Dir
  calls : ℕ → Option PendingCall

/-- A section some thread runs. -/
inductive Section
  | lookupPut (thread : ℕ) (key value : CStr)
  | lookupDel (thread : ℕ) (key : CStr)
  | get (thread : ℕ) (key : CStr)
  | update (thread : ℕ)

variable (strhash64 : CStr → UInt64)

theorem limits_of_check {d : Dir} {k v : CStr} (h : ¬ kvstorePutCheck d k v < 0) :
    k.strlen ≤ maxKeylen ∧ v.strlen ≤ maxVallen := by
  unfold kvstorePutCheck at h
  split_ifs at h with hk hv
  · exact absurd (by decide) h
  · exact absurd (by decide) h
  · exact absurd (by decide) h
  · omega

/-- The thread's call waits for its second section. -/
def SharedStore.wait (s : SharedStore) (t : ℕ) (c : PendingCall) : SharedStore :=
  { s with calls := Function.update s.calls t (some c) }

/-- A thread runs a section. A call whose check or lookup fails is over with its first section. A
thread that is between sections starts no other call, and one that is not has no update to run. -/
def SharedStore.step (s : SharedStore) : Section → SharedStore
  | .lookupPut t k v =>
    if (s.calls t).isSome then s
    else if h : kvstorePutCheck s.dir k v < 0 then s
    else s.wait t (.put k v (limits_of_check h) (findEntry strhash64 s.dir k).1)
  | .lookupDel t k =>
    if (s.calls t).isSome then s
    else if (findEntry strhash64 s.dir k).1 < 0 then s
    else s.wait t (.del k (findEntry strhash64 s.dir k).1.toNat)
  | .get _ _ => s
  | .update t =>
    match s.calls t with
    | none => s
    | some c => ⟨c.update strhash64 s.dir, Function.update s.calls t none⟩

/-- The steps of an interleaving, each with the state before it. -/
def visits : SharedStore → List Section → List (SharedStore × Section)
  | _, [] => []
  | s, a :: as => (s, a) :: visits (s.step strhash64 a) as

/-- The call a section completes, if any. -/
def SharedStore.completes (s : SharedStore) : Section → Option PendingCall
  | .update t => s.calls t
  | _ => none

/-- No entry of a key other than `key` is lost. -/
def Spares (key : CStr) (d d' : Dir) : Prop :=
  ∀ k v, k ≠ key → (∃ i, EntryAt d (strhash64 k) i k v) → ∃ j, EntryAt d' (strhash64 k) j k v

/-- The store stays well formed, and an update loses no entry of another key. -/
def GoodVisit (x : SharedStore × Section) : Prop :=
  WellFormed strhash64 (x.1.step strhash64 x.2).dir ∧
    ∀ c, x.1.completes x.2 = some c →
      Spares strhash64 c.key x.1.dir (x.1.step strhash64 x.2).dir

/-- An update runs only while its lookup is fresh. -/
def FreshVisit (x : SharedStore × Section) : Prop :=
  ∀ c, x.1.completes x.2 = some c → c.Fresh strhash64 x.1.dir

variable {strhash64} {d : Dir}

theorem Spares.refl (k : CStr) : Spares strhash64 k d d := fun _ _ _ h => h

/-! ## One update -/

theorem put_good_of_fresh (hw : WellFormed strhash64 d) {k v : CStr}
    {hlim : k.strlen ≤ maxKeylen ∧ v.strlen ≤ maxVallen} {counter : ℤ}
    (hf : (PendingCall.put k v hlim counter).Fresh strhash64 d) :
    WellFormed strhash64 (kvstorePutLocked strhash64 d k v counter).1 ∧
      Spares strhash64 k d (kvstorePutLocked strhash64 d k v counter).1 := by
  rw [kvstorePutLocked_eq hw]
  set i := putPos strhash64 d k counter with hi
  have hspare : (∀ k' v', k' ≠ k → ¬ EntryAt d (strhash64 k) i k' v') →
      Spares strhash64 k d (d.set (.entry (strhash64 k) i) (entryFile k v)) := by
    rintro hno k' v' hne ⟨j, hj⟩
    refine ⟨j, (entryAt_set hlim.1 hlim.2).2 ?_⟩
    rw [if_neg]
    · exact hj
    · rintro ⟨hh, rfl⟩
      exact hno k' v' hne (hh ▸ hj)
  rcases hf with ⟨w, he⟩ | ⟨hn, hno⟩
  · obtain ⟨n, hn⟩ := hw.dense (strhash64 k)
    have hin := hn.lt_of_lookup he.2.2
    exact ⟨hw.set hn hin.le hlim.1 hlim.2 fun j w' he' => hw.unique he' he,
      hspare fun k' v' hne he' => hne (he'.inj he).1⟩
  · refine ⟨hw.set hn le_rfl hlim.1 hlim.2 fun j w he' => absurd he' (hno j w),
      hspare fun k' v' _ he' => ?_⟩
    exact absurd (hn.lt_of_lookup he'.2.2) (lt_irrefl _)

theorem put_fresh_of_good (hw : WellFormed strhash64 d) {k v : CStr}
    {hlim : k.strlen ≤ maxKeylen ∧ v.strlen ≤ maxVallen} {counter : ℤ}
    (hw' : WellFormed strhash64 (kvstorePutLocked strhash64 d k v counter).1)
    (hs : Spares strhash64 k d (kvstorePutLocked strhash64 d k v counter).1) :
    (PendingCall.put k v hlim counter).Fresh strhash64 d := by
  rw [kvstorePutLocked_eq hw] at hw' hs
  simp only [PendingCall.Fresh]
  set i := putPos strhash64 d k counter with hi
  obtain ⟨n, hn⟩ := hw.dense (strhash64 k)
  have hnew : EntryAt (d.set (.entry (strhash64 k) i) (entryFile k v)) (strhash64 k) i k v :=
    (entryAt_set hlim.1 hlim.2).2 (by simp)
  have hkeep : ∀ {j k' w}, j ≠ i → (EntryAt (d.set (.entry (strhash64 k) i) (entryFile k v))
      (strhash64 k) j k' w ↔ EntryAt d (strhash64 k) j k' w) := fun hj => by
    rw [entryAt_set hlim.1 hlim.2, if_neg (fun h => hj h.2)]
  rcases lt_trichotomy i n with hlt | heq | hgt
  · obtain ⟨f, hf⟩ := hn.lookup_some hlt
    obtain ⟨k', v', he, hh⟩ := hw.entries hf
    by_cases hkk : k' = k
    · exact .inl ⟨v', hkk ▸ he⟩
    · -- the write loses the entry of `k'` that was at the position
      obtain ⟨j, hj⟩ := hs k' v' hkk ⟨i, hh.symm ▸ he⟩
      rw [hh] at hj
      by_cases hji : j = i
      · subst hji
        exact absurd (hj.inj hnew).1 hkk
      · exact absurd (hw.unique ((hkeep hji).1 hj) he) hji
  · refine .inr ⟨heq ▸ hn, fun j w he => ?_⟩
    have hji : j ≠ i := by
      have := hn.lt_of_lookup he.2.2
      omega
    exact hji (hw'.unique ((hkeep hji).2 he) hnew)
  · -- the write leaves a gap at `n`
    obtain ⟨m, hm⟩ := hw'.dense (strhash64 k)
    have him : i < m := hm.lt_of_lookup hnew.2.2
    obtain ⟨f, hf⟩ := hm.lookup_some (i := n) (by omega)
    rw [Directory.lookup_set, if_neg (by simp; omega), hn.lookup_none le_rfl] at hf
    cases hf

theorem del_good_iff (hw : WellFormed strhash64 d) {k : CStr} {i : ℕ} :
    WellFormed strhash64 (kvstoreDelLocked strhash64 d k i).1 ∧
        Spares strhash64 k d (kvstoreDelLocked strhash64 d k i).1
      ↔ (PendingCall.del k i).Fresh strhash64 d := by
  simp only [PendingCall.Fresh]
  obtain ⟨n, hn⟩ := hw.dense (strhash64 k)
  rcases Nat.lt_or_ge i n with hlt | hge
  · obtain ⟨d', hdel, hp, hl⟩ := kvstoreDelLocked_lookup hn hlt
    obtain ⟨f, hf⟩ := hn.lookup_some hlt
    obtain ⟨k', v', he, hh⟩ := hw.entries hf
    have hw' := hw.removed hl hp hn hlt
    have hb := binding_removed hl hw hp hn he
    have hstat : ¬ d.stat (.entry (strhash64 k) i) = false := by
      simp [Directory.stat, hf]
    rw [hdel]
    constructor
    · rintro ⟨-, hs⟩
      by_contra hno
      have hkk : k' ≠ k := fun hkk => hno (.inl ⟨v', hkk ▸ he⟩)
      have hgone := (binding_eq_some hw').2 (hs k' v' hkk ⟨i, hh.symm ▸ he⟩)
      simp [hb] at hgone
    · rintro (⟨w, he'⟩ | hs)
      · refine ⟨hw', fun k₁ v₁ hne hk₁ => ?_⟩
        rw [← binding_eq_some hw', hb, Function.update_of_ne, binding_eq_some hw]
        · exact hk₁
        · rwa [(he.inj he').1]
      · exact absurd hs hstat
  · rw [kvstoreDelLocked_past hn hge]
    have hs : d.stat (.entry (strhash64 k) i) = false :=
      Directory.stat_eq_false.2 (hn.lookup_none hge)
    exact ⟨fun _ => .inr hs, fun _ => ⟨hw, Spares.refl k⟩⟩

theorem good_update_iff (hw : WellFormed strhash64 d) (c : PendingCall) :
    WellFormed strhash64 (c.update strhash64 d) ∧ Spares strhash64 c.key d (c.update strhash64 d)
      ↔ c.Fresh strhash64 d := by
  cases c with
  | put k v hlim counter =>
    exact ⟨fun h => put_fresh_of_good hw h.1 h.2, put_good_of_fresh hw⟩
  | del k i => exact del_good_iff hw

/-! ## Interleavings -/

/-- A section that completes no call leaves the store alone. -/
theorem step_dir_of_completes_none {s : SharedStore} {a : Section} (h : s.completes a = none) :
    (s.step strhash64 a).dir = s.dir := by
  cases a with
  | lookupPut t k v =>
    simp only [SharedStore.step]
    split_ifs <;> rfl
  | lookupDel t k =>
    simp only [SharedStore.step]
    split_ifs <;> rfl
  | get t k => rfl
  | update t =>
    simp only [SharedStore.completes] at h
    simp only [SharedStore.step, h]

theorem step_dir_of_completes_some {s : SharedStore} {a : Section} {c : PendingCall}
    (h : s.completes a = some c) : (s.step strhash64 a).dir = c.update strhash64 s.dir := by
  cases a with
  | update t =>
    simp only [SharedStore.completes] at h
    simp only [SharedStore.step, h]
  | lookupPut t k v => simp [SharedStore.completes] at h
  | lookupDel t k => simp [SharedStore.completes] at h
  | get t k => simp [SharedStore.completes] at h

theorem goodVisit_iff {s : SharedStore} (hw : WellFormed strhash64 s.dir) (a : Section) :
    GoodVisit strhash64 (s, a) ↔ FreshVisit strhash64 (s, a) := by
  unfold GoodVisit FreshVisit
  rcases hc : s.completes a with _ | c
  · simp [step_dir_of_completes_none hc, hw]
  · simp only [Option.some.injEq, forall_eq', step_dir_of_completes_some hc]
    exact good_update_iff hw c

theorem visits_eq_stepsOf (as : List Section) : ∀ s : SharedStore,
    visits strhash64 s as = stepsOf (fun s a => some (s.step strhash64 a)) s as := by
  induction as with
  | nil => exact fun _ => rfl
  | cons a as ih => exact fun s => congrArg ((s, a) :: ·) (ih (s.step strhash64 a))

theorem visits_good_iff (as : List Section) {s : SharedStore} (hw : WellFormed strhash64 s.dir) :
    (∀ x ∈ visits strhash64 s as, GoodVisit strhash64 x)
      ↔ ∀ x ∈ visits strhash64 s as, FreshVisit strhash64 x := by
  rw [visits_eq_stepsOf]
  refine forall_stepsOf_iff (fun s a hw => goodVisit_iff hw a) (fun s a s' hw hfresh hs => ?_) as hw
  rw [← Option.some.inj hs]
  exact ((goodVisit_iff hw a).2 hfresh).1

/-- A store nobody has called yet. -/
def freshStore : SharedStore := ⟨emptyDir, fun _ => none⟩

variable (strhash64) in
/-- The steps of an interleaving all leave the store well formed and lose no entry of another key,
if and only if each of its updates runs while its lookup is fresh. -/
theorem concurrent_good_iff (as : List Section) :
    (∀ x ∈ visits strhash64 freshStore as, GoodVisit strhash64 x)
      ↔ ∀ x ∈ visits strhash64 freshStore as, FreshVisit strhash64 x :=
  visits_good_iff as wellFormed_emptyDir

/-- Two callers put one new key: both lookups fail, both updates append. -/
def twoPuts : List Section :=
  let k := CStr.ofString "k"
  [.lookupPut 0 k (.ofString "a"), .lookupPut 1 k (.ofString "b"), .update 0, .update 1]

/-- The key then has two entries. -/
theorem twoPuts_not_good :
    ¬ ∀ (strhash64 : CStr → UInt64) (as : List Section),
      ∀ x ∈ visits strhash64 freshStore as, GoodVisit strhash64 x := by
  intro hall
  have hrun := hall (fun _ => 0) twoPuts
  obtain ⟨x, hx, hd⟩ : ∃ x ∈ visits (fun _ => 0) freshStore twoPuts,
      EntryAt (x.1.step (fun _ => 0) x.2).dir 0 0 (.ofString "k") (.ofString "a") ∧
        EntryAt (x.1.step (fun _ => 0) x.2).dir 0 1 (.ofString "k") (.ofString "b") :=
    ⟨_, List.mem_of_getElem? (i := 3) rfl, by
      refine ⟨⟨by decide, by decide, ?_⟩, by decide, by decide, ?_⟩ <;> rfl⟩
  exact absurd ((hrun x hx).1.unique hd.1 hd.2) (by decide)

end Cs162
