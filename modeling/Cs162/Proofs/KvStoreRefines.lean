import Cs162.Proofs.KvStore

/-!
# Runs of the store

`KvMap` with `StoreOp.apply` is what the store is for: a finite map with length limits. Each call on
a well-formed store does to the map it denotes what `apply` does, with the same result, and one that
fails leaves the directory as it was, so a run from an empty directory keeps the two in step
(`runStore_refines`).
-/

namespace Cs162

open CLib

variable (strhash64 : CStr → UInt64)

/-- The calls a store serves. -/
inductive StoreOp
  | put (key value : CStr)
  | del (key : CStr)
  | get (key : CStr)
  | haskey (key : CStr)

/-- What a call returns: its code, and what it stores through `value` or answers. -/
structure StoreRes where
  ret : ℤ
  value : Option CStr
deriving DecidableEq

def StoreOp.exec (d : Dir) : StoreOp → Dir × StoreRes
  | put k v => ((kvstorePut strhash64 d k v).1, ⟨(kvstorePut strhash64 d k v).2, none⟩)
  | del k => ((kvstoreDel strhash64 d k).1, ⟨(kvstoreDel strhash64 d k).2, none⟩)
  | get k => (d, ⟨(kvstoreGet strhash64 d k).1, (kvstoreGet strhash64 d k).2⟩)
  | haskey k => (d, ⟨if kvstoreHaskey strhash64 d k then 1 else 0, none⟩)

/-- The same calls on a map. -/
def StoreOp.apply (m : KvMap) : StoreOp → KvMap × StoreRes
  | put k v =>
    if maxKeylen < k.strlen then (m, ⟨errKeylen, none⟩)
    else if maxVallen < v.strlen then (m, ⟨errVallen, none⟩)
    else (Function.update m k (some v), ⟨0, none⟩)
  | del k =>
    if maxKeylen < k.strlen then (m, ⟨errKeylen, none⟩)
    else if m k = none then (m, ⟨errNokey, none⟩)
    else (Function.update m k none, ⟨0, none⟩)
  | get k =>
    if maxKeylen < k.strlen then (m, ⟨errKeylen, none⟩)
    else if m k = none then (m, ⟨errNokey, none⟩)
    else (m, ⟨0, m k⟩)
  | haskey k => (m, ⟨if (m k).isSome then 1 else 0, none⟩)

/-- The calls of a run, in order, with what each returns. -/
def runStore : Dir → List StoreOp → Dir × List StoreRes
  | d, [] => (d, [])
  | d, op :: ops =>
    let next := op.exec strhash64 d
    ((runStore next.1 ops).1, next.2 :: (runStore next.1 ops).2)

def runMap : KvMap → List StoreOp → KvMap × List StoreRes
  | m, [] => (m, [])
  | m, op :: ops =>
    let next := op.apply m
    ((runMap next.1 ops).1, next.2 :: (runMap next.1 ops).2)

/-- A directory with no file in it. -/
def emptyDir : Dir := ⟨true, ∅⟩

variable {strhash64} {d : Dir}

theorem emptyDir_lookup (n : FileName) : emptyDir.lookup n = none := Finmap.lookup_empty n

theorem wellFormed_emptyDir : WellFormed strhash64 emptyDir where
  present := rfl
  dense h := ⟨0, fun i => by simp [Directory.stat, emptyDir_lookup]⟩
  entries hf := by simp [emptyDir_lookup] at hf
  unique he := by simp [EntryAt, emptyDir_lookup] at he

theorem binding_emptyDir : binding strhash64 emptyDir = fun _ => none := by
  symm
  rw [← denotes_iff wellFormed_emptyDir]
  intro k v
  simp [EntryAt, emptyDir_lookup]

/-! ## One call -/

theorem kvstorePutCheck_eq (hw : WellFormed strhash64 d) (k v : CStr) :
    kvstorePutCheck d k v = if maxKeylen < k.strlen then errKeylen
      else if maxVallen < v.strlen then errVallen else 0 := by
  simp [kvstorePutCheck, hw.present]

/-- A `put` within the limits writes the key's own position or the end of its chain. -/
theorem kvstorePut_ok (hw : WellFormed strhash64 d) {k v : CStr} (hk : k.strlen ≤ maxKeylen)
    (hv : v.strlen ≤ maxVallen) :
    ∃ i n, kvstorePut strhash64 d k v = (d.set (.entry (strhash64 k) i) (entryFile k v), 0) ∧
      d.Dense (.entry (strhash64 k)) n ∧ i ≤ n ∧
      (∀ j w, EntryAt d (strhash64 k) j k w → j = i) ∧
      (i < n → ∃ w, EntryAt d (strhash64 k) i k w) := by
  obtain ⟨n, hn⟩ := hw.dense (strhash64 k)
  have hcheck : ¬ kvstorePutCheck d k v < 0 := by
    rw [kvstorePutCheck_eq hw, if_neg (by omega), if_neg (by omega)]
    decide
  simp only [kvstorePut, if_neg hcheck, kvstorePutLocked_eq hw]
  rcases findEntry_cases hw k with ⟨i, w, he, hf⟩ | ⟨hno, hf⟩ <;> rw [hf]
  · have hpos : putPos strhash64 d k i = i := by simp [putPos]
    have hi := hn.lt_of_lookup he.2.2
    exact ⟨i, n, by rw [hpos], hn, hi.le, fun j w' he' => hw.unique he' he, fun _ => ⟨w, he⟩⟩
  · have hpos : putPos strhash64 d k errNokey = n := by
      rw [putPos, if_neg (by decide), hn.firstFree (entry_injective _) (Nat.zero_le n)]
    rw [if_neg (by omega)]
    exact ⟨n, n, by rw [hpos], hn, le_rfl, fun j w' he' => absurd he' (hno j w'), fun h => by omega⟩

theorem WellFormed.kvstorePut (hw : WellFormed strhash64 d) (k v : CStr) :
    WellFormed strhash64 (kvstorePut strhash64 d k v).1 := by
  by_cases hlim : k.strlen ≤ maxKeylen ∧ v.strlen ≤ maxVallen
  · obtain ⟨i, n, heq, hn, hi, hother, -⟩ := kvstorePut_ok hw hlim.1 hlim.2
    rw [heq]
    exact hw.set hn hi hlim.1 hlim.2 hother
  · have hcheck : kvstorePutCheck d k v < 0 := by
      rw [kvstorePutCheck_eq hw]
      split_ifs
      · decide
      · decide
      · omega
    simpa [Cs162.kvstorePut, hcheck] using hw

theorem kvstorePut_binding (hw : WellFormed strhash64 d) {k v : CStr} (hk : k.strlen ≤ maxKeylen)
    (hv : v.strlen ≤ maxVallen) :
    binding strhash64 (kvstorePut strhash64 d k v).1
      = Function.update (binding strhash64 d) k (some v) := by
  obtain ⟨i, n, heq, hn, hi, hother, hown⟩ := kvstorePut_ok hw hk hv
  rw [heq]
  exact binding_set hw hn hi hk hv hother hown

theorem kvstorePut_ret (hw : WellFormed strhash64 d) {k v : CStr} (hk : k.strlen ≤ maxKeylen)
    (hv : v.strlen ≤ maxVallen) : (kvstorePut strhash64 d k v).2 = 0 := by
  obtain ⟨i, n, heq, -⟩ := kvstorePut_ok hw hk hv
  rw [heq]

theorem kvstorePut_err {k v : CStr} (h : kvstorePutCheck d k v < 0) :
    kvstorePut strhash64 d k v = (d, kvstorePutCheck d k v) := by
  simp [kvstorePut, h]

/-- A `del` of a bound key removes the key's position from its chain. -/
theorem kvstoreDel_ok (hw : WellFormed strhash64 d) {k v : CStr}
    (hb : binding strhash64 d k = some v) :
    ∃ d', kvstoreDel strhash64 d k = (d', 0) ∧ WellFormed strhash64 d' ∧
      binding strhash64 d' = Function.update (binding strhash64 d) k none := by
  obtain ⟨i, he⟩ := (binding_eq_some hw).1 hb
  obtain ⟨n, hn⟩ := hw.dense (strhash64 k)
  have hi := hn.lt_of_lookup he.2.2
  obtain ⟨d', hdel, hp, hl⟩ := kvstoreDelLocked_lookup hn hi
  refine ⟨d', ?_, hw.removed hl hp hn hi, binding_removed hl hw hp hn he⟩
  simp [kvstoreDel, findEntry_of_entryAt hw he, hdel]

theorem kvstoreDel_unbound (hw : WellFormed strhash64 d) {k : CStr}
    (hb : binding strhash64 d k = none) :
    kvstoreDel strhash64 d k
      = (d, if maxKeylen < k.strlen then errKeylen else errNokey) := by
  have hneg := (findEntry_fst hw k).2 hb
  rcases findEntry_cases hw k with ⟨i, w, he, hf⟩ | ⟨-, hf⟩
  · rw [hf] at hneg
    simp only at hneg
    omega
  · rw [kvstoreDel, if_pos hneg, hf]

theorem kvstoreGet_eq (hw : WellFormed strhash64 d) (k : CStr) :
    kvstoreGet strhash64 d k = if maxKeylen < k.strlen then (errKeylen, none)
      else if binding strhash64 d k = none then (errNokey, none)
      else (0, binding strhash64 d k) := by
  unfold kvstoreGet binding
  rcases findEntry_cases hw k with ⟨i, w, he, hf⟩ | ⟨-, hf⟩ <;> rw [hf]
  · have := he.1
    rw [if_neg (by simp), if_neg (by omega)]
    simp
  · split_ifs <;> first | rfl | simp_all

theorem kvstoreHaskey_eq (hw : WellFormed strhash64 d) (k : CStr) :
    kvstoreHaskey strhash64 d k = (binding strhash64 d k).isSome := by
  have := findEntry_fst hw k
  rcases hb : binding strhash64 d k with _ | v
  · have hneg := this.2 hb
    simp [kvstoreHaskey, hneg]
  · have hnn : ¬ (findEntry strhash64 d k).1 < 0 := fun h => by simp [this.1 h] at hb
    simp [kvstoreHaskey, not_lt.1 hnn]

/-- A call on a well-formed store does what it does to the map the store denotes. -/
theorem exec_refines (hw : WellFormed strhash64 d) (op : StoreOp) :
    WellFormed strhash64 (op.exec strhash64 d).1 ∧
      binding strhash64 (op.exec strhash64 d).1 = (op.apply (binding strhash64 d)).1 ∧
      (op.exec strhash64 d).2 = (op.apply (binding strhash64 d)).2 := by
  cases op with
  | put k v =>
    simp only [StoreOp.exec, StoreOp.apply]
    by_cases hlim : k.strlen ≤ maxKeylen ∧ v.strlen ≤ maxVallen
    · rw [if_neg (by omega), if_neg (by omega)]
      exact ⟨hw.kvstorePut k v, kvstorePut_binding hw hlim.1 hlim.2,
        by rw [kvstorePut_ret hw hlim.1 hlim.2]⟩
    · have hcheck := kvstorePutCheck_eq hw k v
      split_ifs at hcheck ⊢ with hk hv
      · rw [kvstorePut_err (by rw [hcheck]; decide), hcheck]
        exact ⟨hw, rfl, rfl⟩
      · rw [kvstorePut_err (by rw [hcheck]; decide), hcheck]
        exact ⟨hw, rfl, rfl⟩
      · omega
  | del k =>
    simp only [StoreOp.exec, StoreOp.apply]
    rcases hb : binding strhash64 d k with _ | v
    · rw [kvstoreDel_unbound hw hb]
      split_ifs <;> first | exact ⟨hw, rfl, rfl⟩ | simp_all
    · obtain ⟨d', hdel, hw', hb'⟩ := kvstoreDel_ok hw hb
      have hk : ¬ maxKeylen < k.strlen := fun hk => by simp [binding_long hk] at hb
      rw [hdel, if_neg hk, if_neg (by simp)]
      exact ⟨hw', hb', rfl⟩
  | get k =>
    simp only [StoreOp.exec, StoreOp.apply, kvstoreGet_eq hw]
    split_ifs <;> exact ⟨hw, rfl, rfl⟩
  | haskey k =>
    simp only [StoreOp.exec, StoreOp.apply, kvstoreHaskey_eq hw]
    exact ⟨hw, trivial, trivial⟩

theorem exec_failed (hw : WellFormed strhash64 d) (op : StoreOp)
    (hneg : (op.exec strhash64 d).2.ret < 0) : (op.exec strhash64 d).1 = d := by
  cases op with
  | put k v =>
    simp only [StoreOp.exec] at hneg ⊢
    by_cases hcheck : kvstorePutCheck d k v < 0
    · rw [kvstorePut_err hcheck]
    · simp [kvstorePut, hcheck, kvstorePutLocked_eq hw] at hneg
  | del k =>
    simp only [StoreOp.exec] at hneg ⊢
    rcases hb : binding strhash64 d k with _ | v
    · rw [kvstoreDel_unbound hw hb]
    · obtain ⟨d', hdel, -⟩ := kvstoreDel_ok hw hb
      simp [hdel] at hneg
  | get k => rfl
  | haskey k => rfl

/-! ## Runs -/

theorem runStore_refines (ops : List StoreOp) : ∀ {d : Dir}, WellFormed strhash64 d →
    WellFormed strhash64 (runStore strhash64 d ops).1 ∧
      binding strhash64 (runStore strhash64 d ops).1 = (runMap (binding strhash64 d) ops).1 ∧
      (runStore strhash64 d ops).2 = (runMap (binding strhash64 d) ops).2 := by
  induction ops with
  | nil => exact fun hw => ⟨hw, rfl, rfl⟩
  | cons op ops ih =>
    intro d hw
    obtain ⟨hw', hb, hr⟩ := exec_refines hw op
    obtain ⟨hw'', hb', hr'⟩ := ih hw'
    simp only [runStore, runMap, ← hb, ← hr]
    exact ⟨hw'', hb', by rw [hr']⟩

variable (strhash64) in
/-- From an empty directory, whatever the hash function, the store is a finite map: after any calls
it is well formed and denotes the map they built, every result is the map's, and whatever call
comes next changes nothing if it fails. -/
theorem kvstore_refines_map (ops : List StoreOp) :
    WellFormed strhash64 (runStore strhash64 emptyDir ops).1 ∧
      Denotes strhash64 (runStore strhash64 emptyDir ops).1 (runMap (fun _ => none) ops).1 ∧
      (runStore strhash64 emptyDir ops).2 = (runMap (fun _ => none) ops).2 ∧
      ∀ op : StoreOp, (op.exec strhash64 (runStore strhash64 emptyDir ops).1).2.ret < 0 →
        (op.exec strhash64 (runStore strhash64 emptyDir ops).1).1
          = (runStore strhash64 emptyDir ops).1 := by
  have hw₀ : WellFormed strhash64 emptyDir := wellFormed_emptyDir
  obtain ⟨hw, hb, hr⟩ := runStore_refines ops hw₀
  rw [binding_emptyDir] at hb hr
  exact ⟨hw, (denotes_iff hw).2 hb.symm, hr, fun op => exec_failed hw op⟩

end Cs162
