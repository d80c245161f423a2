import Cs162.KvStore

/-!
# The store refines a map

A well-formed store has no gap in any chain, holds only entries `kvstore_put` could have written,
each in the chain of its key's hash, and each key at most once. There a lookup finds the only entry
of the key (`findEntry_of_entryAt`), so an overwrite lands on it and an insertion at the end of the
chain, and a deletion moves the last entry of the chain over it (`kvstoreDelLocked_lookup`). Both
keep the store well formed and change the map it denotes at that key only.
-/

namespace Cs162

open CLib

theorem entry_injective (h : UInt64) : Function.Injective (FileName.entry h) := fun _ _ he => by
  injection he

/-- The file an entry is stored in. -/
def entryFile (key value : CStr) : File := ⟨(KvEntry.make key value).dump, true⟩

/-- Within the limits, what `find_entry` loads from an entry's file is the entry. -/
theorem load_dump_make {key value : CStr} (hk : key.strlen ≤ maxKeylen)
    (hv : value.strlen ≤ maxVallen) :
    KvEntry.load (KvEntry.make key value).dump = KvEntry.make key value := by
  have hlen : key.strlen + value.strlen + 2 < 256 ^ sizeofKventry := by
    simp only [maxKeylen, maxVallen, sizeofKventry] at *
    omega
  have hhead : (KvEntry.make key value).dump.take sizeofKventry
      = leBytes sizeofKventry (key.strlen + value.strlen + 2) :=
    List.take_left' (length_leBytes _ _)
  have htail : (KvEntry.make key value).dump.drop sizeofKventry = key.layout ++ value.layout :=
    List.drop_left' (length_leBytes _ _)
  simp only [KvEntry.load, hhead, htail, leNat_leBytes_of_lt hlen]
  simp only [KvEntry.make, KvEntry.mk.injEq, true_and]
  refine List.take_of_length_le ?_
  simp only [List.length_append, CStr.length_layout]
  omega

@[simp] theorem key_make (key value : CStr) : (KvEntry.make key value).key = key :=
  cstr_append_nul key _

@[simp] theorem value_make (key value : CStr) : (KvEntry.make key value).value = value := by
  simp only [KvEntry.value, key_make]
  simp only [KvEntry.make, drop_layout, cstr_layout]

/-- An entry's file determines its key and its value. -/
theorem entryFile_inj {k v k' v' : CStr} (hk : k.strlen ≤ maxKeylen) (hv : v.strlen ≤ maxVallen)
    (hk' : k'.strlen ≤ maxKeylen) (hv' : v'.strlen ≤ maxVallen)
    (h : entryFile k v = entryFile k' v') : k = k' ∧ v = v' := by
  have hdump : (KvEntry.make k v).dump = (KvEntry.make k' v').dump := by
    simpa [entryFile] using h
  have hmake : KvEntry.make k v = KvEntry.make k' v' := by
    rw [← load_dump_make hk hv, hdump, load_dump_make hk' hv']
  exact ⟨by rw [← key_make k v, hmake, key_make], by rw [← value_make k v, hmake, value_make]⟩

/-- A chain position holds the entry of `key` with `value`. -/
def EntryAt (d : Dir) (hashval : UInt64) (chainpos : ℕ) (key value : CStr) : Prop :=
  key.strlen ≤ maxKeylen ∧ value.strlen ≤ maxVallen ∧
    d.lookup (.entry hashval chainpos) = some (entryFile key value)

theorem EntryAt.congr {d d' : Dir} {h h' : UInt64} {i i' : ℕ} {k v : CStr}
    (he : EntryAt d h i k v) (hl : d'.lookup (.entry h' i') = d.lookup (.entry h i)) :
    EntryAt d' h' i' k v := ⟨he.1, he.2.1, hl.trans he.2.2⟩

theorem EntryAt.inj {d : Dir} {h : UInt64} {i : ℕ} {k v k' v' : CStr} (he : EntryAt d h i k v)
    (he' : EntryAt d h i k' v') : k = k' ∧ v = v' := by
  refine entryFile_inj he.1 he.2.1 he'.1 he'.2.1 ?_
  have := he.2.2.symm.trans he'.2.2
  simpa using this

variable (strhash64 : CStr → UInt64)

/-- The invariant of a store. -/
structure WellFormed (d : Dir) : Prop where
  present : d.present = true
  /-- The positions of a chain are `0..n-1`. -/
  dense : ∀ h, ∃ n, d.Dense (.entry h) n
  /-- Every entry lies in the chain of its key's hash. -/
  entries : ∀ {h i f}, d.lookup (.entry h i) = some f → ∃ k v, EntryAt d h i k v ∧ strhash64 k = h
  /-- A key has at most one entry. -/
  unique : ∀ {h i j k v w}, EntryAt d h i k v → EntryAt d h j k w → i = j

/-- What a store denotes: a finite map. -/
abbrev KvMap := CStr → Option CStr

/-- The store holds exactly the bindings of `m`. -/
def Denotes (d : Dir) (m : KvMap) : Prop :=
  ∀ k v, m k = some v ↔ ∃ i, EntryAt d (strhash64 k) i k v

/-- The value a lookup finds for a key. -/
def binding (d : Dir) (key : CStr) : Option CStr := (findEntry strhash64 d key).2

variable {strhash64} {d : Dir}

theorem WellFormed.hash_eq (hw : WellFormed strhash64 d) {h : UInt64} {i : ℕ} {k v : CStr}
    (he : EntryAt d h i k v) : strhash64 k = h := by
  obtain ⟨k', v', he', hh⟩ := hw.entries he.2.2
  rw [(he.inj he').1]
  exact hh

theorem WellFormed.congr {d' : Dir} (hw : WellFormed strhash64 d) (hp : d'.present = d.present)
    (hl : ∀ h i, d'.lookup (.entry h i) = d.lookup (.entry h i)) : WellFormed strhash64 d' where
  present := hp.trans hw.present
  dense h := by
    obtain ⟨n, hn⟩ := hw.dense h
    exact ⟨n, hn.congr (hl h)⟩
  entries hf := by
    obtain ⟨k, v, he, hh⟩ := hw.entries ((hl _ _).symm.trans hf)
    exact ⟨k, v, he.congr (hl _ _), hh⟩
  unique he he' := hw.unique (he.congr (hl _ _).symm) (he'.congr (hl _ _).symm)

/-! ## Lookups -/

theorem findEntryLoop_of_entryAt (hw : WellFormed strhash64 d) {h : UInt64} {i : ℕ} {k v : CStr}
    (he : EntryAt d h i k v) :
    ∀ fuel counter, counter ≤ i → i < counter + fuel →
      findEntryLoop d h k fuel counter = ((i : ℤ), some v)
  | 0, counter, hci, hf => by omega
  | fuel + 1, counter, hci, hf => by
    rcases hci.eq_or_lt with rfl | hlt
    · simp [findEntryLoop, he.2.2, entryFile, load_dump_make he.1 he.2.1]
    · obtain ⟨n, hn⟩ := hw.dense h
      have hin := hn.lt_of_lookup he.2.2
      obtain ⟨f, hf'⟩ := hn.lookup_some (hlt.trans hin)
      obtain ⟨k', v', he', -⟩ := hw.entries hf'
      have hne : k' ≠ k := by
        rintro rfl
        have := hw.unique he' he
        omega
      simp only [findEntryLoop, he'.2.2, entryFile, load_dump_make he'.1 he'.2.1, key_make,
        if_neg hne]
      exact findEntryLoop_of_entryAt hw he fuel (counter + 1) hlt (by omega)

theorem findEntryLoop_absent (hw : WellFormed strhash64 d) {h : UInt64} {k : CStr}
    (hno : ∀ i v, ¬ EntryAt d h i k v) :
    ∀ fuel counter, findEntryLoop d h k fuel counter = (errNokey, none)
  | 0, _ => rfl
  | fuel + 1, counter => by
    rcases hf : d.lookup (.entry h counter) with _ | f
    · simp [findEntryLoop, hf]
    · obtain ⟨k', v', he', -⟩ := hw.entries hf
      have hne : k' ≠ k := by
        rintro rfl
        exact hno _ _ he'
      simp only [findEntryLoop, he'.2.2, entryFile, load_dump_make he'.1 he'.2.1, key_make,
        if_neg hne]
      exact findEntryLoop_absent hw hno fuel (counter + 1)

theorem Dense.le_card {h : UInt64} {n : ℕ} (hn : d.Dense (.entry h) n) :
    n ≤ d.files.keys.card := by
  have := d.card_le_of_stat (entry_injective h) (Finset.range n) fun j hj =>
    (hn j).2 (Finset.mem_range.1 hj)
  simpa using this

theorem findEntry_of_entryAt (hw : WellFormed strhash64 d) {i : ℕ} {k v : CStr}
    (he : EntryAt d (strhash64 k) i k v) : findEntry strhash64 d k = ((i : ℤ), some v) := by
  obtain ⟨n, hn⟩ := hw.dense (strhash64 k)
  have hin := hn.lt_of_lookup he.2.2
  have hcard := Dense.le_card hn
  rw [findEntry, if_neg (by have := he.1; omega), if_neg (by simp [hw.present])]
  exact findEntryLoop_of_entryAt hw he _ 0 (Nat.zero_le i) (by omega)

theorem findEntry_absent (hw : WellFormed strhash64 d) {k : CStr} (hk : k.strlen ≤ maxKeylen)
    (hno : ∀ i v, ¬ EntryAt d (strhash64 k) i k v) :
    findEntry strhash64 d k = (errNokey, none) := by
  rw [findEntry, if_neg (by omega), if_neg (by simp [hw.present])]
  exact findEntryLoop_absent hw hno _ 0

theorem findEntry_long {k : CStr} (hk : maxKeylen < k.strlen) :
    findEntry strhash64 d k = (errKeylen, none) := if_pos hk

/-- A lookup either finds the key's entry or fails, with a code that says why. -/
theorem findEntry_cases (hw : WellFormed strhash64 d) (k : CStr) :
    (∃ i v, EntryAt d (strhash64 k) i k v ∧ findEntry strhash64 d k = ((i : ℤ), some v)) ∨
    ((∀ i v, ¬ EntryAt d (strhash64 k) i k v) ∧ findEntry strhash64 d k
      = (if maxKeylen < k.strlen then errKeylen else errNokey, none)) := by
  by_cases hno : ∀ i v, ¬ EntryAt d (strhash64 k) i k v
  · refine .inr ⟨hno, ?_⟩
    split_ifs with hk
    · exact findEntry_long hk
    · exact findEntry_absent hw (by omega) hno
  · push Not at hno
    obtain ⟨i, v, he⟩ := hno
    exact .inl ⟨i, v, he, findEntry_of_entryAt hw he⟩

theorem binding_eq_some (hw : WellFormed strhash64 d) {k v : CStr} :
    binding strhash64 d k = some v ↔ ∃ i, EntryAt d (strhash64 k) i k v := by
  unfold binding
  rcases findEntry_cases hw k with ⟨i, w, he, hf⟩ | ⟨hno, hf⟩ <;> rw [hf]
  · simp only [Option.some.injEq]
    constructor
    · rintro rfl
      exact ⟨i, he⟩
    · rintro ⟨j, hj⟩
      obtain rfl := hw.unique hj he
      exact (he.inj hj).2
  · simp [hno]

/-- A well-formed store denotes the map its lookups compute. -/
theorem denotes_iff (hw : WellFormed strhash64 d) {m : KvMap} :
    Denotes strhash64 d m ↔ m = binding strhash64 d := by
  constructor
  · intro hd
    funext k
    ext v
    rw [hd k v, binding_eq_some hw]
  · rintro rfl k v
    exact binding_eq_some hw

theorem binding_long {k : CStr} (hk : maxKeylen < k.strlen) : binding strhash64 d k = none := by
  rw [binding, findEntry_long hk]

theorem findEntry_fst (hw : WellFormed strhash64 d) (k : CStr) :
    (findEntry strhash64 d k).1 < 0 ↔ binding strhash64 d k = none := by
  unfold binding
  rcases findEntry_cases hw k with ⟨i, w, -, hf⟩ | ⟨-, hf⟩ <;> rw [hf]
  · simp
  · simp only [iff_true]
    split_ifs <;> decide

theorem binding_congr {d' : Dir} (hw : WellFormed strhash64 d) (hp : d'.present = d.present)
    (hl : ∀ h i, d'.lookup (.entry h i) = d.lookup (.entry h i)) :
    binding strhash64 d' = binding strhash64 d := by
  rw [← denotes_iff hw]
  intro k v
  rw [binding_eq_some (hw.congr hp hl)]
  exact exists_congr fun i => ⟨fun he => he.congr (hl _ _).symm, fun he => he.congr (hl _ _)⟩

/-! ## Insertion and overwrite -/

theorem WellFormed.overwrite_eq (hw : WellFormed strhash64 d) (h : UInt64) (i : ℕ)
    (bytes : List UInt8) :
    d.overwrite (.entry h i) bytes = some (d.set (.entry h i) ⟨bytes, true⟩) := by
  unfold Directory.overwrite
  rcases hf : d.lookup (.entry h i) with _ | f
  · rfl
  · obtain ⟨k, v, he, -⟩ := hw.entries hf
    have hfile : f = entryFile k v := by simpa [hf] using he.2.2
    simp [hfile, entryFile]

/-- Where the update section of `kvstore_put` writes. -/
def putPos (strhash64 : CStr → UInt64) (d : Dir) (key : CStr) (counter : ℤ) : ℕ :=
  if 0 ≤ counter then counter.toNat else d.firstFree (.entry (strhash64 key)) 0

theorem kvstorePutLocked_eq (hw : WellFormed strhash64 d) (k v : CStr) (counter : ℤ) :
    kvstorePutLocked strhash64 d k v counter
      = (d.set (.entry (strhash64 k) (putPos strhash64 d k counter)) (entryFile k v), 0) := by
  simp only [kvstorePutLocked, hw.overwrite_eq]
  rfl

theorem entryAt_set {h h' : UInt64} {i j : ℕ} {k v k' v' : CStr} (hk : k.strlen ≤ maxKeylen)
    (hv : v.strlen ≤ maxVallen) :
    EntryAt (d.set (.entry h i) (entryFile k v)) h' j k' v'
      ↔ if h' = h ∧ j = i then k' = k ∧ v' = v else EntryAt d h' j k' v' := by
  unfold EntryAt
  rw [Directory.lookup_set]
  split_ifs with hm hpos hpos
  · constructor
    · rintro ⟨hk', hv', hf⟩
      obtain ⟨rfl, rfl⟩ := entryFile_inj hk hv hk' hv' (by simpa using hf)
      exact ⟨rfl, rfl⟩
    · rintro ⟨rfl, rfl⟩
      exact ⟨hk, hv, rfl⟩
  · simp only [FileName.entry.injEq] at hm
    exact absurd hm hpos
  · obtain ⟨rfl, rfl⟩ := hpos
    exact absurd rfl hm
  · rfl

/-- Writing a key's entry at or before the end of its chain keeps the store well formed, if the
key has no entry elsewhere. -/
theorem WellFormed.set (hw : WellFormed strhash64 d) {n i : ℕ} {k v : CStr}
    (hn : d.Dense (.entry (strhash64 k)) n) (hi : i ≤ n) (hk : k.strlen ≤ maxKeylen)
    (hv : v.strlen ≤ maxVallen) (hother : ∀ j w, EntryAt d (strhash64 k) j k w → j = i) :
    WellFormed strhash64 (d.set (.entry (strhash64 k) i) (entryFile k v)) where
  present := hw.present
  dense h := by
    by_cases hh : h = strhash64 k
    · subst hh
      rcases hi.eq_or_lt with rfl | hlt
      · exact ⟨i + 1, hn.append (entry_injective _) _⟩
      · exact ⟨n, hn.overwrite (entry_injective _) hlt _⟩
    · obtain ⟨m, hm⟩ := hw.dense h
      refine ⟨m, hm.congr fun j => ?_⟩
      rw [Directory.lookup_set, if_neg]
      simp [hh]
  entries {h j f} hf := by
    rw [Directory.lookup_set] at hf
    split_ifs at hf with hm
    · injection hm with hh hj
      refine ⟨k, v, ⟨hk, hv, ?_⟩, hh.symm⟩
      rw [hh, hj, Directory.lookup_set, if_pos rfl]
    · obtain ⟨k', v', he, hh⟩ := hw.entries hf
      refine ⟨k', v', he.congr ?_, hh⟩
      rw [Directory.lookup_set, if_neg hm]
  unique {h j j' k' w w'} he he' := by
    rw [entryAt_set hk hv] at he he'
    by_cases h1 : h = strhash64 k ∧ j = i <;> by_cases h2 : h = strhash64 k ∧ j' = i
    · rw [h1.2, h2.2]
    · rw [if_pos h1] at he
      rw [if_neg h2, h1.1, he.1] at he'
      rw [h1.2, hother _ _ he']
    · rw [if_pos h2] at he'
      rw [if_neg h1, h2.1, he'.1] at he
      rw [h2.2, hother _ _ he]
    · rw [if_neg h1] at he
      rw [if_neg h2] at he'
      exact hw.unique he he'

/-- Writing a key's entry over its old one, or at the end of its chain, binds the key and nothing
else. -/
theorem binding_set (hw : WellFormed strhash64 d) {n i : ℕ} {k v : CStr}
    (hn : d.Dense (.entry (strhash64 k)) n) (hi : i ≤ n) (hk : k.strlen ≤ maxKeylen)
    (hv : v.strlen ≤ maxVallen) (hother : ∀ j w, EntryAt d (strhash64 k) j k w → j = i)
    (hown : i < n → ∃ w, EntryAt d (strhash64 k) i k w) :
    binding strhash64 (d.set (.entry (strhash64 k) i) (entryFile k v))
      = Function.update (binding strhash64 d) k (some v) := by
  symm
  rw [← denotes_iff (hw.set hn hi hk hv hother)]
  intro k' v'
  simp only [entryAt_set hk hv]
  by_cases hkk : k' = k
  · subst hkk
    rw [Function.update_self]
    constructor
    · rintro hvv
      exact ⟨i, by simpa using hvv.symm⟩
    · rintro ⟨j, hj⟩
      split_ifs at hj with hji
      · rw [hj.2]
      · exact absurd ⟨rfl, hother _ _ hj⟩ hji
  · rw [Function.update_of_ne hkk, binding_eq_some hw]
    refine exists_congr fun j => ?_
    split_ifs with hji
    · obtain ⟨hh, rfl⟩ := hji
      refine ⟨fun he => ?_, fun he => absurd he.1 hkk⟩
      rw [hh] at he
      obtain ⟨w, he'⟩ := hown (hn.lt_of_lookup he.2.2)
      exact absurd (he.inj he').1 hkk
    · rfl

/-! ## Deletion -/

/-- `kvstore_del` at a position of the chain: the last entry of the chain moves over it. -/
theorem kvstoreDelLocked_lookup {k : CStr} {n i : ℕ} (hn : d.Dense (.entry (strhash64 k)) n)
    (hi : i < n) :
    ∃ d', kvstoreDelLocked strhash64 d k i = (d', 0) ∧ d'.present = d.present ∧
      ∀ m, d'.lookup m = if m = .entry (strhash64 k) (n - 1) then none
        else if m = .entry (strhash64 k) i then d.lookup (.entry (strhash64 k) (n - 1))
        else d.lookup m := by
  have hfree : d.firstFree (.entry (strhash64 k)) (i + 1) = n :=
    hn.firstFree (entry_injective _) (by omega)
  obtain ⟨f, hf⟩ := hn.lookup_some (i := n - 1) (by omega)
  simp only [kvstoreDelLocked, hfree]
  split_ifs with hlast
  · subst hlast
    have hs : d.stat (.entry (strhash64 k) i) = true := (hn i).2 hi
    refine ⟨d.erase (.entry (strhash64 k) i), by simp [Directory.remove, hs], rfl, fun m => ?_⟩
    simp only [Directory.lookup_erase, Nat.add_sub_cancel]
    split_ifs <;> rfl
  · refine ⟨(d.erase (.entry (strhash64 k) (n - 1))).set (.entry (strhash64 k) i) f,
      by simp [Directory.rename, hf], rfl, fun m => ?_⟩
    simp only [Directory.lookup_set, Directory.lookup_erase]
    split_ifs with h1 h2 h2
    · rw [h1] at h2
      injection h2
      omega
    · exact hf.symm
    · rfl
    · rfl

/-- Past the end of the chain there is nothing to remove. -/
theorem kvstoreDelLocked_past {k : CStr} {n i : ℕ} (hn : d.Dense (.entry (strhash64 k)) n)
    (hi : n ≤ i) : kvstoreDelLocked strhash64 d k i = (d, enoent) := by
  have hfree : d.firstFree (.entry (strhash64 k)) (i + 1) = i + 1 :=
    hn.firstFree_of_le (entry_injective _) (by omega)
  have hs : d.stat (.entry (strhash64 k) i) = false :=
    Directory.stat_eq_false.2 (hn.lookup_none hi)
  simp [kvstoreDelLocked, hfree, Directory.remove, hs]

section Removed

variable {d' : Dir} {h : UInt64} {n i : ℕ}
  (hl : ∀ m, d'.lookup m = if m = .entry h (n - 1) then none
    else if m = .entry h i then d.lookup (.entry h (n - 1)) else d.lookup m)

include hl

/-- The entries left are those of the positions before the last, with position `i` standing for
the last. -/
theorem entryAt_removed {h' : UInt64} {j : ℕ} {k v : CStr} :
    EntryAt d' h' j k v ↔ ¬ (h' = h ∧ j = n - 1) ∧
      EntryAt d h' (if h' = h ∧ j = i then n - 1 else j) k v := by
  unfold EntryAt
  rw [hl]
  simp only [FileName.entry.injEq]
  by_cases h1 : h' = h ∧ j = n - 1
  · simp [h1]
  · simp only [h1, if_false, not_false_eq_true, true_and]
    split_ifs with h2
    · rw [h2.1]
    · rfl

theorem WellFormed.removed (hw : WellFormed strhash64 d) (hp : d'.present = d.present)
    (hn : d.Dense (.entry h) n) (hi : i < n) : WellFormed strhash64 d' where
  present := hp.trans hw.present
  dense h' := by
    by_cases hh : h' = h
    · subst hh
      refine ⟨n - 1, fun j => ?_⟩
      rw [Directory.stat_iff, hl]
      simp only [FileName.entry.injEq, true_and]
      split_ifs with h1 h2
      · simp [h1]
      · have := hn.lookup_some (i := n - 1) (by omega)
        simp only [this, true_iff]
        omega
      · rw [← Directory.stat_iff, hn j]
        omega
    · obtain ⟨m, hm⟩ := hw.dense h'
      refine ⟨m, hm.congr fun j => ?_⟩
      rw [hl, if_neg (by simp [hh]), if_neg (by simp [hh])]
  entries {h' j f} hf := by
    have hf' := hf
    rw [hl] at hf'
    split_ifs at hf' with h1 h2
    · injection h2 with hh hj
      obtain ⟨k, v, he, hs⟩ := hw.entries hf'
      exact ⟨k, v, he.congr (hf.trans hf'.symm), hs.trans hh.symm⟩
    · obtain ⟨k, v, he, hs⟩ := hw.entries hf'
      exact ⟨k, v, he.congr (hf.trans hf'.symm), hs⟩
  unique {h' j j' k v w} he he' := by
    rw [entryAt_removed hl] at he he'
    obtain ⟨hj, he⟩ := he
    obtain ⟨hj', he'⟩ := he'
    have := hw.unique he he'
    split_ifs at this with h1 h2 h2
    · rw [h1.2, h2.2]
    · exact absurd ⟨h1.1, this.symm⟩ hj'
    · exact absurd ⟨h2.1, this⟩ hj
    · exact this

/-- Removing position `i` unbinds the key whose entry was there and nothing else. -/
theorem binding_removed (hw : WellFormed strhash64 d) (hp : d'.present = d.present)
    (hn : d.Dense (.entry h) n) {k v : CStr} (he : EntryAt d h i k v) :
    binding strhash64 d' = Function.update (binding strhash64 d) k none := by
  have hi := hn.lt_of_lookup he.2.2
  have hk := hw.hash_eq he
  subst hk
  symm
  rw [← denotes_iff (hw.removed hl hp hn hi)]
  intro k' v'
  simp only [entryAt_removed hl]
  by_cases hkk : k' = k
  · subst hkk
    simp only [Function.update_self, reduceCtorEq, false_iff, not_exists, not_and, true_and]
    intro j hj he'
    have := hw.unique he' he
    split_ifs at this with hji
    · omega
    · exact hji this
  · rw [Function.update_of_ne hkk, binding_eq_some hw]
    constructor
    · rintro ⟨j, hj⟩
      by_cases hlast : strhash64 k' = strhash64 k ∧ j = n - 1
      · refine ⟨i, ?_, ?_⟩
        · rintro ⟨hh, rfl⟩
          rw [hh, hlast.2] at hj
          exact hkk (hj.inj he).1
        · rw [if_pos ⟨hlast.1, rfl⟩, ← hlast.2]
          exact hj
      · refine ⟨j, hlast, ?_⟩
        rw [if_neg]
        · exact hj
        · rintro ⟨hh, rfl⟩
          rw [hh] at hj
          exact hkk (hj.inj he).1
    · rintro ⟨j, -, hj⟩
      exact ⟨_, hj⟩

end Removed

end Cs162
