import Cs162.KvStoreIo
import Cs162.Proofs.KvStoreRefines

/-!
# Store updates whose file operations fail

A `put` opens the file it writes with mode `"w"`, which empties it, and does not look at what
`fwrite` returns; and it takes a lookup that could not open a file for one that found nothing. A
`del` whose `remove` or `rename` fails returns `errno`, which is positive. So an update reports its
failures exactly if none of this comes about (`kvstore_update_iff`).
-/

namespace Cs162

open CLib

variable (strhash64 : CStr → UInt64)

/-- An update that returns 0 leaves a store of the map `m`, and one that does not returns a negative
code and leaves a store of the map there was. -/
structure Reports (d : Dir) (m : KvMap) (r : Dir × ℤ) : Prop where
  done : r.2 = 0 → WellFormed strhash64 r.1 ∧ Denotes strhash64 r.1 m
  failed : r.2 ≠ 0 → r.2 < 0 ∧ WellFormed strhash64 r.1 ∧
    ∀ m', Denotes strhash64 d m' → Denotes strhash64 r.1 m'

/-- The lookup of a key can open the files up to the key's own. -/
def Looks (d : Dir) (o : StoreOutcome) (key : CStr) : Prop :=
  ∀ i w, EntryAt d (strhash64 key) i key w → ∀ j ≤ i, o.reads j = true

variable {strhash64} {d : Dir} {o : StoreOutcome} {k v : CStr} {h : UInt64} {m : KvMap}

/-! ## The lookup -/

variable (d h k) in
theorem findEntryLoop_ge : ∀ fuel counter : ℕ, 0 ≤ (findEntryLoop d h k fuel counter).1 →
    (counter : ℤ) ≤ (findEntryLoop d h k fuel counter).1
  | 0, counter, hnonneg => absurd hnonneg (by simp [findEntryLoop, errNokey])
  | fuel + 1, counter, hnonneg => by
    unfold findEntryLoop at hnonneg ⊢
    split at hnonneg
    · exact absurd hnonneg (by decide)
    · simp only at hnonneg ⊢
      split_ifs at hnonneg ⊢ with hkey
      · exact le_rfl
      · have := findEntryLoop_ge fuel (counter + 1) hnonneg
        omega

/-- A lookup that may fail to open a file either finds what the lookup finds, or has failed before. -/
theorem findEntryLoopIo_cases : ∀ (fuel counter : ℕ),
    (findEntryLoopIo d o h k fuel counter = (findEntryLoop d h k fuel counter).1 ∧
      ∀ j : ℕ, counter ≤ j → (j : ℤ) ≤ (findEntryLoop d h k fuel counter).1 → o.reads j = true) ∨
    (findEntryLoopIo d o h k fuel counter = errFilaccess ∧
      ∃ j : ℕ, o.reads j = false ∧ (0 ≤ (findEntryLoop d h k fuel counter).1 →
        (j : ℤ) ≤ (findEntryLoop d h k fuel counter).1))
  | 0, counter => by
    refine .inl ⟨rfl, fun j _ hj => ?_⟩
    simp only [findEntryLoop, errNokey] at hj
    omega
  | fuel + 1, counter => by
    have hge := findEntryLoop_ge d k h (fuel + 1) counter
    simp only [findEntryLoopIo, findEntryLoop] at hge ⊢
    rcases hf : d.lookup (.entry h counter) with _ | f
    · refine .inl ⟨rfl, fun j _ hj => ?_⟩
      simp only [errNokey] at hj
      omega
    rw [hf] at hge
    rcases hread : o.reads counter with _ | _
    · exact .inr ⟨by simp, counter, hread, hge⟩
    simp only [Bool.true_eq_false, if_false]
    split_ifs with hkey
    · refine .inl ⟨rfl, fun j hj hj' => ?_⟩
      obtain rfl : j = counter := by omega
      exact hread
    · rcases findEntryLoopIo_cases fuel (counter + 1) with ⟨heq, hall⟩ | hfail
      · refine .inl ⟨heq, fun j hj hj' => ?_⟩
        rcases hj.eq_or_lt with rfl | hlt
        · exact hread
        · exact hall j hlt hj'
      · exact .inr hfail

variable (o) in
theorem findEntryIo_cases (hw : WellFormed strhash64 d) (k : CStr) :
    (∃ i w, EntryAt d (strhash64 k) i k w ∧ (∀ j ≤ i, o.reads j = true) ∧
        findEntryIo strhash64 d o k = i) ∨
      findEntryIo strhash64 d o k < 0 ∧
        ∀ i w, EntryAt d (strhash64 k) i k w → ∃ j ≤ i, o.reads j = false := by
  by_cases hlong : maxKeylen < k.strlen
  · refine .inr ⟨?_, fun i w he => absurd he.1 (by omega)⟩
    rw [findEntryIo, if_pos hlong]
    decide
  have hfind : findEntry strhash64 d k
      = findEntryLoop d (strhash64 k) k (d.files.keys.card + 1) 0 := by
    rw [findEntry, if_neg hlong, if_neg (by simp [hw.present])]
  have hio : findEntryIo strhash64 d o k
      = findEntryLoopIo d o (strhash64 k) k (d.files.keys.card + 1) 0 := by
    rw [findEntryIo, if_neg hlong, if_neg (by simp [hw.present])]
  rw [hio]
  rcases findEntryLoopIo_cases (d := d) (o := o) (k := k) (h := strhash64 k)
    (d.files.keys.card + 1) 0 with ⟨heq, hreads⟩ | ⟨heq, j, hj, hle⟩
  · rw [← hfind] at heq hreads
    rcases findEntry_cases hw k with ⟨i, w, he, hf⟩ | ⟨hno, hf⟩
    · rw [hf] at heq hreads
      exact .inl ⟨i, w, he, fun j hj => hreads j (Nat.zero_le j) (by simpa using hj), heq⟩
    · rw [hf, if_neg hlong] at heq
      exact .inr ⟨by rw [heq]; decide, fun i w he => absurd he (hno i w)⟩
  · refine .inr ⟨by rw [heq]; decide, fun i w he => ⟨j, ?_, hj⟩⟩
    rw [← hfind, findEntry_of_entryAt hw he] at hle
    simpa using hle

/-! ## Operations that succeed -/

theorem stored_full (hfull : o.write = .full) :
    (KvEntry.make k v).dump.take (o.write.count (KvEntry.make k v).dump.length)
      = (KvEntry.make k v).dump := by
  rw [hfull]
  exact List.take_of_length_le le_rfl

variable (strhash64 d)

theorem findEntryIo_success (k : CStr) :
    findEntryIo strhash64 d .success k = (findEntry strhash64 d k).1 := by
  unfold findEntryIo findEntry
  split_ifs with hlong hpresent
  · rfl
  · rfl
  · rcases findEntryLoopIo_cases (d := d) (o := .success) (k := k) (h := strhash64 k)
      (d.files.keys.card + 1) 0 with ⟨heq, -⟩ | ⟨-, j, hj, -⟩
    · exact heq
    · cases hj

theorem kvstorePutIo_success (k v : CStr) :
    kvstorePutIo strhash64 d .success k v = kvstorePut strhash64 d k v := by
  unfold kvstorePutIo kvstorePut kvstorePutLocked
  have hfull : StoreOutcome.success.write = .full := rfl
  simp only [findEntryIo_success, stored_full hfull]
  rfl

theorem kvstoreDelIo_success (k : CStr) :
    kvstoreDelIo strhash64 d .success k = kvstoreDel strhash64 d k := by
  unfold kvstoreDelIo kvstoreDel
  rw [findEntryIo_success]
  rfl

variable {strhash64 d}

/-! ## Updates -/

theorem Reports.of_failed (hw : WellFormed strhash64 d) {ret : ℤ} (hret : ret < 0) :
    Reports strhash64 d m (d, ret) :=
  ⟨fun h => absurd h hret.ne, fun _ => ⟨hret, hw, fun _ h => h⟩⟩

theorem Reports.of_done {d' : Dir} (hw : WellFormed strhash64 d')
    (hb : binding strhash64 d' = m) : Reports strhash64 d m (d', 0) :=
  ⟨fun _ => ⟨hw, (denotes_iff hw).2 hb.symm⟩, fun h => absurd rfl h⟩

theorem length_dump_make :
    (KvEntry.make k v).dump.length = sizeofKventry + (k.strlen + v.strlen + 2) := by
  simp only [KvEntry.dump, KvEntry.make, List.length_append, length_leBytes, CStr.length_layout]
  omega

theorem take_dump_make : (KvEntry.make k v).dump.take sizeofKventry
    = leBytes sizeofKventry (k.strlen + v.strlen + 2) := List.take_left' (length_leBytes _ _)

/-- An entry that was not written in full is no entry. -/
theorem not_wellFormed_truncated {i n : ℕ} (hk : k.strlen ≤ maxKeylen) (hv : v.strlen ≤ maxVallen)
    (hn : n < (KvEntry.make k v).dump.length) :
    ¬ WellFormed strhash64 (d.set (.entry h i) ⟨(KvEntry.make k v).dump.take n, true⟩) := by
  intro hw
  obtain ⟨k', v', ⟨hk', hv', hf⟩, -⟩ :=
    hw.entries (by rw [Directory.lookup_set, if_pos rfl] :
      (d.set (.entry h i) ⟨(KvEntry.make k v).dump.take n, true⟩).lookup (.entry h i) = some _)
  rw [Directory.lookup_set, if_pos rfl, Option.some.injEq, entryFile, File.mk.injEq] at hf
  have hlen := length_dump_make (k := k) (v := v)
  have hlen' := length_dump_make (k := k') (v := v')
  have hsize := congrArg List.length hf.1
  have hhead := congrArg (List.take sizeofKventry) hf.1
  rw [List.length_take, hlen'] at hsize
  rw [List.take_take, min_eq_left (by omega), take_dump_make, take_dump_make] at hhead
  have hsum := congrArg leNat hhead
  simp only [maxKeylen, maxVallen, sizeofKventry] at *
  rw [leNat_leBytes_of_lt (by omega), leNat_leBytes_of_lt (by omega)] at hsum
  omega

/-- A lookup that can open the files it needs leads a `put` to where the lookup would. -/
theorem putPos_of_looks (hw : WellFormed strhash64 d) (hlooks : Looks strhash64 d o k) :
    putPos strhash64 d k (findEntryIo strhash64 d o k)
      = putPos strhash64 d k (findEntry strhash64 d k).1 := by
  rcases findEntryIo_cases o hw k with ⟨i, w, he, -, hio⟩ | ⟨hneg, hfail⟩
  · rw [hio, findEntry_of_entryAt hw he]
  · have hno : ∀ i w, ¬ EntryAt d (strhash64 k) i k w := by
      intro i w he
      obtain ⟨j, hj, hread⟩ := hfail i w he
      rw [hlooks i w he j hj] at hread
      cases hread
    have hnone : (findEntry strhash64 d k).1 < 0 := by
      rw [findEntry_fst hw]
      rcases hb : binding strhash64 d k with _ | w
      · rfl
      · obtain ⟨i, he⟩ := (binding_eq_some hw).1 hb
        exact absurd he (hno i w)
    rw [putPos, putPos, if_neg (by omega), if_neg (by omega)]

theorem not_putCheck (hw : WellFormed strhash64 d) (hk : k.strlen ≤ maxKeylen)
    (hv : v.strlen ≤ maxVallen) : ¬ kvstorePutCheck d k v < 0 := by
  rw [kvstorePutCheck_eq hw, if_neg (by omega), if_neg (by omega)]
  exact lt_irrefl _

theorem kvstorePutIo_eq (hw : WellFormed strhash64 d) (hk : k.strlen ≤ maxKeylen)
    (hv : v.strlen ≤ maxVallen) (ho : o.opens = true) : kvstorePutIo strhash64 d o k v
      = (d.set (.entry (strhash64 k) (putPos strhash64 d k (findEntryIo strhash64 d o k)))
          ⟨(KvEntry.make k v).dump.take (o.write.count (KvEntry.make k v).dump.length), true⟩, 0) := by
  simp only [kvstorePutIo, if_neg (not_putCheck hw hk hv), ho, if_true, hw.overwrite_eq]
  rfl

theorem kvstorePutIo_eq_kvstorePut (hw : WellFormed strhash64 d) (hk : k.strlen ≤ maxKeylen)
    (hv : v.strlen ≤ maxVallen) (ho : o.opens = true) (hfull : o.write = .full)
    (hlooks : Looks strhash64 d o k) :
    kvstorePutIo strhash64 d o k v = kvstorePut strhash64 d k v := by
  rw [kvstorePutIo_eq hw hk hv ho, putPos_of_looks hw hlooks, stored_full hfull, kvstorePut,
    if_neg (not_putCheck hw hk hv), kvstorePutLocked_eq hw]
  rfl

theorem put_refused (hw : WellFormed strhash64 d)
    (hlim : ¬ (k.strlen ≤ maxKeylen ∧ v.strlen ≤ maxVallen)) :
    Reports strhash64 d m (kvstorePutIo strhash64 d o k v) := by
  have hcheck : kvstorePutCheck d k v < 0 := by
    rw [kvstorePutCheck_eq hw]
    split_ifs
    · decide
    · decide
    · omega
  have hput : kvstorePutIo strhash64 d o k v = (d, kvstorePutCheck d k v) := by
    simp only [kvstorePutIo, if_pos hcheck]
  rw [hput]
  exact .of_failed hw hcheck

theorem put_unopened (hw : WellFormed strhash64 d) (hk : k.strlen ≤ maxKeylen)
    (hv : v.strlen ≤ maxVallen) (ho : o.opens = false) :
    Reports strhash64 d m (kvstorePutIo strhash64 d o k v) := by
  have hput : kvstorePutIo strhash64 d o k v = (d, errFilaccess) := by
    simp only [kvstorePutIo, if_neg (not_putCheck hw hk hv), ho, Bool.false_eq_true, if_false]
  rw [hput]
  exact .of_failed hw (by decide)

theorem full_of_wellFormed (hk : k.strlen ≤ maxKeylen) (hv : v.strlen ≤ maxVallen) {i : ℕ}
    (hw : WellFormed strhash64 (d.set (.entry h i)
      ⟨(KvEntry.make k v).dump.take (o.write.count (KvEntry.make k v).dump.length), true⟩)) :
    o.write = .full := by
  by_contra hshort
  refine not_wellFormed_truncated hk hv (WriteResult.count_lt ?_ hshort) hw
  rw [length_dump_make]
  exact Nat.add_pos_left (by decide) _

/-- A key whose entry the lookup does not get to would have a second one at the end of its chain. -/
theorem looks_of_wellFormed (hw : WellFormed strhash64 d) (hk : k.strlen ≤ maxKeylen)
    (hv : v.strlen ≤ maxVallen) (hw' : WellFormed strhash64 (d.set (.entry (strhash64 k)
      (putPos strhash64 d k (findEntryIo strhash64 d o k))) (entryFile k v))) :
    Looks strhash64 d o k := by
  intro i w he j hj
  by_contra hread
  rcases findEntryIo_cases o hw k with ⟨i', w', he', hreads, -⟩ | ⟨hneg, -⟩
  · obtain rfl := hw.unique he he'
    exact hread (hreads j hj)
  obtain ⟨n, hn⟩ := hw.dense (strhash64 k)
  have hpos : putPos strhash64 d k (findEntryIo strhash64 d o k) = n := by
    rw [putPos, if_neg (by omega), hn.firstFree (entry_injective _) (Nat.zero_le n)]
  have hlt := hn.lt_of_lookup he.2.2
  rw [hpos] at hw'
  have hold : EntryAt (d.set (.entry (strhash64 k) n) (entryFile k v)) (strhash64 k) i k w := by
    rw [entryAt_set hk hv, if_neg (by omega)]
    exact he
  have hnew : EntryAt (d.set (.entry (strhash64 k) n) (entryFile k v)) (strhash64 k) n k v := by
    rw [entryAt_set hk hv, if_pos ⟨rfl, rfl⟩]
    exact ⟨rfl, rfl⟩
  exact hlt.ne (hw'.unique hold hnew)

theorem put_reports_iff (hw : WellFormed strhash64 d) (k v : CStr) :
    Reports strhash64 d (Function.update (binding strhash64 d) k (some v))
        (kvstorePutIo strhash64 d o k v)
      ↔ ¬ (k.strlen ≤ maxKeylen ∧ v.strlen ≤ maxVallen) ∨ o.opens = false ∨
        o.write = .full ∧ Looks strhash64 d o k := by
  by_cases hlim : k.strlen ≤ maxKeylen ∧ v.strlen ≤ maxVallen
  swap
  · exact iff_of_true (put_refused hw hlim) (.inl hlim)
  obtain ⟨hk, hv⟩ := hlim
  rcases ho : o.opens with _ | _
  · exact iff_of_true (put_unopened hw hk hv ho) (.inr (.inl rfl))
  simp only [hk, hv, and_self, not_true_eq_false, Bool.true_eq_false, false_or]
  constructor
  · intro hreports
    rw [kvstorePutIo_eq hw hk hv ho] at hreports
    obtain ⟨hw', -⟩ := hreports.done rfl
    have hfull := full_of_wellFormed hk hv hw'
    rw [stored_full hfull] at hw'
    exact ⟨hfull, looks_of_wellFormed hw hk hv hw'⟩
  · rintro ⟨hfull, hlooks⟩
    rw [kvstorePutIo_eq_kvstorePut hw hk hv ho hfull hlooks]
    have hret := kvstorePut_ret hw hk hv
    rw [← Prod.mk.eta (p := kvstorePut strhash64 d k v), hret]
    exact .of_done (hw.kvstorePut k v) (kvstorePut_binding hw hk hv)

theorem del_reports_iff (hw : WellFormed strhash64 d) (k : CStr) :
    Reports strhash64 d (Function.update (binding strhash64 d) k none)
        (kvstoreDelIo strhash64 d o k)
      ↔ o.errno = none ∨
        ∀ i w, EntryAt d (strhash64 k) i k w → ∃ j ≤ i, o.reads j = false := by
  rcases findEntryIo_cases o hw k with ⟨i, w, he, hreads, hio⟩ | ⟨hneg, hfail⟩
  · have hb := (binding_eq_some hw).2 ⟨i, he⟩
    have hfound : ¬ (i : ℤ) < 0 := by omega
    have hopened : ¬ ∀ i w, EntryAt d (strhash64 k) i k w → ∃ j ≤ i, o.reads j = false := by
      intro hall
      obtain ⟨j, hj, hread⟩ := hall i w he
      rw [hreads j hj] at hread
      cases hread
    rcases herrno : o.errno with _ | errno
    · refine iff_of_true ?_ (.inl rfl)
      obtain ⟨d', hdel, hw', hb'⟩ := kvstoreDel_ok hw hb
      have hsame : kvstoreDelIo strhash64 d o k = kvstoreDel strhash64 d k := by
        simp only [kvstoreDelIo, kvstoreDel, hio, findEntry_of_entryAt hw he, herrno]
      rw [hsame, hdel]
      exact .of_done hw' hb'
    · refine iff_of_false (fun hreports => ?_) (by simpa using hopened)
      have hdel : kvstoreDelIo strhash64 d o k = (d, (errno : ℤ)) := by
        simp only [kvstoreDelIo, hio, if_neg hfound, herrno]
      rw [hdel] at hreports
      by_cases hzero : (errno : ℤ) = 0
      · have hdenotes := (denotes_iff hw).1 (hreports.done hzero).2
        have hk := congrFun hdenotes k
        rw [Function.update_self, hb] at hk
        cases hk
      · have := (hreports.failed hzero).1
        simp only at this
        omega
  · have hdel : kvstoreDelIo strhash64 d o k = (d, findEntryIo strhash64 d o k) := by
      simp only [kvstoreDelIo, if_pos hneg]
    rw [hdel]
    exact iff_of_true (.of_failed hw hneg) (.inr hfail)

/-- A `put` reports its failures if and only if it is refused, cannot open the file it writes, or
writes all of it where the key belongs; a `del` if and only if it does not come to `remove` or
`rename`, or they succeed. -/
theorem kvstore_update_iff (hw : WellFormed strhash64 d) (o : StoreOutcome) :
    (∀ k v, Reports strhash64 d (Function.update (binding strhash64 d) k (some v))
        (kvstorePutIo strhash64 d o k v)
      ↔ ¬ (k.strlen ≤ maxKeylen ∧ v.strlen ≤ maxVallen) ∨ o.opens = false ∨
        o.write = .full ∧ Looks strhash64 d o k) ∧
    ∀ k, Reports strhash64 d (Function.update (binding strhash64 d) k none)
        (kvstoreDelIo strhash64 d o k)
      ↔ o.errno = none ∨
        ∀ i w, EntryAt d (strhash64 k) i k w → ∃ j ≤ i, o.reads j = false :=
  ⟨put_reports_iff hw, del_reports_iff hw⟩

/-- A disk that is full after three bytes. -/
def fullDisk : StoreOutcome := ⟨fun _ => true, true, .short 3, none⟩

theorem kvstore_update_iff_fullDisk :
    (∀ k v, Reports (fun _ => 0) emptyDir (Function.update (binding (fun _ => 0) emptyDir) k (some v))
        (kvstorePutIo (fun _ => 0) emptyDir fullDisk k v)
      ↔ ¬ (k.strlen ≤ maxKeylen ∧ v.strlen ≤ maxVallen) ∨ fullDisk.opens = false ∨
        fullDisk.write = .full ∧ Looks (fun _ => 0) emptyDir fullDisk k) ∧
    ∀ k, Reports (fun _ => 0) emptyDir (Function.update (binding (fun _ => 0) emptyDir) k none)
        (kvstoreDelIo (fun _ => 0) emptyDir fullDisk k)
      ↔ fullDisk.errno = none ∨
        ∀ i w, EntryAt emptyDir 0 i k w → ∃ j ≤ i, fullDisk.reads j = false :=
  kvstore_update_iff wellFormed_emptyDir fullDisk

/-- The `put` returns 0 and leaves a file of three bytes. -/
theorem fullDisk_not_reports :
    ¬ ∀ (strhash64 : CStr → UInt64) (d : Dir) (o : StoreOutcome), WellFormed strhash64 d →
      (∀ k v, Reports strhash64 d (Function.update (binding strhash64 d) k (some v))
        (kvstorePutIo strhash64 d o k v)) ∧
      ∀ k, Reports strhash64 d (Function.update (binding strhash64 d) k none)
        (kvstoreDelIo strhash64 d o k) := by
  intro hall
  have hput := (hall (fun _ => 0) emptyDir fullDisk wellFormed_emptyDir).1 (.ofString "k")
    (.ofString "v")
  rcases (put_reports_iff wellFormed_emptyDir _ _).1 hput with hlim | hopens | hfull
  · exact hlim (by decide)
  · cases hopens
  · cases hfull.1

end Cs162
