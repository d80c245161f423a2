import Cs162.TpcLogIo
import Cs162.Proofs.FollowerLog

/-!
# Appending, clearing and reopening the log

While the data of each entry is shorter than `2^31` bytes, a log's files are `0.log` up to the one
before `nextid`, and iterating it yields the entries logged since it was last cleared
(`tpclog_agrees_iff`). An entry is complete on disk only if `open` fails or `write` stores all of it
(`tpclog_log_atomic_iff`), and a clear that is cut short leaves a log with a gap
(`clear_crash_iff`).
-/

namespace Cs162

open CLib

/-! ## The entry of a call -/

/-- The bytes of an entry's data. -/
def LogCall.dataSize (c : LogCall) : ℕ :=
  (if c.type = .putreq ∨ c.type = .delreq then c.key.elim 0 (·.strlen + 1) else 0) +
    if c.type = .putreq then c.value.elim 0 (·.strlen + 1) else 0

/-- The sizes fit their `int`s. -/
def LogCall.Fits (c : LogCall) : Prop := c.dataSize < 2 ^ 31

/-- An entry holds what its call was given. -/
structure EntryOf (c : LogCall) (e : LogEntry) : Prop where
  type : e.type = c.type
  length : e.length = e.data.length
  key : c.type = .putreq ∨ c.type = .delreq → c.key = some e.key
  value : c.type = .putreq → c.value = some e.value

variable {d d' : Dir} {log log' : TpcLog} {c : LogCall} {e : LogEntry} {o : LogOutcome}
  {since : List LogCall}

theorem LogCall.make_eq (c : LogCall) :
    ∃ e, LogEntry.make c.type c.key c.value = some e ∧ e.length = c.dataSize := by
  have hkey := c.keyGiven
  have hvalue := c.valueGiven
  unfold dataSize
  generalize c.type = type, c.key = key, c.value = value at *
  rcases key with _ | k <;> rcases value with _ | v <;> cases type <;> simp_all [LogEntry.make]

theorem LogCall.entry_eq_some : c.entry = some e ↔
    LogEntry.make c.type c.key c.value = some e ∧ e.length < 2 ^ 31 := by
  obtain ⟨e', he, -⟩ := c.make_eq
  simp only [entry, he, Option.bind_eq_bind, Option.bind_some, Option.pure_def,
    Option.ite_none_right_eq_some, Option.some.injEq]
  constructor
  · rintro ⟨hlt, rfl⟩
    exact ⟨rfl, hlt⟩
  · rintro ⟨rfl, hlt⟩
    exact ⟨hlt, rfl⟩

theorem LogCall.entry_of_not_fits (h : ¬ c.Fits) : c.entry = none := by
  obtain ⟨e, he, hlen⟩ := c.make_eq
  refine Option.eq_none_iff_forall_ne_some.2 fun e' he' => h ?_
  obtain ⟨hmake, hlt⟩ := entry_eq_some.1 he'
  obtain rfl : e = e' := Option.some.inj (he.symm.trans hmake)
  show c.dataSize < 2 ^ 31
  rwa [← hlen]

theorem LogCall.entry_of_fits (h : c.Fits) : ∃ e, c.entry = some e := by
  obtain ⟨e, he, hlen⟩ := c.make_eq
  exact ⟨e, entry_eq_some.2 ⟨he, hlen ▸ h⟩⟩

theorem LogCall.entry_some (h : c.entry = some e) :
    EntryOf c e ∧ e.length < 2 ^ 31 := by
  obtain ⟨hmake, hlt⟩ := entry_eq_some.1 h
  have hrecords : Records (some e) ⟨c.type, c.key, c.value⟩ := LogEntry.make_records hmake
  obtain ⟨_, ⟨rfl⟩, htype, hkey, hvalue⟩ := hrecords
  exact ⟨⟨htype, LogEntry.make_length hmake, hkey, hvalue⟩, hlt⟩

theorem LogCall.load_dump (ht : c.type.loggable = true) (h : c.entry = some e) :
    LogEntry.load e.dump = some e := by
  obtain ⟨hentry, hlt⟩ := entry_some h
  exact LogEntry.load_dump (hentry.type ▸ ht) hentry.length (hlt.trans (by norm_num))

theorem LogEntry.length_dump (h : e.length = e.data.length) :
    e.dump.length = sizeofLogentry + e.length := by
  simp only [dump, sizeofLogentry, h, List.length_append, length_leBytes]

/-! ## One append -/

theorem tpclogLogIo_free (ht : c.type.loggable = true) (ho : o.opens = true)
    (hfree : d.lookup (.log log.nextid) = none) : tpclogLogIo d log o c = c.entry.map fun e =>
      (d.set (.log log.nextid) ⟨e.dump.take (o.write.count (sizeofLogentry + e.length)), false⟩,
        { log with nextid := log.nextid + 1 },
        if toSizeT (o.write.ret (sizeofLogentry + e.length)) < sizeofLogentry + e.length
        then errFilaccess else 0) := by
  have hopen : d.openCreate (.log log.nextid) false = some (d.set (.log log.nextid) ⟨[], false⟩) := by
    simp [Directory.openCreate, hfree]
  simp only [tpclogLogIo, ht, Bool.true_eq_false, if_false, ho, if_true, hopen]
  rcases c.entry with _ | e
  · rfl
  · simp only [Option.bind_eq_bind, Option.bind_some, Directory.writeStart_created, Option.map_some]
    rfl

theorem toSizeT_full {size : ℕ} (h : size < 2 ^ 32) : toSizeT (WriteResult.full.ret size) = size := by
  have : ((size : ℤ) % 2 ^ 64).toNat = size := by
    rw [Int.emod_eq_of_lt (by omega) (by omega), Int.toNat_natCast]
  exact this

theorem LogEntry.size_lt (h : e.length < 2 ^ 31) : sizeofLogentry + e.length < 2 ^ 32 := by
  simp only [sizeofLogentry]
  omega

theorem full_ret (h : e.length < 2 ^ 31) :
    ¬ toSizeT (WriteResult.full.ret (sizeofLogentry + e.length)) < sizeofLogentry + e.length := by
  rw [toSizeT_full (LogEntry.size_lt h)]
  exact lt_irrefl _

theorem success_ret (h : e.length < 2 ^ 31) :
    ¬ toSizeT (LogOutcome.success.write.ret (sizeofLogentry + e.length))
      < sizeofLogentry + e.length := full_ret h

theorem success_stored (h : e.length = e.data.length) :
    e.dump.take (LogOutcome.success.write.count (sizeofLogentry + e.length)) = e.dump :=
  List.take_of_length_le (LogEntry.length_dump h).le

theorem tpclogLogIo_success (ht : c.type.loggable = true)
    (hfree : d.lookup (.log log.nextid) = none) : tpclogLogIo d log .success c = c.entry.map fun e =>
      (d.set (.log log.nextid) ⟨e.dump, false⟩, { log with nextid := log.nextid + 1 }, 0) := by
  rw [tpclogLogIo_free ht rfl hfree]
  rcases he : c.entry with _ | e
  · rfl
  · obtain ⟨hentry, hlt⟩ := LogCall.entry_some he
    simp only [Option.map_some, if_neg (success_ret hlt), success_stored hentry.length]

/-- With system calls that succeed and sizes that fit, this is the `tpclog_log` of the follower. -/
theorem tpclogLogIo_eq_tpclogLog (h : c.Fits) :
    tpclogLogIo d log .success c = tpclogLog d log c.type c.key c.value := by
  obtain ⟨e, he⟩ := c.entry_of_fits h
  have hmake := (LogCall.entry_eq_some.1 he).1
  obtain ⟨hentry, hlt⟩ := LogCall.entry_some he
  unfold tpclogLogIo tpclogLog
  split_ifs with ht ho
  · rfl
  · rcases d.openCreate (.log log.nextid) false with _ | d₁
    · rfl
    · simp only [he, hmake, Option.bind_eq_bind, Option.bind_some, success_ret hlt,
        success_stored hentry.length, if_false]
  · exact absurd rfl ho

/-! ## Clearing -/

theorem clearLoop_lookup {n : ℕ} : ∀ (fuel count : ℕ) {d : Dir},
    (∀ i, count ≤ i → (d.stat (.log i) = true ↔ i < n)) →
    (clearLoop d fuel count).2 = true ∧ ∀ i, (clearLoop d fuel count).1.lookup (.log i)
      = if count ≤ i ∧ i < min n (count + fuel) then none else d.lookup (.log i)
  | 0, count, d, h => by
    refine ⟨rfl, fun i => ?_⟩
    rw [if_neg (by omega)]
    rfl
  | fuel + 1, count, d, h => by
    simp only [clearLoop]
    by_cases hlt : count < n
    · have hstat : d.stat (.log count) = true := (h count le_rfl).2 hlt
      have hrest : ∀ i, count + 1 ≤ i → ((d.erase (.log count)).stat (.log i) = true ↔ i < n) := by
        intro i hi
        rw [Directory.stat_erase, Ne, log_injective.eq_iff, h i (by omega)]
        omega
      obtain ⟨hok, hlookup⟩ := clearLoop_lookup fuel (count + 1) hrest
      simp only [hstat, if_true, Directory.remove]
      refine ⟨hok, fun i => ?_⟩
      simp only [hlookup, Directory.lookup_erase, log_injective.eq_iff]
      split_ifs <;> first | rfl | omega
    · have hstat : ¬ d.stat (.log count) = true := fun hs => hlt ((h count le_rfl).1 hs)
      rw [if_neg hstat]
      refine ⟨rfl, fun i => ?_⟩
      rw [if_neg (by omega)]

theorem clearLoop_dense {n : ℕ} (hn : d.Dense .log n) (k : ℕ) :
    (clearLoop d k 0).2 = true ∧ ∀ i, (clearLoop d k 0).1.lookup (.log i)
      = if i < min n k then none else d.lookup (.log i) := by
  obtain ⟨hok, hlookup⟩ := clearLoop_lookup k 0 fun i _ => hn i
  refine ⟨hok, fun i => ?_⟩
  rw [hlookup]
  simp

/-! ## Runs of appends, clears and restarts -/

/-- The log's files are the entries of the calls since it was cleared. -/
structure LogHolds (d : Dir) (log : TpcLog) (since : List LogCall) : Prop where
  dense : d.Dense .log log.nextid
  nextid : log.nextid = since.length
  stored : ∀ i (hi : i < since.length), since[i].type.loggable = true ∧
    ∃ e w, since[i].entry = some e ∧ d.lookup (.log i) = some ⟨e.dump, w⟩

/-- What the users of a log rely on: its files, a restart, an iteration and a refusal. -/
structure LogAgrees (d : Dir) (log : TpcLog) (since : List LogCall) : Prop where
  files : d.Dense .log log.nextid
  reopened : ∀ mem, (tpclogInit d mem).nextid = log.nextid
  iterated : List.Forall₂ (fun e c => ∃ e', e = some e' ∧ EntryOf c e') (tpclogIterate d log) since
  refused : ∀ c : LogCall, c.type.loggable = false →
    tpclogLogIo d log .success c = some (d, log, errInvldmsg)

theorem LogHolds.agrees (h : LogHolds d log since) : LogAgrees d log since where
  files := h.dense
  reopened _ := h.dense.firstFree log_injective (Nat.zero_le _)
  iterated := by
    rw [tpclogIterate_dense h.dense, List.forall₂_iff_get]
    refine ⟨by simp [h.nextid], fun i _ hi => ?_⟩
    obtain ⟨ht, e, w, he, hf⟩ := h.stored i hi
    simp only [List.get_eq_getElem, List.getElem_map, List.getElem_range, hf, Option.bind_some]
    exact ⟨e, LogCall.load_dump ht he, (LogCall.entry_some he).1⟩
  refused c hc := by simp [tpclogLogIo, hc]

/-- What an operation adds to, or takes from, the calls that a log holds. -/
def LogOp.record (since : List LogCall) : LogOp → List LogCall
  | .log c => if c.type.loggable then since ++ [c] else since
  | .clear => []
  | .reopen _ => since

theorem sinceClear_concat (ops : List LogOp) (op : LogOp) :
    sinceClear (ops ++ [op]) = op.record (sinceClear ops) := by
  cases op <;> simp [sinceClear, LogOp.record]

def LogOp.Fits : LogOp → Prop
  | .log c => c.Fits
  | _ => True

theorem LogHolds.init (mem : TpcLog) (hd : ∀ i, d.stat (.log i) = false) :
    LogHolds d (tpclogInit d mem) [] := by
  have hdense : d.Dense .log 0 := fun i => by simp [hd]
  have hnextid : (tpclogInit d mem).nextid = 0 := hdense.firstFree log_injective le_rfl
  exact ⟨hnextid ▸ hdense, hnextid, fun i hi => absurd hi (Nat.not_lt_zero i)⟩

theorem LogHolds.append (h : LogHolds d log since) (ht : c.type.loggable = true)
    (he : c.entry = some e) (w : Bool) : LogHolds (d.set (.log log.nextid) ⟨e.dump, w⟩)
      { log with nextid := log.nextid + 1 } (since ++ [c]) where
  dense := h.dense.append log_injective _
  nextid := by simp [h.nextid]
  stored i hi := by
    rw [List.length_append, List.length_singleton] at hi
    rcases Nat.lt_succ_iff_lt_or_eq.1 hi with hlt | rfl
    · obtain ⟨hti, e', w', he', hf⟩ := h.stored i hlt
      have hne : FileName.log i ≠ .log log.nextid := fun heq => by
        have := log_injective heq
        rw [h.nextid] at this
        omega
      rw [List.getElem_append_left hlt]
      exact ⟨hti, e', w', he', by rw [Directory.lookup_set, if_neg hne, hf]⟩
    · rw [List.getElem_concat_length rfl]
      exact ⟨ht, e, w, he, by rw [Directory.lookup_set, if_pos (by rw [h.nextid])]⟩

theorem LogHolds.clear (h : LogHolds d log since) : LogHolds (tpclogClearLog d log).1
    (tpclogClearLog d log).2.1 [] := by
  obtain ⟨hok, hlookup⟩ := clearLoop_dense h.dense d.files.keys.card
  have hcard := d.card_le_of_stat log_injective (Finset.range log.nextid) fun j hj =>
    (h.dense j).2 (Finset.mem_range.1 hj)
  rw [Finset.card_range] at hcard
  have hnone : ∀ i, (clearLoop d d.files.keys.card 0).1.lookup (.log i) = none := by
    intro i
    rw [hlookup, min_eq_left hcard]
    split_ifs with hi
    · rfl
    · exact h.dense.lookup_none (by omega)
  simp only [tpclogClearLog, hok, if_true]
  refine ⟨fun i => ?_, rfl, fun i hi => absurd hi (Nat.not_lt_zero i)⟩
  simp [Directory.stat, hnone]

theorem LogHolds.step (h : LogHolds d log since) {op : LogOp} (hfits : op.Fits) :
    ∃ s, op.step (d, log) = some s ∧ LogHolds s.1 s.2 (op.record since) := by
  cases op with
  | log c =>
    by_cases ht : c.type.loggable = true
    · obtain ⟨e, he⟩ := c.entry_of_fits hfits
      have hlog := tpclogLogIo_success ht (h.dense.lookup_none le_rfl)
      rw [he] at hlog
      refine ⟨_, by simp only [LogOp.step, hlog, Option.map_some]; rfl, ?_⟩
      simp only [LogOp.record, if_pos ht]
      exact h.append ht he false
    · have hrefused := h.agrees.refused c (by simpa using ht)
      refine ⟨(d, log), by simp only [LogOp.step, hrefused, Option.map_some], ?_⟩
      simpa only [LogOp.record, if_neg ht] using h
  | clear => exact ⟨_, rfl, h.clear⟩
  | reopen mem =>
    refine ⟨_, rfl, ?_⟩
    have hnextid : (tpclogInit d mem).nextid = log.nextid := h.agrees.reopened mem
    exact ⟨hnextid ▸ h.dense, hnextid.trans h.nextid, h.stored⟩

theorem LogHolds.step_none (h : LogHolds d log since) {op : LogOp} (hfits : ¬ op.Fits) :
    op.step (d, log) = none := by
  cases op with
  | log c =>
    have ht : c.type.loggable = true := by
      by_contra ht
      refine hfits ?_
      show c.dataSize < 2 ^ 31
      unfold LogCall.dataSize
      generalize c.type = type at ht
      cases type <;> first | exact absurd rfl ht | simp
    simp only [LogOp.step, tpclogLogIo_success ht (h.dense.lookup_none le_rfl),
      c.entry_of_not_fits hfits, Option.map_none]
  | clear => exact absurd trivial hfits
  | reopen mem => exact absurd trivial hfits

theorem LogHolds.run (mem : TpcLog) (hd : ∀ i, d.stat (.log i) = false) (ops : List LogOp) :
    (∀ op ∈ ops, op.Fits) → ∃ s, ops.foldlM (fun s op => op.step s) (d, tpclogInit d mem) = some s ∧
      LogHolds s.1 s.2 (sinceClear ops) := by
  induction ops using List.reverseRecOn with
  | nil =>
    intro _
    exact ⟨_, rfl, .init mem hd⟩
  | append_singleton ops op ih =>
    intro hfits
    obtain ⟨s, hrun, h⟩ := ih fun op hop => hfits op (List.mem_append_left _ hop)
    obtain ⟨s', hs', h'⟩ := h.step (hfits op (by simp))
    refine ⟨s', ?_, sinceClear_concat ops op ▸ h'⟩
    rw [List.foldlM_append, hrun]
    simpa using hs'

/-- A log that starts without entries is, after any appends, clears and restarts, what its calls say,
if and only if the data of each entry is shorter than `2^31` bytes. -/
theorem tpclog_agrees_iff (mem : TpcLog) (hd : ∀ i, d.stat (.log i) = false) (ops : List LogOp) :
    (∀ done, done <+: ops → ∃ s,
        done.foldlM (fun s op => op.step s) (d, tpclogInit d mem) = some s ∧
          LogAgrees s.1 s.2 (sinceClear done))
      ↔ ∀ c, .log c ∈ ops → c.dataSize < 2 ^ 31 := by
  constructor
  · induction ops using List.reverseRecOn with
    | nil => simp
    | append_singleton ops op ih =>
      intro hall c hc
      have hbefore := ih fun done hdone => hall done (hdone.trans (List.prefix_append ops [op]))
      rcases List.mem_append.1 hc with hc | hc
      · exact hbefore c hc
      obtain rfl := List.mem_singleton.1 hc
      obtain ⟨s, hrun, h⟩ := LogHolds.run mem hd ops fun op hop => by
        cases op with
        | log c => exact hbefore c hop
        | _ => trivial
      by_contra hbig
      obtain ⟨s', hrun', -⟩ := hall _ (List.prefix_refl _)
      have hnone : LogOp.step s (.log c) = none := h.step_none hbig
      rw [List.foldlM_append, hrun] at hrun'
      simp [hnone] at hrun'
  · intro hfits done hdone
    obtain ⟨s, hrun, h⟩ := LogHolds.run mem hd done fun op hop => by
      cases op with
      | log c => exact hfits c (hdone.subset hop)
      | _ => trivial
    exact ⟨s, hrun, h.agrees⟩

/-- A put is logged, the log is opened again, and then it is cleared. -/
theorem tpclog_agrees_iff_onePut :
    (∀ done, done <+: [LogOp.log (.put (.ofString "k") (.ofString "v")), .reopen ⟨0, 0⟩, .clear] →
        ∃ s, done.foldlM (fun s op => op.step s) (emptyDir, tpclogInit emptyDir ⟨0, 0⟩) = some s ∧
          LogAgrees s.1 s.2 (sinceClear done))
      ↔ ∀ c, .log c ∈ [LogOp.log (.put (.ofString "k") (.ofString "v")), .reopen ⟨0, 0⟩, .clear] →
        c.dataSize < 2 ^ 31 :=
  tpclog_agrees_iff ⟨0, 0⟩ (fun _ => rfl) _

/-- A key of so many bytes. -/
def keyOfLength (n : ℕ) : CStr := ⟨List.replicate n 97, fun h => by cases List.eq_of_mem_replicate h⟩

theorem del_longKey {n : ℕ} (hn : 2 ^ 31 ≤ n + 1) :
    LogOp.step (emptyDir, tpclogInit emptyDir ⟨0, 0⟩) (.log (.del (keyOfLength n))) = none := by
  have hsize : (LogCall.del (keyOfLength n)).dataSize = n + 1 := by
    have hlen : (keyOfLength n).strlen = n := List.length_replicate
    simp [LogCall.dataSize, LogCall.del, hlen]
  refine (LogHolds.init ⟨0, 0⟩ fun _ => rfl).step_none fun hfits => ?_
  have : n + 1 < 2 ^ 31 := hsize ▸ hfits
  omega

/-- A key of `2^31 - 1` bytes takes its `keylen` to `-2^31`. -/
theorem longKey_not_agrees :
    ¬ ∀ (d : Dir) (mem : TpcLog) (ops : List LogOp), (∀ i, d.stat (.log i) = false) →
      ∀ done, done <+: ops → ∃ s,
        done.foldlM (fun s op => op.step s) (d, tpclogInit d mem) = some s ∧
          LogAgrees s.1 s.2 (sinceClear done) := by
  intro hall
  obtain ⟨s, hrun, -⟩ := hall emptyDir ⟨0, 0⟩ [.log (.del (keyOfLength (2 ^ 31 - 1)))]
    (fun _ => rfl) _ (List.prefix_refl _)
  rw [List.foldlM_cons, del_longKey (by norm_num)] at hrun
  cases hrun

/-! ## An append that fails -/

/-- `tpclog_log` returns 0 just if the whole entry is in the next file, and an error only if nothing
has changed for those who read the log. -/
def AppendAtomic (d : Dir) (log : TpcLog) (o : LogOutcome) (c : LogCall) : Prop :=
  ∃ d' log' ret, tpclogLogIo d log o c = some (d', log', ret) ∧
    (ret = 0 ↔ (∃ e f, LogEntry.make c.type c.key c.value = some e ∧
        d'.lookup (.log log.nextid) = some f ∧ f.bytes = e.dump) ∧
      log'.nextid = log.nextid + 1) ∧
    (ret < 0 → log'.nextid = log.nextid ∧ tpclogIterate d' log' = tpclogIterate d log)

/-- A `write` that fails is not seen to: -1 is no small `size_t`. -/
theorem failed_ret {size : ℕ} (h : size < 2 ^ 32) : ¬ toSizeT (WriteResult.failed.ret size) < size := by
  have : toSizeT (WriteResult.failed.ret size) = 2 ^ 64 - 1 := rfl
  omega

theorem short_ret {size : ℕ} (n : ℕ) (hpos : 0 < size) (h : size < 2 ^ 32) :
    toSizeT ((WriteResult.short n).ret size) < size := by
  have hcount : (WriteResult.short n).count size < size := WriteResult.count_lt hpos (by simp)
  have : toSizeT ((WriteResult.short n).ret size) = (WriteResult.short n).count size := by
    show (((WriteResult.short n).count size : ℤ) % 2 ^ 64).toNat = _
    rw [Int.emod_eq_of_lt (by omega) (by omega), Int.toNat_natCast]
  omega

theorem appendAtomic_closed (ht : c.type.loggable = true) (ho : o.opens = false) :
    AppendAtomic d log o c := by
  refine ⟨d, log, errFilaccess, by simp [tpclogLogIo, ht, ho], ?_, fun _ => ⟨rfl, rfl⟩⟩
  simp [errFilaccess]

section Entry

variable (ht : c.type.loggable = true) (ho : o.opens = true)
  (hfree : d.lookup (.log log.nextid) = none) (he : c.entry = some e)

include ht ho hfree he

/-- 0 is returned, but the file is empty. -/
theorem not_appendAtomic_failed (hw : o.write = .failed) : ¬ AppendAtomic d log o c := by
  obtain ⟨hentry, hlt⟩ := LogCall.entry_some he
  rintro ⟨d', log', ret, hlog, hzero, -⟩
  rw [tpclogLogIo_free ht ho hfree, he, Option.map_some, hw, if_neg (failed_ret (LogEntry.size_lt hlt)),
    Option.some.injEq, Prod.mk.injEq, Prod.mk.injEq] at hlog
  obtain ⟨rfl, rfl, rfl⟩ := hlog
  obtain ⟨⟨e', f, hmake, hf, hbytes⟩, -⟩ := hzero.1 rfl
  obtain rfl : e = e' := Option.some.inj ((LogCall.entry_eq_some.1 he).1.symm.trans hmake)
  rw [Directory.lookup_set, if_pos rfl, Option.some.injEq] at hf
  have hlen := congrArg List.length (hf ▸ hbytes)
  rw [WriteResult.count, List.take_zero, List.length_nil, LogEntry.length_dump hentry.length] at hlen
  simp only [sizeofLogentry] at hlen
  omega

/-- An error is returned, but `nextid` is beyond the file. -/
theorem not_appendAtomic_short {n : ℕ} (hw : o.write = .short n) : ¬ AppendAtomic d log o c := by
  obtain ⟨-, hlt⟩ := LogCall.entry_some he
  have hpos : 0 < sizeofLogentry + e.length := Nat.add_pos_left (by decide) _
  have hshort := short_ret n hpos (LogEntry.size_lt hlt)
  rintro ⟨d', log', ret, hlog, -, hneg⟩
  rw [tpclogLogIo_free ht ho hfree, he, Option.map_some, hw, if_pos hshort,
    Option.some.injEq, Prod.mk.injEq, Prod.mk.injEq] at hlog
  obtain ⟨rfl, rfl, rfl⟩ := hlog
  exact absurd (hneg (by decide)).1 (Nat.succ_ne_self _)

theorem appendAtomic_full (hw : o.write = .full) : AppendAtomic d log o c := by
  obtain ⟨hentry, hlt⟩ := LogCall.entry_some he
  have hlog := tpclogLogIo_free ht ho hfree
  rw [he, Option.map_some, hw, if_neg (full_ret hlt)] at hlog
  refine ⟨_, _, _, hlog, ⟨fun _ => ⟨⟨e, _, (LogCall.entry_eq_some.1 he).1,
    by rw [Directory.lookup_set, if_pos rfl], ?_⟩, rfl⟩, fun _ => rfl⟩,
    fun h => absurd h (lt_irrefl _)⟩
  exact success_stored hentry.length

end Entry

theorem appendAtomic_open_iff (ht : c.type.loggable = true) (ho : o.opens = true)
    (hfree : d.lookup (.log log.nextid) = none) :
    AppendAtomic d log o c ↔ c.dataSize < 2 ^ 31 ∧ o.write = .full := by
  by_cases hfits : c.Fits
  · obtain ⟨e, he⟩ := c.entry_of_fits hfits
    have hfits' : c.dataSize < 2 ^ 31 := hfits
    rcases hw : o.write with _ | n | _
    · exact iff_of_false (not_appendAtomic_failed ht ho hfree he hw) (by simp)
    · exact iff_of_false (not_appendAtomic_short ht ho hfree he hw) (by simp)
    · exact ⟨fun _ => ⟨hfits', rfl⟩, fun _ => appendAtomic_full ht ho hfree he hw⟩
  · have hlog := tpclogLogIo_free ht ho hfree
    rw [c.entry_of_not_fits hfits, Option.map_none] at hlog
    simp only [AppendAtomic, hlog]
    refine iff_of_false ?_ fun h => hfits h.1
    rintro ⟨_, _, _, h, _⟩
    exact Option.some_ne_none _ h.symm

/-- Appending to a log whose files are those before `nextid` is atomic if and only if the file cannot
be opened, or else the entry's sizes fit and `write` stores all of it. -/
theorem tpclog_log_atomic_iff (hn : d.Dense .log log.nextid) (ht : c.type.loggable = true)
    (o : LogOutcome) :
    AppendAtomic d log o c ↔ o.opens = false ∨ c.dataSize < 2 ^ 31 ∧ o.write = .full := by
  rcases ho : o.opens with _ | _
  · simp [appendAtomic_closed ht ho]
  · simp [appendAtomic_open_iff ht ho (hn.lookup_none le_rfl)]

/-- The first entry of a log, written in part. -/
theorem tpclog_log_atomic_iff_short :
    AppendAtomic emptyDir ⟨0, 0⟩ ⟨true, .short 5⟩ (.put (.ofString "k") (.ofString "v"))
      ↔ (true = false ∨ (LogCall.put (.ofString "k") (.ofString "v")).dataSize < 2 ^ 31 ∧
        WriteResult.short 5 = .full) :=
  tpclog_log_atomic_iff (LogHolds.init ⟨0, 0⟩ fun _ => rfl).dense rfl ⟨true, .short 5⟩

/-- A `write` that fails is answered with 0. -/
theorem failedWrite_not_atomic :
    ¬ ∀ (d : Dir) (log : TpcLog) (o : LogOutcome) (c : LogCall), d.Dense .log log.nextid →
      c.type.loggable = true → AppendAtomic d log o c := by
  intro hall
  have hatomic := hall emptyDir ⟨0, 0⟩ ⟨true, .failed⟩ (.del (.ofString "k"))
    (LogHolds.init ⟨0, 0⟩ fun _ => rfl).dense rfl
  exact absurd ((appendAtomic_open_iff rfl rfl rfl).1 hatomic).2 (by simp)

/-! ## A clear that is cut short -/

/-- After a crash that left the directory `crashed`: the log's files are those before `nextid`, and an
iteration yields no file that the crash left after one that is newer. -/
structure CrashSafe (crashed d : Dir) (log : TpcLog) : Prop where
  files : d.Dense .log log.nextid
  ordered : ∀ i j, i < j → j < (tpclogIterate d log).length →
    crashed.stat (.log i) = false → crashed.stat (.log j) = false

theorem dense_log_step {s : Dir × TpcLog} (h : d.Dense .log log.nextid)
    (hs : LogOp.step (d, log) (.log c) = some s) : s.1.Dense .log s.2.nextid := by
  by_cases ht : c.type.loggable = true
  · simp only [LogOp.step, tpclogLogIo_success ht (h.lookup_none le_rfl), Option.map_map,
      Option.map_eq_some_iff] at hs
    obtain ⟨e, -, rfl⟩ := hs
    exact h.append log_injective _
  · have hrefused : tpclogLogIo d log .success c = some (d, log, errInvldmsg) := by
      simp [tpclogLogIo, ht]
    simp only [LogOp.step, hrefused, Option.map_some, Option.some.injEq] at hs
    rwa [← hs]

theorem dense_log_run (calls : List LogCall) : ∀ {s s' : Dir × TpcLog}, s.1.Dense .log s.2.nextid →
    calls.foldlM (fun s c => LogOp.step s (.log c)) s = some s' → s'.1.Dense .log s'.2.nextid := by
  induction calls with
  | nil =>
    intro s s' h hrun
    rw [List.foldlM_nil, Option.pure_def, Option.some.injEq] at hrun
    rwa [← hrun]
  | cons c calls ih =>
    intro s s' h hrun
    rw [List.foldlM_cons, Option.bind_eq_bind, Option.bind_eq_some_iff] at hrun
    obtain ⟨s₁, hs₁, hrun⟩ := hrun
    exact ih (dense_log_step h hs₁) hrun

/-- If a clear of `n` files crashes after `k` removals, the log that is opened again is sound through
any appends if and only if no file was removed or none is left. -/
theorem clear_crash_iff {n k : ℕ} (hn : d.Dense .log n) (hk : k ≤ n) :
    (∀ mem (calls : List LogCall) s,
        calls.foldlM (fun s c => LogOp.step s (.log c))
          ((clearLoop d k 0).1, tpclogInit (clearLoop d k 0).1 mem) = some s →
        CrashSafe (clearLoop d k 0).1 s.1 s.2)
      ↔ k = 0 ∨ k = n := by
  obtain ⟨-, hlookup⟩ := clearLoop_dense hn k
  rw [min_eq_right hk] at hlookup
  set crashed := (clearLoop d k 0).1
  have hstat : ∀ i, crashed.stat (.log i) = true ↔ k ≤ i ∧ i < n := by
    intro i
    rw [← hn i]
    simp only [Directory.stat, hlookup]
    split_ifs with hi
    · simp [Nat.not_le.2 hi]
    · simp [not_lt.1 hi]
  constructor
  · intro hall
    have hfiles := (hall ⟨0, 0⟩ [] _ rfl).files
    by_contra! hmid
    have hlast := (hfiles (n - 1)).1 ((hstat _).2 ⟨by omega, by omega⟩)
    have hzero := (hstat 0).1 ((hfiles 0).2 (by omega))
    omega
  · intro hends
    obtain ⟨m, hm⟩ : ∃ m, crashed.Dense .log m := by
      rcases hends with rfl | rfl
      · exact ⟨n, fun i => by rw [hstat]; omega⟩
      · exact ⟨0, fun i => by rw [hstat]; omega⟩
    intro mem calls s hrun
    have hnextid : (tpclogInit crashed mem).nextid = m :=
      hm.firstFree log_injective (Nat.zero_le _)
    refine ⟨dense_log_run calls (hnextid ▸ hm) hrun, fun i j hij _ hi => ?_⟩
    rw [← Bool.not_eq_true, hm] at hi ⊢
    omega

/-- A log of two entries. -/
def twoEntries : Dir :=
  (emptyDir.set (.log 0) ⟨leBytes 4 5 ++ leBytes 4 0, false⟩).set (.log 1)
    ⟨leBytes 4 6 ++ leBytes 4 0, false⟩

theorem twoEntries_dense : twoEntries.Dense .log 2 :=
  ((LogHolds.init ⟨0, 0⟩ fun _ => rfl).dense.append log_injective _).append log_injective _

theorem clear_crash_iff_twoEntries :
    (∀ mem (calls : List LogCall) s,
        calls.foldlM (fun s c => LogOp.step s (.log c))
          ((clearLoop twoEntries 2 0).1, tpclogInit (clearLoop twoEntries 2 0).1 mem) = some s →
        CrashSafe (clearLoop twoEntries 2 0).1 s.1 s.2)
      ↔ 2 = 0 ∨ 2 = 2 :=
  clear_crash_iff twoEntries_dense le_rfl

/-- Between the two removals there is a `1.log` and no `0.log`. -/
theorem twoEntries_not_safe :
    ¬ ∀ (d : Dir) (n k : ℕ), d.Dense .log n → 0 < k → k < n →
      ∀ mem (calls : List LogCall) s,
        calls.foldlM (fun s c => LogOp.step s (.log c))
          ((clearLoop d k 0).1, tpclogInit (clearLoop d k 0).1 mem) = some s →
        CrashSafe (clearLoop d k 0).1 s.1 s.2 := by
  intro hall
  have hfiles := (hall twoEntries 2 1 twoEntries_dense (by decide) (by decide) ⟨0, 0⟩ [] _ rfl).files
  have hlookup := (clearLoop_dense twoEntries_dense 1).2
  have hone := (hfiles 1).1 (by simp [Directory.stat, hlookup]; rfl)
  have hzero := (hfiles 0).2 (by omega)
  simp [Directory.stat, hlookup] at hzero

end Cs162
