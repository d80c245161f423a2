import Cs162.Proofs.KvServer

/-!
# Recovery from a log

The comment on `kvserver_rebuild_state` promises the exact state from before the crash, and that a
logged `COMMIT` is finished. The function looks at the log's last entry alone, on a pending slot
nobody has set. After a `PUTREQ` or an `ABORT` that entry is all there is to know. After a `COMMIT`
the update it is about is in an earlier entry, after a `DELREQ` the key is copied through a pointer
that was never set, and a follower whose log is empty keeps the slot memory happens to hold.
-/

namespace Cs162

open CLib

variable {strhash64 : CStr → UInt64}

theorem handleAll_append {s s' : KvServer} (reqs : List KvRequest) (req : KvRequest)
    (h : handleAll strhash64 s (reqs ++ [req]) = some s') :
    ∃ s₁ res, handleAll strhash64 s reqs = some s₁ ∧
      kvserverHandleTpc strhash64 s₁ req = some (s', res) := by
  induction reqs generalizing s with
  | nil =>
    simp only [List.nil_append, handleAll, Option.bind_eq_bind, Option.bind_eq_some_iff] at h
    obtain ⟨⟨s₁, res⟩, hh, hrun⟩ := h
    cases hrun
    exact ⟨s, res, rfl, hh⟩
  | cons r reqs ih =>
    simp only [List.cons_append, handleAll, Option.bind_eq_bind, Option.bind_eq_some_iff] at h
    obtain ⟨⟨s₁, res⟩, hh, hrun⟩ := h
    obtain ⟨s₂, res', hall, hlast⟩ := ih hrun
    exact ⟨s₂, res', by simp [handleAll, hh, hall], hlast⟩

/-- The directory's log files are the entries of these requests. -/
structure OnDisk (d : Dir) (reqs : List KvRequest) : Prop where
  dense : d.Dense .log reqs.length
  entry : ∀ i req, reqs[i]? = some req → ∃ e w,
    LogEntry.make req.type req.key req.val = some e ∧ d.lookup (.log i) = some ⟨e.dump, w⟩

theorem onDisk_nil {d : Dir} (h : ∀ i, d.lookup (.log i) = none) : OnDisk d [] where
  dense i := by simp [Directory.stat, h i]
  entry i req hi := by simp at hi

theorem OnDisk.append {d : Dir} {reqs : List KvRequest} {e : LogEntry} (h : OnDisk d reqs)
    (req : KvRequest) (w : Bool) (he : LogEntry.make req.type req.key req.val = some e) :
    OnDisk (d.set (.log reqs.length) ⟨e.dump, w⟩) (reqs ++ [req]) where
  dense := by
    rw [List.length_append, List.length_singleton]
    exact h.dense.append log_injective _
  entry i r hr := by
    rcases Nat.lt_or_ge i reqs.length with hi | hi
    · rw [List.getElem?_append_left hi] at hr
      obtain ⟨e', w', he', hf⟩ := h.entry i r hr
      exact ⟨e', w', he', by rw [Directory.lookup_set, if_neg (by simpa using hi.ne), hf]⟩
    · obtain ⟨hi', rfl⟩ : i = reqs.length ∧ r = req := by
        rw [List.getElem?_append_right hi, List.getElem?_singleton] at hr
        split_ifs at hr with h0
        exact ⟨by omega, (Option.some.inj hr).symm⟩
      exact ⟨e, w, he, by rw [hi', Directory.lookup_set, if_pos rfl]⟩

/-- The store a crash leaves: the one after the requests, or the one before the last of them if
that is a `COMMIT`. -/
def CrashStore (strhash64 : CStr → UInt64) (s s' : KvServer) (reqs : List KvRequest) (d : Dir) :
    Prop :=
  SameStore s'.dir d ∨ ∃ reqs₀ req s₁, reqs = reqs₀ ++ [req] ∧ req.type = .commit ∧
    handleAll strhash64 s reqs₀ = some s₁ ∧ SameStore s₁.dir d

/-- A process started on the directory, in the memory `mem`, reaches the store and the pending slot
of `s'`. -/
def Recovers (strhash64 : CStr → UInt64) (s' : KvServer) (d : Dir) (mem : KvServer) : Prop :=
  ∃ r, kvserverInit strhash64 mem d = some r ∧ SameStore s'.dir r.dir ∧
    r.pending.Same s'.pending

/-! ## The last entry -/

theorem OnDisk.getLast {d : Dir} {reqs : List KvRequest} {req : KvRequest}
    (h : OnDisk d (reqs ++ [req])) (ht : req.type.loggable = true) (hfits : req.Fits)
    (log : TpcLog) : ∃ e, (tpclogIterate d log).getLast? = some (some e) ∧
      Records (some e) req := by
  obtain ⟨e, w, he, hf⟩ := h.entry reqs.length req (by simp)
  refine ⟨e, ?_, LogEntry.make_records he⟩
  rw [tpclogIterate_dense h.dense, List.length_append, List.length_singleton, List.range_succ,
    List.map_append, List.getLast?_append]
  simp [hf, load_make hfits ht he]

variable (strhash64) in
/-- `kvserver_init` on a directory that exists, given the last entry of its log. -/
theorem kvserverInit_last {d : Dir} {reqs : List KvRequest} {req : KvRequest}
    (h : OnDisk d (reqs ++ [req])) (ht : req.type.loggable = true) (hfits : req.Fits)
    (hp : d.present = true) (mem : KvServer) :
    ∃ e s, Records (some e) req ∧ s.dir = d ∧ s.pending = mem.pending ∧
      (tpclogIterate s.dir s.log).getLast? = some (some e) ∧
      kvserverInit strhash64 mem d = kvserverRebuildState strhash64 s := by
  obtain ⟨e, he, hrec⟩ := h.getLast ht hfits (tpclogInit d mem.log)
  exact ⟨e, { mem with dir := d, log := tpclogInit d mem.log }, hrec, rfl, rfl, he, by
    simp only [kvserverInit, kvstoreInit, hp, if_true]⟩

/-- Recovery through an update that points nowhere. -/
def wildMem (d : Dir) : KvServer := ⟨d, ⟨0, 0⟩, ⟨.putreq, .wild, .wild⟩⟩

theorem wild_not_recovers {s' : KvServer} {d : Dir} {reqs : List KvRequest}
    (hp : d.present = true) (hdisk : OnDisk d reqs)
    (hlog : ∀ req ∈ reqs, req.type.loggable = true ∧ req.Fits)
    (hrec : Recovers strhash64 s' d (wildMem d)) :
    ∃ req ∈ reqs.getLast?, req.type = .putreq ∨ req.type = .abort := by
  obtain ⟨r, hr, -, hpend⟩ := hrec
  rcases reqs.eq_nil_or_concat' with rfl | ⟨reqs₀, req, rfl⟩
  · -- the garbage in the slot is kept
    simp only [kvserverInit, kvstoreInit, hp, if_true, kvserverRebuildState,
      tpclogIterate_dense hdisk.dense, List.length_nil, List.range_zero, List.map_nil,
      List.getLast?_nil, Option.some.injEq] at hr
    rw [← hr] at hpend
    exact absurd hpend.2.1 (by simp [wildMem, CharPtr.Same])
  · obtain ⟨ht, hfits⟩ := hlog req (by simp)
    obtain ⟨e, s, ⟨_, he, htype, -⟩, hsd, hsp, hlast, hinit⟩ :=
      kvserverInit_last strhash64 hdisk ht hfits hp (wildMem d)
    cases he
    refine ⟨req, by simp, ?_⟩
    rw [hinit] at hr
    simp only [kvserverRebuildState, hlast, Option.bind_eq_bind, Option.bind_some, htype, hsp] at hr
    cases hreq : req.type <;> simp [hreq, MsgType.loggable] at ht hr ⊢
    · simp [wildMem, CharPtr.strcpy] at hr
    · simp [wildMem, applyPending, kvserverPut, kvserverPutCheck, CharPtr.deref] at hr

theorem recovers_putreq_abort {s s' : KvServer} {d : Dir} {reqs : List KvRequest}
    (hp : d.present = true) (hdisk : OnDisk d reqs)
    (hlog : ∀ req ∈ reqs, req.type.loggable = true ∧ req.Fits)
    (hrun : handleAll strhash64 s reqs = some s') (hcrash : CrashStore strhash64 s s' reqs d)
    (hcond : ∃ req ∈ reqs.getLast?, req.type = .putreq ∨ req.type = .abort) (mem : KvServer) :
    Recovers strhash64 s' d mem := by
  obtain ⟨req, hreq, htype⟩ := hcond
  obtain ⟨reqs₀, rfl⟩ := List.getLast?_eq_some_iff.1 hreq
  have hsame : SameStore s'.dir d := by
    rcases hcrash with h | ⟨reqs₁, req₁, s₁, heq, hc, -⟩
    · exact h
    · obtain ⟨-, hr⟩ := List.append_inj' heq rfl
      rw [List.cons.injEq] at hr
      rw [hr.1, hc] at htype
      rcases htype with h | h <;> cases h
  obtain ⟨s₁, res, -, hlast⟩ := handleAll_append _ _ hrun
  obtain ⟨d₁, -, hh⟩ := handleTpc_cases hlast
  obtain ⟨ht, hfits⟩ := hlog req (by simp)
  obtain ⟨e, s₂, ⟨_, he, hetype, hkey, hval⟩, hsd, -, hgl, hinit⟩ :=
    kvserverInit_last strhash64 hdisk ht hfits hp mem
  cases he
  unfold Recovers
  rw [hinit]
  simp only [kvserverRebuildState, hgl, Option.bind_eq_bind, Option.bind_some, hetype]
  rcases htype with h | h
  · obtain ⟨k, v, hk, hv, rfl⟩ := hh.of_putreq h
    simp only [h, true_or, forall_const, hk, hv, Option.some.injEq] at hkey hval ⊢
    exact ⟨_, rfl, by rw [hsd]; exact hsame, rfl, hkey.symm, hval.symm⟩
  · cases hh.of_abort h
    simp only [h]
    exact ⟨_, rfl, by rw [hsd]; exact hsame, rfl, trivial, trivial⟩

variable (strhash64)

/-- A fresh process recovers the store and the pending slot from the directory of a crashed
follower, whatever its memory holds, if and only if the last request logged is a `PUT` or an
`ABORT`. -/
theorem recovers_iff (store d : Dir) (log : TpcLog) (reqs : List KvRequest) (s' : KvServer)
    (hp : d.present = true) (hdisk : OnDisk d reqs)
    (hlog : ∀ req ∈ reqs, req.type.loggable = true ∧ req.Fits)
    (hrun : handleAll strhash64 ⟨store, log, .none⟩ reqs = some s')
    (hcrash : CrashStore strhash64 ⟨store, log, .none⟩ s' reqs d) :
    (∀ mem, Recovers strhash64 s' d mem)
      ↔ ∃ req ∈ reqs.getLast?, req.type = .putreq ∨ req.type = .abort :=
  ⟨fun h => wild_not_recovers hp hdisk hlog (h _),
    fun h => recovers_putreq_abort hp hdisk hlog hrun hcrash h⟩

/-- A follower logs a `PUT` and its `COMMIT`, and crashes before it has applied the update. -/
def putCommit : List KvRequest :=
  [⟨.putreq, some (.ofString "k"), some (.ofString "a")⟩, ⟨.commit, none, none⟩]

def putCommitDir : Dir :=
  let putEntry : LogEntry := ⟨.putreq, 4, CStr.layout (.ofString "k") ++ CStr.layout (.ofString "a")⟩
  (emptyDir.set (.log 0) ⟨putEntry.dump, false⟩).set (.log 1)
    ⟨LogEntry.dump ⟨.commit, 0, []⟩, false⟩

theorem onDisk_putCommit : OnDisk putCommitDir putCommit :=
  ((onDisk_nil (d := emptyDir) fun _ => rfl).append putCommit[0] false rfl).append
    putCommit[1] false rfl

theorem putCommit_run : ∃ s', handleAll (fun _ => 0) ⟨emptyDir, ⟨0, 0⟩, .none⟩ putCommit = some s' ∧
    CrashStore (fun _ => 0) ⟨emptyDir, ⟨0, 0⟩, .none⟩ s' putCommit putCommitDir ∧
    s'.dir.stat (.entry 0 0) = true := by
  refine ⟨_, rfl, .inr ⟨[putCommit[0]], putCommit[1], _, rfl, rfl, rfl, rfl, fun h i => ?_⟩, rfl⟩
  simp [putCommitDir, Directory.lookup_set]
  rfl

theorem recovers_iff_putCommit : ∃ s', handleAll (fun _ => 0) ⟨emptyDir, ⟨0, 0⟩, .none⟩ putCommit
      = some s' ∧
    ((∀ mem, Recovers (fun _ => 0) s' putCommitDir mem)
      ↔ ∃ req ∈ putCommit.getLast?, req.type = .putreq ∨ req.type = .abort) := by
  obtain ⟨s', hrun, hcrash, -⟩ := putCommit_run
  exact ⟨s', hrun, recovers_iff _ _ _ _ _ s' rfl onDisk_putCommit (by decide) hrun hcrash⟩

/-- Recovery in zeroed memory then loses the update. -/
theorem putCommit_not_recovers :
    ¬ ∀ (strhash64 : CStr → UInt64) (store d : Dir) (log : TpcLog) (reqs : List KvRequest)
      (s' : KvServer), d.present = true → OnDisk d reqs →
      (∀ req ∈ reqs, req.type.loggable = true ∧ req.Fits) →
      handleAll strhash64 ⟨store, log, .none⟩ reqs = some s' →
      CrashStore strhash64 ⟨store, log, .none⟩ s' reqs d →
      ∀ mem, Recovers strhash64 s' d mem := by
  intro hall
  obtain ⟨s', hrun, hcrash, hstored⟩ := putCommit_run
  obtain ⟨r, hr, hsame, -⟩ := hall _ _ _ _ _ s' rfl onDisk_putCommit (by decide) hrun hcrash
    ⟨emptyDir, ⟨0, 0⟩, ⟨.index, .null, .null⟩⟩
  have hlost : ∀ r, kvserverInit (fun _ => 0) ⟨emptyDir, ⟨0, 0⟩, ⟨.index, .null, .null⟩⟩ putCommitDir
      = some r → r.dir.stat (.entry 0 0) = false := by
    intro r hr
    cases hr
    rfl
  have hkept : r.dir.stat (.entry 0 0) = true := by
    rw [Directory.stat, hsame.2 0 0]
    exact hstored
  rw [hlost r hr] at hkept
  cases hkept

end Cs162
