import Cs162.Proofs.KvServer

/-!
# How much a running follower logs

`tpclog.h` says the log holds each incoming action in order of receipt. `kvserver_handle_tpc` has
`tpclog_log` advance the `nextid` of a copy of the log, so every request is logged under the id
the follower started with; the file has mode `S_IRUSR`, so opening it for a second entry fails.
A follower started without log files has its first request in the log, and no other
(`LogsFirst`).
-/

namespace Cs162

open CLib

variable {strhash64 : CStr → UInt64}

/-! ## Frames of the handler -/

/-- Handling a request leaves the log object alone, and the log's files as logging leaves them. -/
theorem handleTpc_log {s s' : KvServer} {req : KvRequest} {res : KvResponse}
    (h : kvserverHandleTpc strhash64 s req = some (s', res)) :
    s'.log = s.log ∧ ∃ d, s.logRequest req = some d ∧ SameLog d s'.dir := by
  obtain ⟨d, hd, hh⟩ := handleTpc_cases h
  refine ⟨by cases hh <;> rfl, d, hd, ?_⟩
  cases hh with
  | commit key val d' p' happly => exact applyPending_log happly
  | _ => exact SameLog.refl d

theorem SameLog.dense {d d' : Dir} (h : SameLog d d') {n : ℕ} (hn : d.Dense .log n) :
    d'.Dense .log n := hn.congr h

/-- Logging under an id nobody used creates the entry's file. -/
theorem tpclogLog_fresh {d : Dir} {log : TpcLog} {type : MsgType} {key value : Option CStr}
    {e : LogEntry} (ht : type.loggable = true) (hfree : d.lookup (.log log.nextid) = none)
    (he : LogEntry.make type key value = some e) :
    tpclogLog d log type key value
      = some (d.set (.log log.nextid) ⟨e.dump, false⟩, { log with nextid := log.nextid + 1 }, 0) := by
  simp [tpclogLog, ht, Directory.openCreate, hfree, he, Directory.writeStart_created]

/-- Logging under an id whose file may not be written stores nothing. -/
theorem tpclogLog_readonly {d : Dir} {log : TpcLog} {f : File}
    (hf : d.lookup (.log log.nextid) = some f) (hw : f.writable = false) (type : MsgType)
    (key value : Option CStr) : ∃ ret < 0, tpclogLog d log type key value = some (d, log, ret) := by
  unfold tpclogLog Directory.openCreate
  split_ifs
  · exact ⟨_, by decide, rfl⟩
  · exact ⟨errFilaccess, by decide, by simp [hf, hw]⟩

/-! ## The invariant -/

/-- The requests a log is to hold. -/
def nonGets (reqs : List KvRequest) : List KvRequest := reqs.filter (·.type ≠ .getreq)

/-- The follower's log after handling requests of which `logged` are not `GET`s: the first of
them is in `0.log`, read-only, and there is no other file. -/
structure LogsFirst (s : KvServer) (logged : List KvRequest) : Prop where
  nextid : s.log.nextid = 0
  dense : s.dir.Dense .log (min 1 logged.length)
  first : ∀ req ∈ logged.head?, ∃ e, LogEntry.make req.type req.key req.val = some e ∧
    s.dir.lookup (.log 0) = some ⟨e.dump, false⟩

theorem LogsFirst.congr {s s' : KvServer} {logged : List KvRequest} (h : LogsFirst s logged)
    (hlog : s'.log = s.log) (hsame : SameLog s.dir s'.dir) : LogsFirst s' logged where
  nextid := by rw [hlog, h.nextid]
  dense := hsame.dense h.dense
  first req hreq := by
    obtain ⟨e, he, hf⟩ := h.first req hreq
    exact ⟨e, he, by rw [hsame 0, hf]⟩

/-- The first request logged is stored, a later one is not. -/
theorem LogsFirst.logRequest {s : KvServer} {logged : List KvRequest} (h : LogsFirst s logged)
    {req : KvRequest} {d : Dir} (ht : req.type.loggable = true) (hd : s.logRequest req = some d) :
    LogsFirst { s with dir := d } (logged ++ [req]) := by
  have hget : req.type ≠ .getreq := fun hg => by rw [hg] at ht; cases ht
  simp only [KvServer.logRequest, if_neg hget, Option.map_eq_some_iff] at hd
  obtain ⟨r, hr, rfl⟩ := hd
  rcases logged with _ | ⟨req₀, logged⟩
  · have hfree : s.dir.lookup (.log s.log.nextid) = none := h.dense.lookup_none (Nat.zero_le _)
    obtain ⟨e, he⟩ : ∃ e, LogEntry.make req.type req.key req.val = some e := by
      by_contra hno
      push Not at hno
      rw [← Option.eq_none_iff_forall_ne_some] at hno
      simp [tpclogLog, ht, Directory.openCreate, hfree, hno] at hr
    rw [tpclogLog_fresh ht hfree he, Option.some.injEq] at hr
    rw [← hr, h.nextid]
    exact ⟨h.nextid, h.dense.append log_injective _, fun r hr => by
      simp only [List.nil_append, List.head?_cons, Option.mem_def, Option.some.injEq] at hr
      exact ⟨e, hr ▸ he, by rw [Directory.lookup_set, if_pos rfl]⟩⟩
  · obtain ⟨e, he, hf⟩ := h.first req₀ rfl
    obtain ⟨ret, -, hlog⟩ := tpclogLog_readonly (h.nextid ▸ hf) rfl req.type req.key req.val
    rw [hlog, Option.some.injEq] at hr
    rw [← hr]
    refine ⟨h.nextid, ?_, h.first⟩
    simpa using h.dense

theorem LogsFirst.handleTpc {s s' : KvServer} {logged : List KvRequest} (h : LogsFirst s logged)
    {req : KvRequest} {res : KvResponse} (ht : req.type = .getreq ∨ req.type.loggable = true)
    (hh : kvserverHandleTpc strhash64 s req = some (s', res)) :
    LogsFirst s' (logged ++ nonGets [req]) := by
  obtain ⟨hlog, d, hd, hsame⟩ := handleTpc_log hh
  rcases ht with hget | ht
  · simp only [KvServer.logRequest, if_pos hget, Option.some.injEq] at hd
    simpa [nonGets, hget] using h.congr hlog (hd ▸ hsame)
  · have hget : req.type ≠ .getreq := fun hg => by rw [hg] at ht; cases ht
    have h' : LogsFirst s' (logged ++ [req]) := (h.logRequest ht hd).congr hlog hsame
    simpa [nonGets, hget] using h'

theorem LogsFirst.handleAll (reqs : List KvRequest) : ∀ {s s' : KvServer} {logged : List KvRequest},
    LogsFirst s logged → (∀ req ∈ reqs, req.type = .getreq ∨ req.type.loggable = true) →
    handleAll strhash64 s reqs = some s' → LogsFirst s' (logged ++ nonGets reqs) := by
  induction reqs with
  | nil =>
    intro s s' logged h _ hrun
    cases hrun
    simpa [nonGets] using h
  | cons req reqs ih =>
    intro s s' logged h ht hrun
    simp only [Cs162.handleAll, Option.bind_eq_bind, Option.bind_eq_some_iff] at hrun
    obtain ⟨⟨s₁, res⟩, hh, hrun⟩ := hrun
    have h₁ := h.handleTpc (ht req List.mem_cons_self) hh
    have h' := ih h₁ (fun r hr => ht r (List.mem_cons_of_mem _ hr)) hrun
    rwa [List.append_assoc, nonGets, nonGets, ← List.filter_append] at h'

theorem LogsFirst.kvserverInit {mem s : KvServer} {d : Dir} (hlogs : ∀ i, d.lookup (.log i) = none)
    (hinit : kvserverInit strhash64 mem d = some s) : LogsFirst s [] := by
  have hnone : ∀ i, (kvstoreInit d).lookup (.log i) = none := by
    intro i
    unfold kvstoreInit
    split_ifs
    · exact hlogs i
    · exact Finmap.lookup_empty _
  have hdense : (kvstoreInit d).Dense .log 0 := by
    intro i
    simp [Directory.stat, hnone i]
  unfold Cs162.kvserverInit kvserverRebuildState at hinit
  simp only [tpclogIterate_dense hdense, List.range_zero, List.map_nil, List.getLast?_nil,
    Option.some.injEq] at hinit
  rw [← hinit]
  exact ⟨hdense.firstFree log_injective le_rfl, hdense, by simp⟩

theorem LogsFirst.iterate {s : KvServer} {logged : List KvRequest} (h : LogsFirst s logged)
    (ht : ∀ req ∈ logged, req.type.loggable = true) (hfits : ∀ req ∈ logged, req.Fits) :
    List.Forall₂ Records (tpclogIterate s.dir s.log) (logged.take 1) := by
  rw [tpclogIterate_dense h.dense]
  rcases logged with _ | ⟨req, logged⟩
  · exact .nil
  · obtain ⟨e, he, hf⟩ := h.first req rfl
    have hload := load_make (hfits req List.mem_cons_self) (ht req List.mem_cons_self) he
    have hmin : min 1 (req :: logged).length = 1 := by simp
    rw [hmin]
    simp only [List.range_one, List.map_cons, List.map_nil, hf, Option.bind_some, hload,
      List.take_succ_cons, List.take_zero]
    exact .cons (LogEntry.make_records he) .nil

variable (strhash64)

/-- Iterating the log of a follower started without log files yields the requests it handled that
are not `GET`s, one entry each, oldest first, if and only if there is at most one of them. -/
theorem handleAll_log_iff (mem : KvServer) (d : Dir) (reqs : List KvRequest) (s s' : KvServer)
    (hlogs : ∀ i, d.lookup (.log i) = none) (hinit : kvserverInit strhash64 mem d = some s)
    (ht : ∀ req ∈ reqs, req.type ∈ [.putreq, .delreq, .commit, .abort, .getreq])
    (hfits : ∀ req ∈ reqs, req.Fits) (hrun : handleAll strhash64 s reqs = some s') :
    List.Forall₂ Records (tpclogIterate s'.dir s'.log) (nonGets reqs)
      ↔ (nonGets reqs).length ≤ 1 := by
  have htypes : ∀ req ∈ reqs, req.type = .getreq ∨ req.type.loggable = true := by
    intro req hreq
    have := ht req hreq
    simp only [List.mem_cons, List.not_mem_nil, or_false] at this
    rcases this with h | h | h | h | h <;> simp [h, MsgType.loggable]
  have hfirst := (LogsFirst.kvserverInit hlogs hinit).handleAll reqs htypes hrun
  rw [List.nil_append] at hfirst
  have hiter := hfirst.iterate (fun req hreq => by
      obtain ⟨hmem, hget⟩ := List.mem_filter.1 hreq
      exact (htypes req hmem).resolve_left (by simpa using hget))
    fun req hreq => hfits req (List.mem_filter.1 hreq).1
  constructor
  · intro h
    have hlen := h.length_eq.symm.trans hiter.length_eq
    rw [List.length_take] at hlen
    omega
  · intro h
    rwa [List.take_of_length_le h] at hiter

/-- A follower handles two `PUT`s. -/
def twoPutReqs : List KvRequest :=
  [⟨.putreq, some (.ofString "k"), some (.ofString "a")⟩,
    ⟨.putreq, some (.ofString "k"), some (.ofString "b")⟩]

theorem handleAll_log_iff_twoPutReqs : ∃ s s', kvserverInit (fun _ => 0) zeroMem emptyDir = some s ∧
    handleAll (fun _ => 0) s twoPutReqs = some s' ∧
    (List.Forall₂ Records (tpclogIterate s'.dir s'.log) (nonGets twoPutReqs)
      ↔ (nonGets twoPutReqs).length ≤ 1) := by
  obtain ⟨s, hs⟩ : ∃ s, kvserverInit (fun _ => 0) zeroMem emptyDir = some s := ⟨_, rfl⟩
  obtain ⟨s', hs'⟩ : ∃ s', handleAll (fun _ => 0) s twoPutReqs = some s' := by
    cases hs
    exact ⟨_, rfl⟩
  exact ⟨s, s', hs, hs', handleAll_log_iff _ zeroMem emptyDir twoPutReqs s s' (fun _ => rfl) hs
    (by decide) (by decide) hs'⟩

/-- Only the first of them is in the log. -/
theorem twoPutReqs_not_logged :
    ¬ ∀ (strhash64 : CStr → UInt64) (mem : KvServer) (d : Dir) (reqs : List KvRequest)
      (s s' : KvServer), (∀ i, d.lookup (.log i) = none) →
      kvserverInit strhash64 mem d = some s →
      (∀ req ∈ reqs, req.type ∈ [.putreq, .delreq, .commit, .abort, .getreq]) →
      (∀ req ∈ reqs, req.Fits) → handleAll strhash64 s reqs = some s' →
      List.Forall₂ Records (tpclogIterate s'.dir s'.log) (nonGets reqs) := by
  intro hall
  obtain ⟨s, hs⟩ : ∃ s, kvserverInit (fun _ => 0) zeroMem emptyDir = some s := ⟨_, rfl⟩
  obtain ⟨s', hs', hlen⟩ : ∃ s', handleAll (fun _ => 0) s twoPutReqs = some s' ∧
      (tpclogIterate s'.dir s'.log).length = 1 := by
    cases hs
    exact ⟨_, rfl, by decide⟩
  have h := (hall _ zeroMem emptyDir twoPutReqs s s' (fun _ => rfl) hs (by decide) (by decide)
    hs').length_eq
  rw [hlen] at h
  exact absurd h (by decide)

end Cs162
