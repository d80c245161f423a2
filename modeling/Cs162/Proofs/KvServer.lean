import Cs162.Proofs.TpcLog
import Cs162.Proofs.KvStoreRefines

/-!
# What a follower does with a request

`handleTpc_cases` says everything `kvserver_handle_tpc` can do: log the request, and then set the
pending slot, refuse, apply the slot, clear it, or answer from the store. The store and the log
share a directory but no file, so logging leaves the store alone (`SameStore`) and applying an
update leaves the log alone (`SameLog`).
-/

namespace Cs162

open CLib

/-- Two directories agree on the log's files. -/
def SameLog (d d' : Dir) : Prop := ∀ i, d'.lookup (.log i) = d.lookup (.log i)

/-- Two directories agree on the store. -/
def SameStore (d d' : Dir) : Prop :=
  d'.present = d.present ∧ ∀ h i, d'.lookup (.entry h i) = d.lookup (.entry h i)

variable {d d' : Dir}

theorem SameLog.refl (d : Dir) : SameLog d d := fun _ => rfl

theorem SameStore.refl (d : Dir) : SameStore d d := ⟨rfl, fun _ _ => rfl⟩

theorem SameStore.trans {d'' : Dir} (h : SameStore d d') (h' : SameStore d' d'') :
    SameStore d d'' := ⟨h'.1.trans h.1, fun a i => (h'.2 a i).trans (h.2 a i)⟩

variable {strhash64 : CStr → UInt64}

theorem SameStore.wellFormed (h : SameStore d d') (hw : WellFormed strhash64 d) :
    WellFormed strhash64 d' := hw.congr h.1 h.2

theorem SameStore.binding (h : SameStore d d') (hw : WellFormed strhash64 d) :
    binding strhash64 d' = binding strhash64 d := binding_congr hw h.1 h.2

/-! ## Logging -/

/-- Logging touches no entry of the store. -/
theorem tpclogLog_store {log log' : TpcLog} {type : MsgType} {key value : Option CStr} {ret : ℤ}
    (h : tpclogLog d log type key value = some (d', log', ret)) : SameStore d d' := by
  unfold tpclogLog at h
  split_ifs at h
  · simp only [Option.some.injEq, Prod.mk.injEq] at h
    rw [← h.1]
    exact SameStore.refl d
  · split at h
    · simp only [Option.some.injEq, Prod.mk.injEq] at h
      rw [← h.1]
      exact SameStore.refl d
    · rename_i d₁ hopen
      simp only [Option.pure_def, Option.bind_eq_bind, Option.bind_eq_some_iff, Option.some.injEq,
        Prod.mk.injEq] at h
      obtain ⟨entry, -, rfl, -⟩ := h
      refine ⟨by rw [Directory.present_writeStart, Directory.openCreate_present hopen],
        fun a i => ?_⟩
      rw [Directory.writeStart_frame _ _ (by simp), Directory.openCreate_frame hopen (by simp)]

theorem logRequest_store {s : KvServer} {req : KvRequest} (h : s.logRequest req = some d) :
    SameStore s.dir d := by
  unfold KvServer.logRequest at h
  split_ifs at h
  · simp only [Option.some.injEq] at h
    rw [← h]
    exact SameStore.refl _
  · simp only [Option.map_eq_some_iff, Prod.exists] at h
    obtain ⟨d₁, log', ret, hlog, rfl⟩ := h
    exact tpclogLog_store hlog

/-- A request whose strings are there is logged without reading through `NULL`. -/
theorem logRequest_isSome (s : KvServer) (req : KvRequest)
    (hkey : req.type = .putreq ∨ req.type = .delreq → req.key.isSome)
    (hval : req.type = .putreq → req.val.isSome) : ∃ d, s.logRequest req = some d := by
  obtain ⟨entry, he⟩ : ∃ e, LogEntry.make req.type req.key req.val = some e := by
    rcases req with ⟨type, _ | k, _ | v⟩ <;> cases type <;> simp_all [LogEntry.make]
  unfold KvServer.logRequest tpclogLog
  split_ifs
  · exact ⟨_, rfl⟩
  · exact ⟨_, rfl⟩
  · split
    · exact ⟨_, rfl⟩
    · simp [he]

/-! ## The store's side -/

theorem kvserverPut_eq (k v : CStr) : kvserverPut strhash64 d (some k) (some v)
    = some (if maxKeylen < k.strlen ∨ k.strlen = 0 then (d, errKeylen)
      else if maxVallen < v.strlen then (d, errVallen) else kvstorePut strhash64 d k v) := by
  simp only [kvserverPut, kvserverPutCheck, Option.pure_def, Option.bind_eq_bind,
    Option.bind_some]
  split_ifs with h1 h2 <;> simp only [Option.bind_some]
  · rfl
  · rfl
  · split_ifs with h3
    · rw [kvstorePut_err h3]
    · rfl

theorem kvserverDel_eq (k : CStr) : kvserverDel strhash64 d (some k)
    = some (if maxKeylen < k.strlen ∨ k.strlen = 0 then (d, errKeylen)
      else if kvstoreDelCheck strhash64 d k < 0 then (d, kvstoreDelCheck strhash64 d k)
      else kvstoreDel strhash64 d k) := by
  simp only [kvserverDel, kvserverDelCheck, Option.pure_def, Option.bind_eq_bind,
    Option.bind_some]
  split_ifs with h1 h2
  · simp [errKeylen]
  all_goals simp_all

theorem kvstorePut_log (k v : CStr) : SameLog d (kvstorePut strhash64 d k v).1 := by
  intro i
  simp only [kvstorePut, kvstorePutLocked]
  split_ifs
  · rfl
  all_goals
    split
    · rfl
    · rename_i d' h
      exact Directory.overwrite_frame h (by simp)

theorem kvstoreDel_log (k : CStr) : SameLog d (kvstoreDel strhash64 d k).1 := by
  intro i
  simp only [kvstoreDel, kvstoreDelLocked]
  split_ifs
  · rfl
  all_goals
    split
    · rfl
    · rename_i d' h
      first
        | exact Directory.remove_frame h (by simp)
        | exact Directory.rename_frame h (by simp) (by simp)

theorem kvserverPut_log {key value : Option CStr} {r : Dir × ℤ}
    (h : kvserverPut strhash64 d key value = some r) : SameLog d r.1 := by
  rcases key with _ | k
  · simp [kvserverPut, kvserverPutCheck] at h
  rcases value with _ | v
  · simp only [kvserverPut, kvserverPutCheck, Option.pure_def, Option.bind_eq_bind,
      Option.bind_some, Option.bind_none] at h
    split_ifs at h
    · simp only [Option.bind_some, errKeylen] at h
      rw [if_pos (by decide), Option.some.injEq] at h
      rw [← h]
      exact SameLog.refl d
    · simp at h
  · rw [kvserverPut_eq, Option.some.injEq] at h
    rw [← h]
    split_ifs
    · exact SameLog.refl d
    · exact SameLog.refl d
    · exact kvstorePut_log k v

theorem kvserverDel_log {key : Option CStr} {r : Dir × ℤ}
    (h : kvserverDel strhash64 d key = some r) : SameLog d r.1 := by
  rcases key with _ | k
  · simp [kvserverDel, kvserverDelCheck] at h
  rw [kvserverDel_eq, Option.some.injEq] at h
  rw [← h]
  split_ifs
  · exact SameLog.refl d
  · exact SameLog.refl d
  · exact kvstoreDel_log k

theorem applyPending_log {p p' : Pending} (h : applyPending strhash64 d p = some (d', p')) :
    SameLog d d' := by
  unfold applyPending at h
  split at h
  · simp only [Option.pure_def, Option.bind_eq_bind, Option.bind_eq_some_iff, Option.some.injEq,
      Prod.mk.injEq] at h
    obtain ⟨r, hr, rfl, -⟩ := h
    exact kvserverPut_log hr
  · simp only [Option.pure_def, Option.bind_eq_bind, Option.bind_eq_some_iff, Option.some.injEq,
      Prod.mk.injEq] at h
    obtain ⟨r, hr, rfl, -⟩ := h
    exact kvserverDel_log hr
  · simp only [Option.some.injEq, Prod.mk.injEq] at h
    rw [← h.1]
    exact SameLog.refl d

/-! ## Handling a request -/

/-- Everything handling a request can do, with the directory `d` it has once the request is
logged. -/
inductive Handles (strhash64 : CStr → UInt64) (s : KvServer) (d : Dir) :
    KvRequest → KvServer → KvResponse → Prop
  | put (k v : CStr) : Handles strhash64 s d ⟨.putreq, some k, some v⟩
      ⟨d, s.log, .putreq, .alloc k, .alloc v⟩ ⟨.vote, some msgCommit⟩
  | del (k : CStr) (val : Option CStr) (hok : kvserverDelCheck strhash64 d (some k) = some 0) :
      Handles strhash64 s d ⟨.delreq, some k, val⟩
        ⟨d, s.log, .delreq, .alloc k, .null⟩ ⟨.vote, some msgCommit⟩
  | refuse (k : CStr) (val : Option CStr) (hno : kvserverDelCheck strhash64 d (some k) ≠ some 0) :
      Handles strhash64 s d ⟨.delreq, some k, val⟩
        ⟨d, s.log, s.pending⟩ ⟨.error, some errmsgInvalidRequest⟩
  | commit (key val : Option CStr) (d' : Dir) (p' : Pending)
      (happly : applyPending strhash64 d s.pending = some (d', p')) :
      Handles strhash64 s d ⟨.commit, key, val⟩ ⟨d', s.log, p'⟩ ⟨.ack, none⟩
  | abort (key val : Option CStr) :
      Handles strhash64 s d ⟨.abort, key, val⟩ ⟨d, s.log, .none⟩ ⟨.ack, none⟩
  | get (k : CStr) (val : Option CStr) :
      Handles strhash64 s d ⟨.getreq, some k, val⟩ ⟨d, s.log, s.pending⟩
        (if (kvserverGet strhash64 d k).1 = 0 then ⟨.getresp, (kvserverGet strhash64 d k).2⟩
          else ⟨.error, some errmsgNoKey⟩)
  | other (type : MsgType) (key val : Option CStr) (htype : type.loggable = false)
      (hget : type ≠ .getreq) :
      Handles strhash64 s d ⟨type, key, val⟩ ⟨d, s.log, s.pending⟩
        ⟨.error, some errmsgEndOfHandleTpc⟩

theorem Handles.of_putreq {s s' : KvServer} {req : KvRequest} {res : KvResponse}
    (h : Handles strhash64 s d req s' res) (ht : req.type = .putreq) :
    ∃ k v, req.key = some k ∧ req.val = some v ∧
      s' = ⟨d, s.log, .putreq, .alloc k, .alloc v⟩ := by
  cases h with
  | put k v => exact ⟨k, v, rfl, rfl, rfl⟩
  | other type key val htype => subst ht; cases htype
  | _ => cases ht

theorem Handles.of_abort {s s' : KvServer} {req : KvRequest} {res : KvResponse}
    (h : Handles strhash64 s d req s' res) (ht : req.type = .abort) : s' = ⟨d, s.log, .none⟩ := by
  cases h with
  | abort => rfl
  | other type key val htype => subst ht; cases htype
  | _ => cases ht

theorem handleTpc_cases {s s' : KvServer} {req : KvRequest} {res : KvResponse}
    (h : kvserverHandleTpc strhash64 s req = some (s', res)) :
    ∃ d, s.logRequest req = some d ∧ Handles strhash64 s d req s' res := by
  obtain ⟨type, key, val⟩ := req
  simp only [kvserverHandleTpc, Option.pure_def, Option.bind_eq_bind,
    Option.bind_eq_some_iff] at h
  obtain ⟨d, hd, h⟩ := h
  refine ⟨d, hd, ?_⟩
  split at h
  · simp only [Option.bind_eq_some_iff, Option.some.injEq, Prod.mk.injEq] at h
    obtain ⟨-, -, k, rfl, v, rfl, rfl, rfl⟩ := h
    exact .put k v
  · simp only [Option.bind_eq_some_iff] at h
    obtain ⟨r, hr, k, rfl, h⟩ := h
    split_ifs at h with h0 <;> simp only [Option.some.injEq, Prod.mk.injEq] at h <;>
      obtain ⟨rfl, rfl⟩ := h
    · exact .del k val (by rw [hr, h0])
    · exact .refuse k val (by rw [hr]; simpa using h0)
  · simp only [Option.bind_eq_some_iff, Option.some.injEq, Prod.mk.injEq] at h
    obtain ⟨⟨d', p'⟩, hp, rfl, rfl⟩ := h
    exact .commit key val d' p' hp
  · simp only [Option.some.injEq, Prod.mk.injEq] at h
    obtain ⟨rfl, rfl⟩ := h
    exact .abort key val
  · simp only [Option.bind_eq_some_iff] at h
    obtain ⟨k, rfl, h⟩ := h
    have hget : Handles strhash64 s d ⟨.getreq, some k, val⟩ ⟨d, s.log, s.pending⟩ _ := .get k val
    split_ifs at h hget with h0 <;> simp only [Option.some.injEq, Prod.mk.injEq] at h <;>
      obtain ⟨rfl, rfl⟩ := h <;> exact hget
  · simp only [Option.some.injEq, Prod.mk.injEq] at h
    obtain ⟨rfl, rfl⟩ := h
    refine .other type key val ?_ ?_
    · cases type <;> simp_all [MsgType.loggable]
    · rintro rfl
      simp_all

/-- A process whose memory is all zero: `pending_msg` is `INDEX`, the first of the types. -/
def zeroMem : KvServer := ⟨emptyDir, ⟨0, 0⟩, ⟨.index, .null, .null⟩⟩

end Cs162
