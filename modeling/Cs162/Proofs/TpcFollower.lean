import Cs162.TpcSystem
import Cs162.Proofs.KvServer

/-!
# Updates at a follower

What the messages of two-phase commit do to a follower whose store is well formed: the first
message of an update fills the slot or is refused, a `COMMIT` applies what the slot holds, and an
`ABORT` clears it. Only a `COMMIT` changes what the store binds.
-/

namespace Cs162

open CLib

/-- What a client asks the leader to do to the store. -/
inductive Update
  | put (key value : CStr)
  | del (key : CStr)
deriving DecidableEq

namespace Update

def key : Update → CStr
  | put k _ => k
  | del k => k

/-- What the key is bound to afterwards. -/
def value : Update → Option CStr
  | put _ v => some v
  | del _ => none

/-- The slot of a follower that has voted for the update. -/
def slot : Update → Pending
  | put k v => ⟨.putreq, .alloc k, .alloc v⟩
  | del k => ⟨.delreq, .alloc k, .null⟩

/-- The limits of `kvserver_put_check` for a `PUT`; a `DELETE` may name any key. -/
def Allowed : Update → Prop
  | put k v => (1 ≤ k.strlen ∧ k.strlen ≤ maxKeylen) ∧ v.strlen ≤ maxVallen
  | del _ => True

variable (strhash64 : CStr → UInt64)

/-- A `COMMIT` of the update succeeds on the store. -/
def Ready (d : Dir) : Update → Prop
  | put k v => Allowed (put k v)
  | del k => k.strlen ≠ 0 ∧ binding strhash64 d k ≠ none

/-- A `DELETE` is for a key the map binds. -/
def Applicable (u : Update) (m : CStr → Option CStr) : Prop := u.value = none → m u.key ≠ none

/-- A map after the update. -/
def apply (u : Update) (m : CStr → Option CStr) : CStr → Option CStr :=
  Function.update m u.key u.value

end Update

/-- The update a request asks for. -/
def updateOf : KvRequest → Option Update
  | ⟨.putreq, some k, some v⟩ => some (.put k v)
  | ⟨.delreq, some k, _⟩ => some (.del k)
  | _ => none

variable {strhash64 : CStr → UInt64} {d d' : Dir} {s : KvServer} {req : KvRequest} {u : Update}

theorem updateOf_key (hu : updateOf req = some u) : req.key = some u.key := by
  unfold updateOf at hu
  split at hu <;> simp only [Option.some.injEq, reduceCtorEq] at hu <;> subst hu <;> rfl

theorem updateOf_type (hu : updateOf req = some u) : req.type.isUpdate = true := by
  unfold updateOf at hu
  split at hu <;> first | rfl | cases hu

theorem slot_isUpdate : u.slot.msg.isUpdate = true := by cases u <;> rfl

theorem Update.ready_congr (hb : binding strhash64 d' = binding strhash64 d) :
    u.Ready strhash64 d' ↔ u.Ready strhash64 d := by
  cases u <;> simp only [Update.Ready, hb]

theorem kvserverPutCheck_isSome (k v : CStr) :
    ∃ r, kvserverPutCheck d (some k) (some v) = some r := by
  simp only [kvserverPutCheck, Option.pure_def, Option.bind_eq_bind, Option.bind_some]
  split_ifs <;> exact ⟨_, rfl⟩

theorem kvserverDelCheck_eq_zero (hw : WellFormed strhash64 d) {k : CStr} :
    kvserverDelCheck strhash64 d (some k) = some 0 ↔ (Update.del k).Ready strhash64 d := by
  simp only [kvserverDelCheck, Option.pure_def, Option.bind_eq_bind, Option.bind_some,
    Update.Ready]
  split_ifs with h
  · rcases h with h | h
    · simp [binding_long h, errKeylen]
    · simp [h, errKeylen]
  · push Not at h
    rcases hb : binding strhash64 d k with _ | v <;>
      simp [kvstoreDelCheck, hw.present, kvstoreHaskey_eq hw, hb, not_lt.2 h.1, h.2, errNokey]

/-- A `COMMIT` applies the update the slot holds. -/
theorem applyPending_slot (hw : WellFormed strhash64 d) (hr : u.Ready strhash64 d) :
    ∃ d', applyPending strhash64 d u.slot = some (d', .none) ∧ WellFormed strhash64 d' ∧
      binding strhash64 d' = u.apply (binding strhash64 d) := by
  cases u with
  | put k v =>
    obtain ⟨⟨hk, hk'⟩, hv⟩ := hr
    refine ⟨_, ?_, hw.kvstorePut k v, kvstorePut_binding hw hk' hv⟩
    simp only [applyPending, Update.slot, CharPtr.alloc, CharPtr.deref, kvserverPut_eq]
    rw [if_neg (by omega), if_neg (by omega)]
    rfl
  | del k =>
    obtain ⟨hk, hb⟩ := hr
    obtain ⟨v, hv⟩ := Option.ne_none_iff_exists'.1 hb
    obtain ⟨d', hdel, hw', hb'⟩ := kvstoreDel_ok hw hv
    have hlen : ¬ maxKeylen < k.strlen := fun h => hb (binding_long h)
    have hcheck : kvstoreDelCheck strhash64 d k = 0 := by
      simp [kvstoreDelCheck, hw.present, kvstoreHaskey_eq hw, hv, hlen]
    refine ⟨d', ?_, hw', hb'⟩
    simp only [applyPending, Update.slot, CharPtr.alloc, CharPtr.deref, kvserverDel_eq]
    rw [if_neg (by omega), hcheck, if_neg (by omega), hdel]
    rfl

/-- The slot is that of an update, with valid strings. -/
def Pending.Holds (p : Pending) : Update → Prop
  | .put k v => p.msg = .putreq ∧ p.key.deref = some k ∧ p.value.deref = some v
  | .del k => p.msg = .delreq ∧ p.key.deref = some k

theorem Pending.Holds.msg {p : Pending} (h : p.Holds u) : p.msg = .putreq ∨ p.msg = .delreq := by
  cases u with
  | put k v => exact .inl h.1
  | del k => exact .inr h.1

/-- What a `COMMIT` does depends on the strings of the slot only. -/
theorem applyPending_holds {p : Pending} (h : p.Holds u) :
    applyPending strhash64 d p = applyPending strhash64 d u.slot := by
  cases u with
  | put k v =>
    obtain ⟨hmsg, hkey, hvalue⟩ := h
    simp only [applyPending, Update.slot, hmsg, hkey, hvalue]
    rfl
  | del k =>
    obtain ⟨hmsg, hkey⟩ := h
    simp only [applyPending, Update.slot, hmsg, hkey]
    rfl

theorem slot_holds (u : Update) : u.slot.Holds u := by
  cases u <;> simp [Pending.Holds, Update.slot, CharPtr.alloc, CharPtr.deref]

/-- A `PUT` beyond the limits is voted for, and not applied. -/
theorem applyPending_refused (hal : ¬ u.Allowed) :
    applyPending strhash64 d u.slot = some (d, .none) := by
  cases u with
  | put k v =>
    simp only [Update.Allowed, not_and_or, not_le] at hal
    simp only [applyPending, Update.slot, CharPtr.alloc, CharPtr.deref, kvserverPut_eq]
    split_ifs with h₁ h₂
    · rfl
    · rfl
    · omega
  | del k => exact absurd trivial hal

/-! ## Messages -/

theorem WellFormed.of_sameStore (hw : WellFormed strhash64 d) (h : SameStore d d') :
    WellFormed strhash64 d' ∧ binding strhash64 d' = binding strhash64 d :=
  ⟨h.wellFormed hw, h.binding hw⟩

/-- The first message of an update fills the slot, or is refused. -/
theorem handle_update (hw : WellFormed strhash64 s.dir) (hu : updateOf req = some u) :
    ∃ s' res, kvserverHandleTpc strhash64 s req = some (s', res) ∧ SameStore s.dir s'.dir ∧
      (res = ⟨.vote, some msgCommit⟩ ∧ s'.pending = u.slot ∧
          (u.Allowed → u.Ready strhash64 s.dir) ∧
          (req.type = .delreq → kvserverDelCheck strhash64 s.dir req.key = some 0) ∨
        res.type = .error ∧ s'.pending = s.pending ∧ req.type = .delreq ∧
          kvserverDelCheck strhash64 s.dir req.key ≠ some 0) := by
  obtain ⟨d, hd⟩ := logRequest_isSome s req (fun _ => by simp [updateOf_key hu])
    (fun ht => by
      unfold updateOf at hu
      split at hu
      · rfl
      · cases ht
      · cases hu)
  have hs := logRequest_store hd
  unfold updateOf at hu
  split at hu <;> simp only [Option.some.injEq, reduceCtorEq] at hu <;> subst hu
  · rename_i k v
    obtain ⟨r, hr⟩ := kvserverPutCheck_isSome (d := d) k v
    exact ⟨⟨d, s.log, .putreq, .alloc k, .alloc v⟩, _, by simp [kvserverHandleTpc, hd, hr], hs,
      .inl ⟨rfl, rfl, id, fun ht => by cases ht⟩⟩
  · rename_i k val
    have hcheck := kvserverDelCheck_eq_zero (hs.wellFormed hw) (k := k)
    rw [Update.ready_congr (hs.binding hw), ← kvserverDelCheck_eq_zero hw] at hcheck
    by_cases h0 : kvserverDelCheck strhash64 d (some k) = some 0
    · exact ⟨⟨d, s.log, .delreq, .alloc k, .null⟩, _, by simp [kvserverHandleTpc, hd, h0], hs,
        .inl ⟨rfl, rfl, fun _ => (kvserverDelCheck_eq_zero hw).1 (hcheck.1 h0),
          fun _ => hcheck.1 h0⟩⟩
    · obtain ⟨r, hr⟩ : ∃ r, kvserverDelCheck strhash64 d (some k) = some r := by
        simp only [kvserverDelCheck, Option.pure_def, Option.bind_eq_bind, Option.bind_some]
        split_ifs <;> exact ⟨_, rfl⟩
      have hr0 : r ≠ 0 := fun e => h0 (e ▸ hr)
      exact ⟨⟨d, s.log, s.pending⟩, ⟨.error, some errmsgInvalidRequest⟩,
        by simp [kvserverHandleTpc, hd, hr, hr0], hs, .inr ⟨rfl, rfl, rfl, fun h => h0 (hcheck.2 h)⟩⟩

/-- A `COMMIT` applies the update the slot holds. -/
theorem handle_commit_holds (hw : WellFormed strhash64 s.dir) (hslot : s.pending.Holds u)
    (hr : u.Ready strhash64 s.dir) (ht : req.type = .commit) :
    ∃ s', kvserverHandleTpc strhash64 s req = some (s', ⟨.ack, none⟩) ∧ s'.pending = .none ∧
      WellFormed strhash64 s'.dir ∧
      binding strhash64 s'.dir = u.apply (binding strhash64 s.dir) := by
  obtain ⟨d, hd⟩ := logRequest_isSome s req (by simp [ht]) (by simp [ht])
  obtain ⟨hw', hb'⟩ := hw.of_sameStore (logRequest_store hd)
  obtain ⟨d', happly, hw'', hb''⟩ := applyPending_slot hw' ((Update.ready_congr hb').2 hr)
  rw [← applyPending_holds hslot] at happly
  exact ⟨⟨d', s.log, .none⟩, by simp [kvserverHandleTpc, hd, ht, happly], rfl, hw'',
    by rw [hb'', hb']⟩

theorem handle_commit_slot (hw : WellFormed strhash64 s.dir) (hslot : s.pending = u.slot)
    (hr : u.Ready strhash64 s.dir) (ht : req.type = .commit) :
    ∃ s', kvserverHandleTpc strhash64 s req = some (s', ⟨.ack, none⟩) ∧ s'.pending = .none ∧
      WellFormed strhash64 s'.dir ∧
      binding strhash64 s'.dir = u.apply (binding strhash64 s.dir) :=
  handle_commit_holds hw (hslot ▸ slot_holds u) hr ht

variable (strhash64) in
/-- A `COMMIT` finds an update beyond the limits in the slot, and only clears it. -/
theorem handle_commit_refused (hslot : s.pending = u.slot) (hal : ¬ u.Allowed)
    (ht : req.type = .commit) :
    ∃ s', kvserverHandleTpc strhash64 s req = some (s', ⟨.ack, none⟩) ∧ s'.pending = .none ∧
      SameStore s.dir s'.dir := by
  obtain ⟨d, hd⟩ := logRequest_isSome s req (by simp [ht]) (by simp [ht])
  exact ⟨⟨d, s.log, .none⟩,
    by simp [kvserverHandleTpc, hd, ht, hslot, applyPending_refused hal], rfl, logRequest_store hd⟩

variable (strhash64) in
theorem handle_commit_none (hslot : s.pending.msg.isUpdate = false) (ht : req.type = .commit) :
    ∃ s', kvserverHandleTpc strhash64 s req = some (s', ⟨.ack, none⟩) ∧ s'.pending = s.pending ∧
      SameStore s.dir s'.dir := by
  obtain ⟨d, hd⟩ := logRequest_isSome s req (by simp [ht]) (by simp [ht])
  have happly : applyPending strhash64 d s.pending = some (d, s.pending) := by
    unfold applyPending
    split
    · simp_all [MsgType.isUpdate]
    · simp_all [MsgType.isUpdate]
    · rfl
  exact ⟨⟨d, s.log, s.pending⟩, by simp [kvserverHandleTpc, hd, ht, happly], rfl,
    logRequest_store hd⟩

variable (strhash64) in
theorem handle_abort (s : KvServer) (ht : req.type = .abort) :
    ∃ s', kvserverHandleTpc strhash64 s req = some (s', ⟨.ack, none⟩) ∧ s'.pending = .none ∧
      SameStore s.dir s'.dir := by
  obtain ⟨d, hd⟩ := logRequest_isSome s req (by simp [ht]) (by simp [ht])
  exact ⟨⟨d, s.log, .none⟩, by simp [kvserverHandleTpc, hd, ht], rfl, logRequest_store hd⟩

/-- Only a `COMMIT` changes the store. -/
theorem handle_sameStore {s' : KvServer} {res : KvResponse}
    (h : kvserverHandleTpc strhash64 s req = some (s', res)) (ht : req.type ≠ .commit) :
    SameStore s.dir s'.dir := by
  obtain ⟨d, hd, hh⟩ := handleTpc_cases h
  have hs := logRequest_store hd
  cases hh with
  | commit => exact absurd rfl ht
  | _ => exact hs

/-- The answer to a `GET`. -/
def getAnswer : Option CStr → KvResponse
  | some v => ⟨.getresp, some v⟩
  | none => ⟨.error, some errmsgNoKey⟩

theorem handle_get (hw : WellFormed strhash64 s.dir) (ht : req.type = .getreq) {k : CStr}
    (hk : req.key = some k) :
    kvserverHandleTpc strhash64 s req = some (s, getAnswer (binding strhash64 s.dir k)) := by
  have hget : kvserverGet strhash64 s.dir k = if binding strhash64 s.dir k = none
      then (if maxKeylen < k.strlen then errKeylen else errNokey, none)
      else (0, binding strhash64 s.dir k) := by
    rw [kvserverGet, kvstoreGet_eq hw]
    by_cases hlen : maxKeylen < k.strlen
    · rw [if_pos hlen, if_pos hlen, if_pos (binding_long hlen)]
    · rw [if_neg hlen, if_neg hlen, if_neg hlen]
  rcases hb : binding strhash64 s.dir k with _ | v
  · have : (if maxKeylen < k.strlen then errKeylen else errNokey) ≠ 0 := by
      split_ifs <;> decide
    simp [kvserverHandleTpc, KvServer.logRequest, ht, hk, hget, hb, this, getAnswer]
  · simp [kvserverHandleTpc, KvServer.logRequest, ht, hk, hget, hb, getAnswer]

end Cs162
