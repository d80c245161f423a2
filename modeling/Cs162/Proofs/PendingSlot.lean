import Cs162.Proofs.TpcFollower
import Cs162.Proofs.Recovery

/-!
# What a follower's slot is worth

A follower that votes to commit fills its pending slot, and applies the slot when the `COMMIT`
comes. `kvserver_handle_tpc` votes for every `PUTREQ`, also for one that `kvserver_put_check`
refuses, so the vote is kept exactly for the updates within the limits (`keepsPromise_iff`).

`kvserver_init` does not set the slot, and recovery sets it from the log's last entry alone. So
what the slot holds is what the messages said exactly if that entry sets it, or if the memory
happens to be right (`slot_wellFormed_iff`).
-/

namespace Cs162

open CLib

variable (strhash64 : CStr → UInt64)

/-! ## A vote is a promise -/

/-- The check a follower makes of an update. -/
def Update.check (d : Dir) : Update → Option ℤ
  | put k v => kvserverPutCheck d (some k) (some v)
  | del k => kvserverDelCheck strhash64 d (some k)

/-- A vote to commit an update is kept by the next `COMMIT`, and is not given to an update that
cannot be applied. -/
def KeepsPromise (s : KvServer) (req : KvRequest) (u : Update) : Prop :=
  ∃ s₁ res, kvserverHandleTpc strhash64 s req = some (s₁, res) ∧
    (res = ⟨.vote, some msgCommit⟩ → ∀ commit : KvRequest, commit.type = .commit →
      ∃ s₂ res₂, kvserverHandleTpc strhash64 s₁ commit = some (s₂, res₂) ∧
        WellFormed strhash64 s₂.dir ∧
        binding strhash64 s₂.dir = u.apply (binding strhash64 s.dir)) ∧
    (∀ ret, u.check strhash64 s.dir = some ret → ret < 0 → res ≠ ⟨.vote, some msgCommit⟩)

variable {strhash64} {s : KvServer} {req : KvRequest} {u : Update}

theorem check_del_ready {d : Dir} {k : CStr} (hw : WellFormed strhash64 d) {ret : ℤ}
    (hr : (Update.del k).Ready strhash64 d)
    (hret : (Update.del k).check strhash64 d = some ret) : ret = 0 := by
  have hzero := (kvserverDelCheck_eq_zero hw).2 hr
  exact Option.some.inj (hret.symm.trans hzero)

theorem check_put_allowed {d : Dir} {k v : CStr} (hp : d.present = true)
    (hal : (Update.put k v).Allowed) : (Update.put k v).check strhash64 d = some 0 := by
  obtain ⟨⟨hk, hk'⟩, hv⟩ := hal
  unfold Update.check kvserverPutCheck kvstorePutCheck
  simp only [Option.pure_def, Option.bind_eq_bind, Option.bind_some]
  rw [if_neg (by omega), if_neg (by omega), if_neg (by omega), if_neg (by omega),
    if_neg (by simp [hp])]

variable (strhash64) in
theorem check_put_refused (d : Dir) {k v : CStr} (hal : ¬ (Update.put k v).Allowed) :
    ∃ ret < 0, (Update.put k v).check strhash64 d = some ret := by
  unfold Update.Allowed at hal
  unfold Update.check kvserverPutCheck
  simp only [Option.pure_def, Option.bind_eq_bind, Option.bind_some]
  split_ifs with hk hv
  · exact ⟨errKeylen, by decide, rfl⟩
  · exact ⟨errVallen, by decide, rfl⟩
  · omega

/-- A follower keeps the promise of its vote if and only if the update is a `DELETE`, or a `PUT`
within the limits. -/
theorem keepsPromise_iff (hw : WellFormed strhash64 s.dir) (hu : updateOf req = some u) :
    KeepsPromise strhash64 s req u ↔ u.Allowed := by
  obtain ⟨s₁, res, hhandle, hsame, hcases⟩ := handle_update hw hu
  obtain ⟨hw₁, hb₁⟩ := hw.of_sameStore hsame
  constructor
  · rintro ⟨s₁', res', hhandle', -, hrefuse⟩
    obtain ⟨-, rfl⟩ := Prod.mk.inj (Option.some.inj (hhandle.symm.trans hhandle'))
    by_contra hal
    cases u with
    | del k => exact hal trivial
    | put k v =>
      obtain ⟨ret, hneg, hcheck⟩ := check_put_refused strhash64 s.dir hal
      rcases hcases with ⟨hvote, -⟩ | ⟨-, -, hdel, -⟩
      · exact hrefuse ret hcheck hneg hvote
      · unfold updateOf at hu
        split at hu
        · cases hdel
        · cases hu
        · cases hu
  · intro hal
    refine ⟨s₁, res, hhandle, fun hvote commit hcommit => ?_, fun ret hret hneg hvote => ?_⟩
    · rcases hcases with ⟨-, hslot, hready, -⟩ | ⟨herr, -⟩
      · have hready₁ : u.Ready strhash64 s₁.dir := (Update.ready_congr hb₁).2 (hready hal)
        obtain ⟨s₂, hhandle₂, -, hw₂, hb₂⟩ := handle_commit_slot hw₁ hslot hready₁ hcommit
        exact ⟨s₂, _, hhandle₂, hw₂, by rw [hb₂, hb₁]⟩
      · rw [hvote] at herr
        cases herr
    · rcases hcases with ⟨-, -, hready, -⟩ | ⟨herr, -⟩
      · cases u with
        | put k v =>
          rw [check_put_allowed hw.present hal] at hret
          cases hret
          exact absurd hneg (lt_irrefl _)
        | del k => exact absurd (check_del_ready hw (hready hal) hret) hneg.ne
      · rw [hvote] at herr
        cases herr

/-- A `PUT` of one binding, over a `PUT` that is still pending. -/
theorem keepsPromise_iff_put :
    KeepsPromise (fun _ => 0) ⟨emptyDir, ⟨0, 0⟩, ⟨.putreq, .alloc (.ofString "a"), .null⟩⟩
        ⟨.putreq, some (.ofString "k"), some (.ofString "v")⟩ (.put (.ofString "k") (.ofString "v"))
      ↔ (Update.put (.ofString "k") (.ofString "v")).Allowed :=
  keepsPromise_iff wellFormed_emptyDir rfl

/-- A `PUT` of the empty key is voted for. -/
theorem emptyKey_not_keepsPromise :
    ¬ ∀ (strhash64 : CStr → UInt64) (s : KvServer) (req : KvRequest) (u : Update),
      WellFormed strhash64 s.dir → updateOf req = some u → KeepsPromise strhash64 s req u := by
  intro hall
  obtain ⟨s₁, res, hhandle, -, hrefuse⟩ := hall (fun _ => 0) ⟨emptyDir, ⟨0, 0⟩, .none⟩
    ⟨.putreq, some (.ofString ""), some (.ofString "v")⟩ (.put (.ofString "") (.ofString "v"))
    wellFormed_emptyDir rfl
  cases hhandle
  exact hrefuse errKeylen rfl (by decide) rfl

/-! ## The slot in every reachable state -/

/-- What a follower has heard from the requests so far: the strings of the last `PUTREQ`, the key of the
last `DELREQ` that was accepted, and whether an update was accepted since the last `COMMIT` or
`ABORT`. -/
structure Heard where
  lastPut : Option (CStr × CStr)
  lastDel : Option CStr
  waits : Bool

namespace Heard

/-- One more request. A `PUTREQ` is always accepted. -/
def next (heard : Heard) (req : KvRequest) (accepted : Bool) : Heard :=
  match req.type with
  | .putreq => { heard with
      lastPut := req.key.bind fun k => req.val.map fun v => (k, v)
      waits := true }
  | .delreq => if accepted then { heard with lastDel := req.key, waits := true } else heard
  | .commit | .abort => { heard with waits := false }
  | _ => heard

/-- The last update of its kind that was accepted. -/
def Says (heard : Heard) : Update → Prop
  | .put k v => heard.lastPut = some (k, v)
  | .del k => heard.lastDel = some k

end Heard

/-- What is heard from a log, if for each request it is known whether it was accepted. -/
def heardBy (logged : List (KvRequest × Bool)) : Heard :=
  logged.foldl (fun heard x => heard.next x.1 x.2) ⟨none, none, false⟩

variable (strhash64) in
/-- Requests handled in order, with what is heard from them. -/
def heardAll (s : KvServer) (heard : Heard) : List KvRequest → Option (KvServer × Heard)
  | [] => some (s, heard)
  | req :: reqs => do
    let handled ← kvserverHandleTpc strhash64 s req
    heardAll handled.1 (heard.next req (handled.2.type = .vote)) reqs

variable (strhash64) in
/-- The slot is empty or holds the last update accepted of its kind, and a `COMMIT` or `ABORT` that
comes without an update to decide on changes nothing. -/
structure SlotOk (s : KvServer) (heard : Heard) : Prop where
  slot : s.pending.msg = .empty ∨ ∃ u, s.pending.Holds u ∧ heard.Says u
  idle : heard.waits = false → ∀ req : KvRequest, req.type = .commit ∨ req.type = .abort →
    ∃ s', kvserverHandleTpc strhash64 s req = some (s', ⟨.ack, none⟩) ∧ SameStore s.dir s'.dir

/-- The strings that a `COMMIT` of the slot reads are there. -/
def Pending.Readable (p : Pending) : Prop :=
  p.msg = .putreq ∧ (∃ k, p.key.deref = some k ∧
      (1 ≤ k.strlen → k.strlen ≤ maxKeylen → p.value.deref.isSome)) ∨
    p.msg = .delreq ∧ p.key.deref.isSome

variable (strhash64) in
/-- Either the last entry of the log sets the slot, or the memory the slot is in is right by chance:
it is empty or can at least be read, and its key has room for the one that is copied into it. A
`DELREQ` that was refused fills the slot too, which then must say nothing new. -/
def Restored (mem : Pending) (d : Dir) (logged : List (KvRequest × Bool)) : Prop :=
  match logged.getLast? with
  | none => mem.msg = .empty
  | some (req, _) =>
    (req.type = .commit → mem.msg = .empty ∨ mem.Readable) ∧
    (req.type = .delreq → ∃ k, req.key = some k ∧ mem.key.strcpy k ≠ none ∧
      (heardBy logged).lastDel = some k ∧
      ((heardBy logged).waits = true ∨ kvserverDelCheck strhash64 d (some k) ≠ some 0))

variable {d d' : Dir} {p p' : Pending} {heard : Heard} {s' : KvServer} {res : KvResponse}

theorem applyPending_unready (hw : WellFormed strhash64 d) (hr : ¬ u.Ready strhash64 d) :
    applyPending strhash64 d u.slot = some (d, .none) := by
  cases u with
  | put k v => exact applyPending_refused hr
  | del k =>
    rw [← kvserverDelCheck_eq_zero hw] at hr
    have hcheck : maxKeylen < k.strlen ∨ k.strlen = 0 ∨ kvstoreDelCheck strhash64 d k < 0 := by
      by_contra! h
      refine hr ?_
      simp only [kvserverDelCheck, Option.pure_def, Option.bind_eq_bind, Option.bind_some]
      rw [if_neg (by omega)]
      have := h.2.2
      unfold kvstoreDelCheck at this ⊢
      split_ifs at this ⊢ <;> first | rfl | (exfalso; revert this; decide)
    simp only [applyPending, Update.slot, CharPtr.alloc, CharPtr.deref, kvserverDel_eq]
    split_ifs with h₁ h₂
    · rfl
    · rfl
    · exact absurd hcheck (by tauto)

/-- The update in the slot, and whether it can still do anything. -/
structure SlotInv (strhash64 : CStr → UInt64) (s : KvServer) (heard : Heard) : Prop where
  wellFormed : WellFormed strhash64 s.dir
  slot : s.pending.msg = .empty ∨ ∃ u, s.pending.Holds u ∧ heard.Says u ∧
    (heard.waits = true ∨ ¬ u.Ready strhash64 s.dir)

theorem SlotInv.ok (h : SlotInv strhash64 s heard) : SlotOk strhash64 s heard where
  slot := by
    rcases h.slot with hmsg | ⟨u, hu, hsays, -⟩
    · exact .inl hmsg
    · exact .inr ⟨u, hu, hsays⟩
  idle := by
    intro hidle req hreq
    rcases hreq with ht | ht
    · rcases h.slot with hmsg | ⟨u, hu, -, hready⟩
      · obtain ⟨s', hs', -, hsame⟩ := handle_commit_none strhash64 (by rw [hmsg]; rfl) ht
        exact ⟨s', hs', hsame⟩
      · obtain ⟨d, hd⟩ := logRequest_isSome s req (by simp [ht]) (by simp [ht])
        have hsame := logRequest_store hd
        obtain ⟨hw, hb⟩ := h.wellFormed.of_sameStore hsame
        have hunready : ¬ u.Ready strhash64 d := by
          rw [Update.ready_congr hb]
          exact hready.resolve_left (by simp [hidle])
        have happly := (applyPending_holds hu).trans (applyPending_unready hw hunready)
        exact ⟨⟨d, s.log, .none⟩, by simp [kvserverHandleTpc, hd, ht, happly], hsame⟩
    · obtain ⟨s', hs', -, hsame⟩ := handle_abort strhash64 s ht
      exact ⟨s', hs', hsame⟩

theorem applyPending_clears (hw : WellFormed strhash64 d)
    (hslot : p.msg = .empty ∨ ∃ u, p.Holds u) (h : applyPending strhash64 d p = some (d', p')) :
    WellFormed strhash64 d' ∧ p'.msg = .empty := by
  rcases hslot with hmsg | ⟨u, hu⟩
  · simp only [applyPending, hmsg, Option.some.injEq, Prod.mk.injEq] at h
    obtain ⟨rfl, rfl⟩ := h
    exact ⟨hw, hmsg⟩
  rw [applyPending_holds hu] at h
  by_cases hr : u.Ready strhash64 d
  · obtain ⟨d₁, happly, hw₁, -⟩ := applyPending_slot hw hr
    rw [happly, Option.some.injEq, Prod.mk.injEq] at h
    obtain ⟨rfl, rfl⟩ := h
    exact ⟨hw₁, rfl⟩
  · rw [applyPending_unready hw hr, Option.some.injEq, Prod.mk.injEq] at h
    obtain ⟨rfl, rfl⟩ := h
    exact ⟨hw, rfl⟩

theorem SlotInv.handle (h : SlotInv strhash64 s heard)
    (hh : kvserverHandleTpc strhash64 s req = some (s', res)) :
    SlotInv strhash64 s' (heard.next req (res.type = .vote)) := by
  obtain ⟨d, hd, hcase⟩ := handleTpc_cases hh
  obtain ⟨hw, hb⟩ := h.wellFormed.of_sameStore (logRequest_store hd)
  have hkeep : s.pending.msg = .empty ∨ ∃ u, s.pending.Holds u ∧ heard.Says u ∧
      (heard.waits = true ∨ ¬ u.Ready strhash64 d) := by
    simpa only [Update.ready_congr hb] using h.slot
  cases hcase with
  | put k v => exact ⟨hw, .inr ⟨.put k v, ⟨rfl, rfl, rfl⟩, rfl, .inl rfl⟩⟩
  | del k val hok => exact ⟨hw, .inr ⟨.del k, ⟨rfl, rfl⟩, rfl, .inl rfl⟩⟩
  | refuse k val hno => exact ⟨hw, hkeep⟩
  | commit key val d' p' happly =>
    obtain ⟨hw', hclear⟩ := applyPending_clears hw
      (hkeep.imp id fun ⟨u, hu, _⟩ => ⟨u, hu⟩) happly
    exact ⟨hw', .inl hclear⟩
  | abort key val => exact ⟨hw, .inl rfl⟩
  | get k val => exact ⟨hw, hkeep⟩
  | other type key val htype hget =>
    refine ⟨hw, ?_⟩
    have hnext : ∀ accepted, heard.next ⟨type, key, val⟩ accepted = heard := fun accepted => by
      cases type <;> first | rfl | cases htype
    rw [hnext]
    exact hkeep

theorem SlotInv.run (reqs : List KvRequest) : ∀ {s s' : KvServer} {heard heard' : Heard},
    SlotInv strhash64 s heard → heardAll strhash64 s heard reqs = some (s', heard') →
    SlotInv strhash64 s' heard' := by
  induction reqs with
  | nil =>
    intro s s' heard heard' h hrun
    simp only [heardAll, Option.some.injEq, Prod.mk.injEq] at hrun
    rwa [← hrun.1, ← hrun.2]
  | cons req reqs ih =>
    intro s s' heard heard' h hrun
    simp only [heardAll, Option.bind_eq_bind, Option.bind_eq_some_iff] at hrun
    obtain ⟨⟨s₁, res⟩, hh, hrun⟩ := hrun
    exact ih (h.handle hh) hrun

/-! ## The slot after recovery -/

theorem applyPending_readable (hw : WellFormed strhash64 d) (h : p.Readable) :
    ∃ d', applyPending strhash64 d p = some (d', .none) ∧ WellFormed strhash64 d' := by
  have hholds : ∀ {u : Update}, p.Holds u →
      ∃ d', applyPending strhash64 d p = some (d', .none) ∧ WellFormed strhash64 d' := by
    intro u hu
    rw [applyPending_holds hu]
    by_cases hr : u.Ready strhash64 d
    · obtain ⟨d', happly, hw', -⟩ := applyPending_slot hw hr
      exact ⟨d', happly, hw'⟩
    · exact ⟨d, applyPending_unready hw hr, hw⟩
  rcases h with ⟨hmsg, k, hkey, hvalue⟩ | ⟨hmsg, hkey⟩
  · by_cases hlen : 1 ≤ k.strlen ∧ k.strlen ≤ maxKeylen
    · obtain ⟨v, hv⟩ := Option.isSome_iff_exists.1 (hvalue hlen.1 hlen.2)
      exact hholds (u := .put k v) ⟨hmsg, hkey, hv⟩
    · refine ⟨d, ?_, hw⟩
      have hbad : maxKeylen < k.strlen ∨ k.strlen = 0 := by omega
      simp [applyPending, hmsg, kvserverPut, kvserverPutCheck, hkey, hbad, errKeylen]
  · obtain ⟨k, hk⟩ := Option.isSome_iff_exists.1 hkey
    exact hholds (u := .del k) ⟨hmsg, hk⟩

theorem readable_of_applyPending (h : applyPending strhash64 d p ≠ none)
    (hmsg : p.msg = .putreq ∨ p.msg = .delreq) : p.Readable := by
  rcases hkey : p.key.deref with _ | k
  · rcases hmsg with hmsg | hmsg <;>
      simp [applyPending, hmsg, hkey, kvserverPut, kvserverPutCheck, kvserverDel,
        kvserverDelCheck] at h
  rcases hmsg with hmsg | hmsg
  · refine .inl ⟨hmsg, k, hkey, fun h₁ h₂ => ?_⟩
    by_contra hvalue
    have hbad : ¬ (maxKeylen < k.strlen ∨ k.strlen = 0) := by omega
    rw [Bool.not_eq_true, Option.isSome_eq_false_iff, Option.isNone_iff_eq_none] at hvalue
    simp [applyPending, hmsg, hkey, hvalue, kvserverPut, kvserverPutCheck, hbad] at h
  · exact .inr ⟨hmsg, by rw [hkey]; rfl⟩

theorem heardBy_concat (logged : List (KvRequest × Bool)) (x : KvRequest × Bool) :
    heardBy (logged ++ [x]) = (heardBy logged).next x.1 x.2 := by
  simp [heardBy]

/-- An update that nobody waits for could not be applied. -/
theorem SlotOk.idle_unready (h : SlotOk strhash64 s heard) (hw : WellFormed strhash64 s.dir)
    (hidle : heard.waits = false) {k : CStr} (hu : s.pending.Holds (.del k)) :
    ¬ (Update.del k).Ready strhash64 s.dir := by
  intro hready
  have hcommit : (⟨.commit, none, none⟩ : KvRequest).type = .commit := rfl
  obtain ⟨s₁, hs₁, hsame⟩ := h.idle hidle _ (.inl hcommit)
  obtain ⟨s₂, hs₂, -, -, hb⟩ := handle_commit_holds hw hu hready hcommit
  obtain rfl : s₁ = s₂ := (Prod.mk.inj (Option.some.inj (hs₁.symm.trans hs₂))).1
  rw [hsame.binding hw] at hb
  have hnone := congrFun hb k
  rw [Update.apply, Update.key, Function.update_self] at hnone
  exact hready.2 hnone

theorem SlotOk.del (h : SlotOk strhash64 s heard) (hw : WellFormed strhash64 s.dir) {k : CStr}
    (hu : s.pending.Holds (.del k)) :
    heard.lastDel = some k ∧ (heard.waits = true ∨ ¬ (Update.del k).Ready strhash64 s.dir) := by
  constructor
  · rcases h.slot with hmsg | ⟨u, hu', hsays⟩
    · cases hmsg.symm.trans hu.1
    · cases u with
      | put k' v => cases hu'.1.symm.trans hu.1
      | del k' =>
        obtain rfl : k' = k := Option.some.inj (hu'.2.symm.trans hu.2)
        exact hsays
  · by_contra! hboth
    exact h.idle_unready hw (by simpa using hboth.1) hu hboth.2

/-- If a `COMMIT` leaves a slot that is in order, the memory it was applied to could be read. -/
theorem readable_of_commit (h : applyPending strhash64 d p = some (d', p'))
    (hslot : p'.msg = .empty ∨ ∃ u, p'.Holds u) : p.msg = .empty ∨ p.Readable := by
  by_cases hupdate : p.msg = .putreq ∨ p.msg = .delreq
  · exact .inr (readable_of_applyPending (by rw [h]; simp) hupdate)
  · have hkept : p' = p := by
      unfold applyPending at h
      split at h
      · exact absurd (.inl ‹_›) hupdate
      · exact absurd (.inr ‹_›) hupdate
      · simp only [Option.some.injEq, Prod.mk.injEq] at h
        exact h.2.symm
    rw [hkept] at hslot
    rcases hslot with hmsg | ⟨u, hu⟩
    · exact .inl hmsg
    · exact absurd hu.msg hupdate

section Init

variable {mem : KvServer} {logged : List (KvRequest × Bool)} {accepted : Bool}

theorem kvserverInit_kvstoreInit (mem : KvServer) (d : Dir) :
    kvserverInit strhash64 mem d = kvserverInit strhash64 mem (kvstoreInit d) := by
  have hidem : kvstoreInit (kvstoreInit d) = kvstoreInit d := by
    unfold kvstoreInit
    split_ifs <;> rfl
  unfold kvserverInit
  rw [hidem]

variable (mem) in
theorem init_of_empty (hp : d.present = true) (hdisk : OnDisk d []) :
    ∃ s, kvserverInit strhash64 mem d = some s ∧ s.dir = d ∧ s.pending = mem.pending := by
  refine ⟨{ mem with dir := d, log := tpclogInit d mem.log }, ?_, rfl, rfl⟩
  simp only [kvserverInit, kvstoreInit, hp, if_true, kvserverRebuildState,
    tpclogIterate_dense hdisk.dense, List.length_nil, List.range_zero, List.map_nil,
    List.getLast?_nil]

theorem restored_empty (hw : WellFormed strhash64 d) (hdisk : OnDisk d []) :
    ((∃ s, kvserverInit strhash64 mem d = some s ∧ SlotOk strhash64 s (heardBy []))
        → Restored strhash64 mem.pending d []) ∧
      (Restored strhash64 mem.pending d [] →
        ∃ s, kvserverInit strhash64 mem d = some s ∧ SlotInv strhash64 s (heardBy [])) := by
  obtain ⟨s, hs, hdir, hpending⟩ := init_of_empty mem hw.present hdisk
  constructor
  · rintro ⟨s', hs', hok⟩
    obtain rfl : s = s' := Option.some.inj (hs.symm.trans hs')
    show mem.pending.msg = .empty
    rw [← hpending]
    by_contra hmsg
    obtain ⟨u, -, hsays⟩ := hok.slot.resolve_left hmsg
    cases u <;> cases hsays
  · intro hmsg
    exact ⟨s, hs, hdir ▸ hw, .inl (hpending ▸ hmsg)⟩

theorem strcpy_deref {q q' : CharPtr} {k : CStr} (h : q.strcpy k = some q') :
    q'.deref = some k := by
  cases q with
  | str s room =>
    simp only [CharPtr.strcpy, Option.ite_none_right_eq_some, Option.some.injEq] at h
    rw [← h.2]
    rfl
  | null => cases h
  | wild => cases h

/-- The last entry sets the slot, or leaves the memory, or makes use of it. -/
theorem restored_concat (hw : WellFormed strhash64 d)
    (hdisk : OnDisk d (logged.map Prod.fst ++ [req])) (ht : req.type.loggable = true)
    (hfits : req.Fits) :
    ((∃ s, kvserverInit strhash64 mem d = some s ∧
          SlotOk strhash64 s (heardBy (logged ++ [(req, accepted)])))
        → Restored strhash64 mem.pending d (logged ++ [(req, accepted)])) ∧
      (Restored strhash64 mem.pending d (logged ++ [(req, accepted)]) →
        ∃ s, kvserverInit strhash64 mem d = some s ∧
          SlotInv strhash64 s (heardBy (logged ++ [(req, accepted)]))) := by
  obtain ⟨e, s₀, ⟨_, ⟨rfl⟩, htype, hkey, hval⟩, hdir, hpending, hlast, hinit⟩ :=
    kvserverInit_last strhash64 hdisk ht hfits hw.present mem
  simp only [hinit, kvserverRebuildState, hlast, Option.bind_eq_bind, Option.bind_some, htype,
    Restored, List.getLast?_append, List.getLast?_singleton, Option.some_or, heardBy_concat]
  cases hreq : req.type <;> simp only [hreq, MsgType.loggable, Bool.false_eq_true] at ht
  · -- `PUTREQ`
    simp only [hreq, true_or, forall_const] at hkey hval
    refine ⟨fun _ => by simp, fun _ => ⟨_, rfl, by rw [hdir]; exact hw, ?_⟩⟩
    refine .inr ⟨.put e.key e.value, ⟨rfl, rfl, rfl⟩, ?_, .inl ?_⟩
    · simp [Heard.next, Heard.Says, hreq, hkey, hval]
    · simp [Heard.next, hreq]
  · -- `DELREQ`
    simp only [hreq, or_true, forall_const] at hkey
    have hready : kvserverDelCheck strhash64 d (some e.key) ≠ some 0
        ↔ ¬ (Update.del e.key).Ready strhash64 d := (kvserverDelCheck_eq_zero hw).not
    simp only [reduceCtorEq, false_imp_iff, true_and, forall_const, hkey, Option.some.injEq,
      exists_eq_left', hpending, hready]
    constructor
    · rintro ⟨s, hs, hok⟩
      simp only [Option.bind_eq_some_iff, Option.pure_def, Option.some.injEq] at hs
      obtain ⟨key, hcpy, rfl⟩ := hs
      have hdel := hok.del (hdir.symm ▸ hw) ⟨rfl, strcpy_deref hcpy⟩
      rw [hdir] at hdel
      exact ⟨by simp [hcpy], hdel⟩
    · rintro ⟨hcpy, hsays, hwaits⟩
      obtain ⟨key, hcpy⟩ := Option.ne_none_iff_exists'.1 hcpy
      refine ⟨_, by simp only [hcpy, Option.bind_some]; rfl, by rw [hdir]; exact hw, .inr ?_⟩
      refine ⟨.del e.key, ⟨rfl, strcpy_deref hcpy⟩, hsays, ?_⟩
      rw [hdir]
      exact hwaits
  · -- `COMMIT`
    simp only [reduceCtorEq, false_imp_iff, and_true, forall_const, hpending, hdir]
    constructor
    · rintro ⟨s, hs, hok⟩
      simp only [Option.bind_eq_some_iff, Option.pure_def, Option.some.injEq] at hs
      obtain ⟨⟨d', p'⟩, happly, rfl⟩ := hs
      exact readable_of_commit happly (hok.slot.imp_right fun h => h.imp fun _ => And.left)
    · rintro (hmsg | hreadable)
      · exact ⟨⟨d, s₀.log, mem.pending⟩,
          by simp only [applyPending, hmsg, Option.bind_some]; rfl, hw, .inl hmsg⟩
      · obtain ⟨d', happly, hw'⟩ := applyPending_readable hw hreadable
        exact ⟨⟨d', s₀.log, .none⟩, by simp only [happly, Option.bind_some]; rfl, hw', .inl rfl⟩
  · -- `ABORT`
    exact ⟨fun _ => by simp, fun _ => ⟨_, rfl, by rw [hdir]; exact hw, .inl rfl⟩⟩

end Init

variable (strhash64) in
/-- In every state that a follower reaches after it was started, its slot is well formed, if and only
if the log or the memory restores it. -/
theorem slot_wellFormed_iff (mem : KvServer) (d : Dir) (logged : List (KvRequest × Bool))
    (hw : WellFormed strhash64 (kvstoreInit d))
    (hdisk : OnDisk (kvstoreInit d) (logged.map Prod.fst))
    (hlog : ∀ x ∈ logged, x.1.type.loggable = true ∧ x.1.Fits) :
    (∃ s, kvserverInit strhash64 mem d = some s ∧ ∀ reqs s' heard,
        heardAll strhash64 s (heardBy logged) reqs = some (s', heard) → SlotOk strhash64 s' heard)
      ↔ Restored strhash64 mem.pending (kvstoreInit d) logged := by
  have hinit : ((∃ s, kvserverInit strhash64 mem d = some s ∧ SlotOk strhash64 s (heardBy logged))
        → Restored strhash64 mem.pending (kvstoreInit d) logged) ∧
      (Restored strhash64 mem.pending (kvstoreInit d) logged →
        ∃ s, kvserverInit strhash64 mem d = some s ∧ SlotInv strhash64 s (heardBy logged)) := by
    rw [kvserverInit_kvstoreInit]
    rcases logged.eq_nil_or_concat' with rfl | ⟨logged, ⟨req, accepted⟩, rfl⟩
    · exact restored_empty hw hdisk
    · obtain ⟨ht, hfits⟩ := hlog (req, accepted) (by simp)
      rw [List.map_append] at hdisk
      exact restored_concat hw hdisk ht hfits
  constructor
  · rintro ⟨s, hs, hall⟩
    exact hinit.1 ⟨s, hs, hall [] s _ rfl⟩
  · intro hrestored
    obtain ⟨s, hs, h⟩ := hinit.2 hrestored
    exact ⟨s, hs, fun reqs s' heard hrun => (SlotInv.run reqs h hrun).ok⟩

/-- A log of one `ABORT`. -/
def abortDir : Dir := emptyDir.set (.log 0) ⟨LogEntry.dump ⟨.abort, 0, []⟩, false⟩

theorem wellFormed_abortDir : WellFormed strhash64 abortDir := by
  refine wellFormed_emptyDir.congr rfl fun h i => ?_
  rw [abortDir, Directory.lookup_set, if_neg (by simp)]

theorem slot_wellFormed_iff_abort :
    (∃ s, kvserverInit (fun _ => 0) zeroMem abortDir = some s ∧ ∀ reqs s' heard,
        heardAll (fun _ => 0) s (heardBy [(⟨.abort, none, none⟩, true)]) reqs = some (s', heard) →
        SlotOk (fun _ => 0) s' heard)
      ↔ Restored (fun _ => 0) zeroMem.pending (kvstoreInit abortDir)
          [(⟨.abort, none, none⟩, true)] :=
  slot_wellFormed_iff (fun _ => 0) zeroMem abortDir _ wellFormed_abortDir
    ((onDisk_nil (d := emptyDir) fun _ => rfl).append ⟨.abort, none, none⟩ false rfl) (by decide)

/-- A follower that starts for the first time, in zeroed memory. -/
theorem zeroServer_not_wellFormed :
    ¬ ∀ (strhash64 : CStr → UInt64) (mem : KvServer) (d : Dir) (logged : List (KvRequest × Bool)),
      WellFormed strhash64 (kvstoreInit d) → OnDisk (kvstoreInit d) (logged.map Prod.fst) →
      (∀ x ∈ logged, x.1.type.loggable = true ∧ x.1.Fits) →
      ∃ s, kvserverInit strhash64 mem d = some s ∧ ∀ reqs s' heard,
        heardAll strhash64 s (heardBy logged) reqs = some (s', heard) →
        SlotOk strhash64 s' heard := by
  intro hall
  obtain ⟨s, hs, hok⟩ := hall (fun _ => 0) zeroMem emptyDir [] wellFormed_emptyDir
    (onDisk_nil fun _ => rfl) (by simp)
  have hmsg := (hok [] s _ rfl).slot
  obtain ⟨s₀, hs₀, -, hpending⟩ := init_of_empty zeroMem rfl (onDisk_nil (d := emptyDir) fun _ => rfl)
  obtain rfl : s = s₀ := Option.some.inj (hs.symm.trans hs₀)
  rw [hpending] at hmsg
  rcases hmsg with hmsg | ⟨u, hu, -⟩
  · cases hmsg
  · rcases hu.msg with hmsg | hmsg <;> cases hmsg

end Cs162
