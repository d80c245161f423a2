import Cs162.TpcLate
import Cs162.Proofs.TpcConcurrent

/-!
# Late messages

A message that comes late may find another transaction's update in the slot, and a `COMMIT` applies
it whosever it is. As long as every `COMMIT` finds the slot empty or filled by its own transaction,
what is applied belongs to a transaction the leader has decided to commit (`late_run_safe`), whatever
becomes of the other messages.
-/

namespace Cs162

open CLib

variable (strhash64 : CStr → UInt64) (l : TpcLeader)

/-- What was applied is the update of a transaction the leader has decided to commit. A `PUT` beyond
the limits leaves the store as it is. -/
def Backed (s : TpcSystem) (a : Applied) : Prop :=
  ∃ i x u, a.owner = some i ∧ s.txns i = some x ∧ updateOf x.call = some u ∧
    x.thread.committed = true ∧ a.slot = u.slot ∧
    (u.Allowed → binding strhash64 a.after = u.apply (binding strhash64 a.before)) ∧
    (¬ u.Allowed → binding strhash64 a.after = binding strhash64 a.before)

/-- The map a follower's store holds after what was applied to it. -/
def stored (applied : List Applied) (f : Addr) (m : CStr → Option CStr) : CStr → Option CStr :=
  (applied.filter (·.follower = f)).foldl (fun _ a => binding strhash64 a.after) m

/-- Every change of a store comes from an update of a transaction decided to commit. -/
structure TpcSystem.Safe (s : TpcSystem) (followers : Addr → KvServer) : Prop where
  backed : ∀ a ∈ s.cluster.applied, Backed strhash64 s a
  stored : ∀ f, binding strhash64 (s.cluster.followers f).dir
    = stored strhash64 s.cluster.applied f (binding strhash64 (followers f).dir)

/-- A slot that no transaction owns is empty. -/
def Cluster.Settled (c : Cluster) (f : Addr) : Prop :=
  c.owner f = none → (c.followers f).pending = .none

/-- Where a thread may stand. As long as it has no abort, the replicas it has heard from have filled
their slots at some time. -/
inductive Waits (c : Cluster) (call : KvRequest) (u : Update) : TpcThread → Prop
  | phase1 (hs : l.Serves strhash64) (n a : ℕ) (hn : n < l.redundancy.toNat)
      (hvote : a = 0 → ∀ q < n, c.Settled (l.addr (l.walk strhash64 u.key q))) :
      Waits c call u (.phase1 (.at strhash64 l call u.key n a))
  | phase2 (hs : l.Serves strhash64) (n a : ℕ) (hn : n < l.redundancy.toNat)
      (hvote : a = 0 → ∀ q < l.redundancy.toNat,
        c.Settled (l.addr (l.walk strhash64 u.key q))) :
      Waits c call u (.phase2 (.at strhash64 l (decision call a) u.key n a))
  | ended (res : KvResponse) : Waits c call u (.ended res)

/-- A message of a transaction: its update, or the decision it has come to. -/
def Sent (c : Cluster) (x : Txn) (f : Addr) (msg : KvRequest) : Prop :=
  msg = x.call ∨ msg.type = .abort ∨
    msg.type = .commit ∧ x.thread.committed = true ∧ c.Settled f

structure LateInv (s : LateSystem) (followers : Addr → KvServer) : Prop where
  wellFormed : ∀ f, WellFormed strhash64 (s.cluster.followers f).dir
  slot : ∀ f i, s.cluster.owner f = some i → ∃ x u, s.txns i = some x ∧
    updateOf x.call = some u ∧ (s.cluster.followers f).pending = u.slot ∧
    (u.Allowed → u.Ready strhash64 (s.cluster.followers f).dir)
  fresh : ∀ i, s.started ≤ i → s.txns i = none
  txn : ∀ i x, s.txns i = some x → ∃ u, updateOf x.call = some u ∧
    Waits strhash64 l s.cluster x.call u x.thread
  queue : ∀ c ∈ s.queue, c.id < s.sent ∧
    ∃ x, s.txns c.txn = some x ∧ Sent s.cluster x c.follower c.msg
  awaited : ∀ c ∈ s.queue, s.awaited = some c.id → c.txn = s.current ∧
    ∃ t, s.locals = some t ∧ c.follower = l.addr t.currFollower ∧ c.msg = t.req
  safe : s.toTpcSystem.Safe strhash64 followers

/-- A `COMMIT` that is handled finds the slot empty, or filled by its own transaction. -/
def LateSystem.Guarded (s : LateSystem) : LateEvent → Prop
  | .process n _ => ∀ c, s.queue[n]? = some c → c.msg.type = .commit →
      ∀ i, s.cluster.owner c.follower = some i → i = c.txn
  | _ => True

/-- A run in which every `COMMIT` is guarded. -/
def LateRun (s : LateSystem) : List LateEvent → Prop
  | [] => True
  | e :: es => s.Guarded e ∧ ∀ s', s.step strhash64 l e = some s' → LateRun s' es

instance (s : LateSystem) : ∀ e : LateEvent, Decidable (s.Guarded e)
  | .process n _ => inferInstanceAs (Decidable (∀ c ∈ s.queue[n]?, c.msg.type = .commit →
      ∀ i ∈ s.cluster.owner c.follower, i = c.txn))
  | .accept _ | .send | .refuse | .timeout => isTrue trivial

instance decidableLateRun : ∀ (es : List LateEvent) (s : LateSystem),
    Decidable (LateRun strhash64 l s es)
  | [], _ => isTrue trivial
  | e :: es, s =>
    have := decidableLateRun es
    inferInstanceAs (Decidable (s.Guarded e ∧
      ∀ s' ∈ s.step strhash64 l e, LateRun strhash64 l s' es))

/-- The requests are for updates. -/
def LateEvent.Allowed : LateEvent → Prop
  | .accept req => ∃ u, updateOf req = some u
  | _ => True

variable {strhash64} {l} {s : LateSystem} {followers : Addr → KvServer} {c c' : Cluster} {i : ℕ}
  {f : Addr} {x : Txn} {u : Update} {call : KvRequest} {thread : TpcThread}

/-! ## Frames -/

theorem Waits.mono (h : Waits strhash64 l c call u thread)
    (hset : ∀ f, c.Settled f → c'.Settled f) : Waits strhash64 l c' call u thread := by
  cases h with
  | phase1 hs n a hn hv => exact .phase1 hs n a hn fun ha q hq => hset _ (hv ha q hq)
  | phase2 hs n a hn hv => exact .phase2 hs n a hn fun ha q hq => hset _ (hv ha q hq)
  | ended res => exact .ended res

theorem Sent.mono {msg : KvRequest} (h : Sent c x f msg) (hset : c.Settled f → c'.Settled f) :
    Sent c' x f msg := h.imp_right (.imp_right fun hc => ⟨hc.1, hc.2.1, hset hc.2.2⟩)

theorem stored_append (as : List Applied) {bs : List Applied} (hbs : ∀ b ∈ bs, b.follower = f)
    (g : Addr) (m : CStr → Option CStr) : stored strhash64 (as ++ bs) g m
      = if g = f then bs.foldl (fun _ a => binding strhash64 a.after) (stored strhash64 as g m)
        else stored strhash64 as g m := by
  rw [stored, List.filter_append, List.foldl_append]
  split_ifs with hg
  · have : bs.filter (·.follower = g) = bs :=
      List.filter_eq_self.2 fun b hb => by simp [hbs b hb, hg]
    rw [this]
    rfl
  · have : bs.filter (·.follower = g) = [] :=
      List.filter_eq_nil_iff.2 fun b hb => by simpa [hbs b hb] using Ne.symm hg
    rw [this]
    rfl

/-- A follower moves to another state and another owner of its slot, and applies `as`. -/
theorem LateInv.moved (h : LateInv strhash64 l s followers) {k : KvServer} {o : Option ℕ}
    {as : List Applied} (hw : WellFormed strhash64 k.dir)
    (hslot : ∀ i, o = some i → ∃ x u, s.txns i = some x ∧ updateOf x.call = some u ∧
      k.pending = u.slot ∧ (u.Allowed → u.Ready strhash64 k.dir))
    (hset : s.cluster.Settled f → o = none → k.pending = .none)
    (hbacked : ∀ a ∈ as, a.follower = f ∧ Backed strhash64 s.toTpcSystem a)
    (hstored : binding strhash64 k.dir = as.foldl (fun _ a => binding strhash64 a.after)
      (binding strhash64 (s.cluster.followers f).dir)) :
    LateInv strhash64 l { s with cluster := { s.cluster.moved f k o with
      applied := s.cluster.applied ++ as } } followers := by
  have hset' : ∀ g, s.cluster.Settled g →
      Cluster.Settled { s.cluster.moved f k o with applied := s.cluster.applied ++ as } g := by
    intro g hg
    by_cases hgf : g = f
    · subst hgf
      simpa [Cluster.Settled, Cluster.moved] using hset hg
    · simpa [Cluster.Settled, Cluster.moved, hgf] using hg
  refine ⟨fun g => ?_, fun g j hj => ?_, h.fresh, fun j y hy => ?_, fun q hq => ?_, h.awaited,
    fun a ha => ?_, fun g => ?_⟩
  · by_cases hgf : g = f
    · subst hgf
      simpa [Cluster.moved] using hw
    · simpa [Cluster.moved, hgf] using h.wellFormed g
  · by_cases hgf : g = f
    · subst hgf
      simpa [Cluster.moved] using hslot j (by simpa [Cluster.moved] using hj)
    · simpa [Cluster.moved, hgf] using h.slot g j (by simpa [Cluster.moved, hgf] using hj)
  · obtain ⟨u, hu, hwait⟩ := h.txn j y hy
    exact ⟨u, hu, hwait.mono hset'⟩
  · obtain ⟨hid, y, hy, hsent⟩ := h.queue q hq
    exact ⟨hid, y, hy, hsent.mono (hset' _)⟩
  · rcases List.mem_append.1 ha with ha | ha
    · exact h.safe.backed a ha
    · exact (hbacked a ha).2
  · show binding strhash64 ((s.cluster.moved f k o).followers g).dir = _
    rw [stored_append _ (fun b hb => (hbacked b hb).1), ← h.safe.stored g]
    split_ifs with hgf
    · subst hgf
      simpa using hstored
    · rw [(moved_of_ne hgf).1]

theorem LateInv.moved_sameStore (h : LateInv strhash64 l s followers) {k : KvServer}
    {o : Option ℕ} (hstore : SameStore (s.cluster.followers f).dir k.dir)
    (hslot : ∀ i, o = some i → ∃ x u, s.txns i = some x ∧ updateOf x.call = some u ∧
      k.pending = u.slot ∧ (u.Allowed → u.Ready strhash64 (s.cluster.followers f).dir))
    (hset : s.cluster.Settled f → o = none → k.pending = .none) :
    LateInv strhash64 l { s with cluster := s.cluster.moved f k o } followers := by
  have hb := hstore.binding (h.wellFormed f)
  have hnone : LateInv strhash64 l { s with cluster := { s.cluster.moved f k o with
      applied := s.cluster.applied ++ [] } } followers :=
    h.moved (hstore.wellFormed (h.wellFormed f)) (fun i hi => by
      obtain ⟨x, u, hx, hu, hp, hr⟩ := hslot i hi
      exact ⟨x, u, hx, hu, hp, fun hal => (Update.ready_congr hb).2 (hr hal)⟩) hset (by simp) hb
  rwa [List.append_nil] at hnone

/-! ## One message -/

/-- What a follower answers to the first message of an update. -/
theorem LateInv.process_update (h : LateInv strhash64 l s followers) (hx : s.txns i = some x)
    (hu : updateOf x.call = some u) : ∃ c' res,
    s.cluster.process strhash64 i f x.call = some (c', res) ∧
      LateInv strhash64 l { s with cluster := c' } followers ∧
      (res = ⟨.vote, some msgCommit⟩ ∧ c'.Settled f ∨ res.type = .error) := by
  have hcommit : x.call.type ≠ .commit := fun e => by
    have := updateOf_type hu
    rw [e] at this
    cases this
  obtain ⟨k, res, hhandle, hstore, ⟨rfl, hpend, hready, -⟩ | ⟨hres, hpend, -, -⟩⟩ :=
    handle_update (h.wellFormed f) hu
  · refine ⟨_, _, process_vote hhandle hcommit rfl,
      h.moved_sameStore hstore (fun j hj => ?_) (by simp), .inl ⟨rfl, by simp [Cluster.Settled]⟩⟩
    obtain rfl := Option.some.inj hj
    exact ⟨x, u, hx, hu, hpend, hready⟩
  · refine ⟨_, _, process_refused hhandle hcommit hres,
      h.moved_sameStore hstore (fun j hj => ?_) (fun hset ho => ?_), .inr hres⟩
    · rw [hpend]
      exact h.slot f j hj
    · rw [hpend]
      exact hset ho

theorem LateInv.process_abort (h : LateInv strhash64 l s followers) {msg : KvRequest}
    (ht : msg.type = .abort) : ∃ c' res,
    s.cluster.process strhash64 i f msg = some (c', res) ∧
      LateInv strhash64 l { s with cluster := c' } followers := by
  obtain ⟨k, hhandle, hpend, hstore⟩ := handle_abort strhash64 (s.cluster.followers f) ht
  exact ⟨_, _, process_ack hhandle (by simp [ht]) rfl,
    h.moved_sameStore hstore (by simp) fun _ _ => hpend⟩

/-- A guarded `COMMIT` finds its own update, or nothing. -/
theorem LateInv.process_commit (h : LateInv strhash64 l s followers) {msg : KvRequest}
    (ht : msg.type = .commit) (hx : s.txns i = some x) (hc : x.thread.committed = true)
    (hset : s.cluster.Settled f) (hguard : ∀ j, s.cluster.owner f = some j → j = i) : ∃ c' res,
    s.cluster.process strhash64 i f msg = some (c', res) ∧
      LateInv strhash64 l { s with cluster := c' } followers := by
  rcases ho : s.cluster.owner f with _ | j
  · obtain ⟨k, hhandle, hpend, hstore⟩ :=
      handle_commit_none strhash64 (s := s.cluster.followers f) (by rw [hset ho]; rfl) ht
    exact ⟨_, _, process_ack hhandle (fun _ => by rw [hset ho]; rfl) rfl,
      h.moved_sameStore hstore (by simp) fun _ _ => by rw [hpend, hset ho]⟩
  obtain rfl := hguard j ho
  obtain ⟨y, u, hy, hu, hpend, hready⟩ := h.slot f j ho
  obtain rfl : y = x := Option.some.inj (hy.symm.trans hx)
  have hslot : (s.cluster.followers f).pending.msg.isUpdate = true := by
    rw [hpend]
    exact slot_isUpdate
  by_cases hal : u.Allowed
  · obtain ⟨k, hhandle, hnone, hw, hb⟩ :=
      handle_commit_slot (h.wellFormed f) hpend (hready hal) ht
    refine ⟨_, _, Cs162.process_commit hhandle ht hslot rfl,
      h.moved hw (by simp) (fun _ _ => hnone) ?_ rfl⟩
    rintro a ha
    obtain rfl := List.mem_singleton.1 ha
    exact ⟨rfl, j, y, u, ho, hx, hu, hc, hpend, fun _ => hb, fun hno => absurd hal hno⟩
  · obtain ⟨k, hhandle, hnone, hstore⟩ := handle_commit_refused strhash64 hpend hal ht
    refine ⟨_, _, Cs162.process_commit hhandle ht hslot rfl,
      h.moved (hstore.wellFormed (h.wellFormed f)) (by simp) (fun _ _ => hnone) ?_ rfl⟩
    rintro a ha
    obtain rfl := List.mem_singleton.1 ha
    exact ⟨rfl, j, y, u, ho, hx, hu, hc, hpend, fun h => absurd h hal,
      fun _ => hstore.binding (h.wellFormed f)⟩

/-! ## The thread -/

variable (thread) in
theorem LateInv.advance (h : LateInv strhash64 l s followers) (hx : s.txns s.current = some x)
    (hwait : ∀ u, updateOf x.call = some u → Waits strhash64 l s.cluster x.call u thread)
    (hc : x.thread.committed = true → thread.committed = true) :
    LateInv strhash64 l { s with
      txns := Function.update s.txns s.current (some { x with thread })
      awaited := none } followers := by
  have hmove : ∀ {j y}, s.txns j = some y → ∃ y', y'.call = y.call ∧
      (y.thread.committed = true → y'.thread.committed = true) ∧
      Function.update s.txns s.current (some { x with thread }) j = some y' := by
    intro j y hy
    by_cases hj : j = s.current
    · subst hj
      obtain rfl : x = y := Option.some.inj (hx.symm.trans hy)
      exact ⟨{ x with thread }, rfl, hc, Function.update_self ..⟩
    · exact ⟨y, rfl, id, by rw [Function.update_of_ne hj, hy]⟩
  refine ⟨h.wellFormed, fun f j hj => ?_, fun j hj => ?_, fun j y hy => ?_, fun q hq => ?_,
    fun q _ e => (by cases e), fun a ha => ?_, h.safe.stored⟩
  · obtain ⟨y, u, hy, hu, hrest⟩ := h.slot f j hj
    obtain ⟨y', hcall, -, hy'⟩ := hmove hy
    exact ⟨y', u, hy', hcall ▸ hu, hrest⟩
  · have hne : j ≠ s.current := by
      rintro rfl
      simp [h.fresh _ hj] at hx
    simpa [hne] using h.fresh j hj
  · by_cases hj : j = s.current
    · subst hj
      simp only [Function.update_self, Option.some.injEq] at hy
      subst hy
      obtain ⟨u, hu, -⟩ := h.txn _ x hx
      exact ⟨u, hu, hwait u hu⟩
    · exact h.txn j y (by simpa [hj] using hy)
  · obtain ⟨hid, y, hy, hsent⟩ := h.queue q hq
    obtain ⟨y', hcall, hcom, hy'⟩ := hmove hy
    exact ⟨hid, y', hy', hsent.imp (hcall ▸ ·) (.imp_right fun hs => ⟨hs.1, hcom hs.2.1, hs.2.2⟩)⟩
  · obtain ⟨j, y, u, ho, hy, hu, hcy, hrest⟩ := h.safe.backed a ha
    obtain ⟨y', hcall, hcom, hy'⟩ := hmove hy
    exact ⟨j, y', u, ho, hy', hcall ▸ hu, hcom hcy, hrest⟩

/-- An exchange ends. A vote counts only if the follower's slot was filled. -/
theorem LateInv.receive (h : LateInv strhash64 l s followers) (con : Contact)
    (hcon : ∀ t x, s.txns s.current = some x → x.thread = .phase1 t →
      ∃ b, votesAbort con = some b ∧ (b = false → s.cluster.Settled (l.addr t.currFollower))) :
    ∃ s', s.receive strhash64 l con = some s' ∧ LateInv strhash64 l s' followers := by
  rcases hx : s.txns s.current with _ | ⟨call, thread⟩
  · exact ⟨s, by simp [LateSystem.receive, hx], h⟩
  obtain ⟨u, hu, hwait⟩ := h.txn _ _ hx
  simp only at hu hwait
  suffices ∃ thread', thread.receive strhash64 l con = some thread' ∧
      Waits strhash64 l s.cluster call u thread' ∧
      (thread.committed = true → thread'.committed = true) by
    obtain ⟨thread', hrec, hwait', hc⟩ := this
    refine ⟨_, ?_, h.advance thread' hx (fun v hv => ?_) hc⟩
    · simp [LateSystem.receive, hx, hrec]
    · obtain rfl : u = v := Option.some.inj (hu.symm.trans hv)
      exact hwait'
  cases hwait with
  | phase1 hs n a hn hv =>
    obtain ⟨b, hb, hset⟩ := hcon _ _ hx rfl
    refine ⟨_, receive_phase1 hs hu hn hb, ?_, by simp [TpcThread.committed]⟩
    have hv' : (if b = true then a + 1 else a) = 0 → ∀ q < n + 1,
        s.cluster.Settled (l.addr (l.walk strhash64 u.key q)) := by
      intro ha q hq
      cases b with
      | true => cases ha
      | false =>
        rcases Nat.lt_succ_iff_lt_or_eq.1 hq with hq | rfl
        · exact hv ha q hq
        · exact hset rfl
    by_cases hlast : n + 1 < l.redundancy.toNat
    · rw [if_pos hlast]
      exact .phase1 hs _ _ hlast hv'
    · rw [if_neg hlast]
      exact .phase2 hs _ _ hs.pos fun ha q hq => hv' ha q (by omega)
  | phase2 hs n a hn hv =>
    refine ⟨_, receive_phase2 hs hn, ?_, fun hc => ?_⟩
    · split_ifs with hack hlast
      · exact .phase2 hs _ _ hlast hv
      · exact .ended _
      · exact .ended _
      · exact .phase2 hs n a hn hv
    · obtain rfl : a = 0 := of_decide_eq_true hc
      split_ifs <;> first | rfl | omega
  | ended res => exact ⟨_, rfl, .ended _, id⟩

/-! ## Steps -/

theorem LateInv.init (hw : ∀ f, WellFormed strhash64 (followers f).dir) :
    LateInv strhash64 l (.init followers) followers where
  wellFormed := hw
  slot _ _ ho := by cases ho
  fresh _ _ := rfl
  txn _ _ hx := by cases hx
  queue _ hq := by cases hq
  awaited _ hq := by cases hq
  safe := ⟨fun _ ha => (by cases ha), fun _ => rfl⟩

theorem LateInv.accept (h : LateInv strhash64 l s followers)
    (hl : l.Serves strhash64 ∨ ∀ req u, updateOf req = some u →
      ∃ res, tpcleaderHandleTpc strhash64 l req = some (.ended res))
    {req : KvRequest} (hu : updateOf req = some u) :
    ∃ s', s.accept strhash64 l req = some s' ∧ LateInv strhash64 l s' followers := by
  by_cases hloc : s.locals.isSome
  · exact ⟨s, by simp [LateSystem.accept, hloc], h⟩
  have hnone := h.fresh s.started le_rfl
  obtain ⟨thread, hthread, hwait⟩ : ∃ thread,
      tpcleaderHandleTpc strhash64 l req = some thread ∧
        Waits strhash64 l s.cluster req u thread := by
    rcases hl with hs | hover
    · exact ⟨_, handleTpc_start hs hu, .phase1 hs 0 0 hs.pos fun _ q hq => absurd hq (by omega)⟩
    · obtain ⟨res, hres⟩ := hover req u hu
      exact ⟨_, hres, .ended res⟩
  have hkeep : ∀ {j y}, s.txns j = some y →
      Function.update s.txns s.started (some ⟨req, thread⟩) j = some y := fun {j y} hy => by
    rwa [Function.update_of_ne]
    rintro rfl
    simp [hnone] at hy
  refine ⟨{ s with
    txns := Function.update s.txns s.started (some ⟨req, thread⟩)
    started := s.started + 1 }, ?_, h.wellFormed, fun f j hj => ?_, fun j hj => ?_,
    fun j y hy => ?_, fun q hq => ?_, fun q hq e => ?_, fun a ha => ?_, h.safe.stored⟩
  · simp [LateSystem.accept, hloc, TpcSystem.start, hnone, hthread]
  · obtain ⟨y, v, hy, hrest⟩ := h.slot f j hj
    exact ⟨y, v, hkeep hy, hrest⟩
  · have hj : s.started + 1 ≤ j := hj
    have hne : j ≠ s.started := by omega
    simpa [hne] using h.fresh j (by omega)
  · by_cases hj : j = s.started
    · subst hj
      simp only [Function.update_self, Option.some.injEq] at hy
      subst hy
      exact ⟨u, hu, hwait⟩
    · exact h.txn j y (by simpa [hj] using hy)
  · obtain ⟨hid, y, hy, hsent⟩ := h.queue q hq
    exact ⟨hid, y, hkeep hy, hsent⟩
  · obtain ⟨-, t, ht, -⟩ := h.awaited q hq e
    simp [ht] at hloc
  · obtain ⟨j, y, v, ho, hy, hrest⟩ := h.safe.backed a ha
    exact ⟨j, y, v, ho, hkeep hy, hrest⟩

/-- What a thread sends is its update or its decision. -/
theorem Waits.sent {t : TpcLocals} (h : Waits strhash64 l c x.call u x.thread)
    (ht : x.thread.locals = some t) : Sent c x (l.addr t.currFollower) t.req := by
  obtain ⟨call, thread⟩ := x
  simp only at h ht
  cases h with
  | phase1 hs n a hn hv =>
    cases ht
    exact .inl rfl
  | phase2 hs n a hn hv =>
    cases ht
    rcases Nat.eq_zero_or_pos a with rfl | ha
    · exact .inr (.inr ⟨rfl, rfl, hv rfl n hn⟩)
    · exact .inr (.inl (by simp [TpcLocals.at, decision, ha]))
  | ended res => cases ht

theorem LateInv.send (h : LateInv strhash64 l s followers) :
    LateInv strhash64 l (s.send l) followers := by
  unfold LateSystem.send
  split
  · rename_i t ht haw
    refine ⟨h.wellFormed, h.slot, h.fresh, h.txn, fun q hq => ?_, fun q hq e => ?_, h.safe⟩
    · rcases List.mem_append.1 hq with hq | hq
      · obtain ⟨hid, hrest⟩ := h.queue q hq
        exact ⟨hid.trans (Nat.lt_succ_self _), hrest⟩
      · obtain rfl := List.mem_singleton.1 hq
        obtain ⟨x, hx, hxt⟩ := Option.bind_eq_some_iff.1 ht
        obtain ⟨u, -, hwait⟩ := h.txn _ x hx
        exact ⟨Nat.lt_succ_self _, x, hx, hwait.sent hxt⟩
    · rcases List.mem_append.1 hq with hq | hq
      · have hid := (h.queue q hq).1
        rw [Option.some.injEq] at e
        omega
      · obtain rfl := List.mem_singleton.1 hq
        exact ⟨rfl, t, ht, rfl, rfl⟩
  · exact h

theorem LateInv.process (h : LateInv strhash64 l s followers) {n : ℕ} {inTime : Bool}
    (hg : s.Guarded (.process n inTime)) :
    ∃ s', s.process strhash64 l n inTime = some s' ∧ LateInv strhash64 l s' followers := by
  rcases hq : s.queue[n]? with _ | q
  · exact ⟨s, by simp [LateSystem.process, hq], h⟩
  have hmem := List.mem_of_getElem? hq
  obtain ⟨-, x, hx, hsent⟩ := h.queue q hmem
  obtain ⟨u, hu, -⟩ := h.txn _ x hx
  obtain ⟨c', res, hproc, hinv, hvote⟩ : ∃ c' res,
      s.cluster.process strhash64 q.txn q.follower q.msg = some (c', res) ∧
        LateInv strhash64 l { s with cluster := c' } followers ∧
        (q.msg = x.call → res = ⟨.vote, some msgCommit⟩ ∧ c'.Settled q.follower ∨
          res.type = .error) := by
    have hno : q.msg.type.isUpdate = false → q.msg ≠ x.call := fun e e' => by
      rw [e', updateOf_type hu] at e
      cases e
    rcases hsent with hcall | ht | ⟨ht, hc, hset⟩
    · rw [hcall]
      obtain ⟨c', res, hproc, hinv, hvote⟩ := h.process_update hx hu
      exact ⟨c', res, hproc, hinv, fun _ => hvote⟩
    · obtain ⟨c', res, hproc, hinv⟩ := h.process_abort ht
      exact ⟨c', res, hproc, hinv, fun e => absurd e (hno (by rw [ht]; rfl))⟩
    · obtain ⟨c', res, hproc, hinv⟩ := h.process_commit ht hx hc hset (hg q hq ht)
      exact ⟨c', res, hproc, hinv, fun e => absurd e (hno (by rw [ht]; rfl))⟩
  have hinv' : LateInv strhash64 l { s with cluster := c', queue := s.queue.eraseIdx n }
      followers :=
    ⟨hinv.wellFormed, hinv.slot, hinv.fresh, hinv.txn,
      fun p hp => hinv.queue p (List.mem_of_mem_eraseIdx hp),
      fun p hp => hinv.awaited p (List.mem_of_mem_eraseIdx hp), hinv.safe⟩
  by_cases hin : inTime = true ∧ s.awaited = some q.id
  · obtain ⟨s', hrec, hs'⟩ := hinv'.receive (.reply res) fun t y hy ht => by
      obtain ⟨htxn, t', ht', hf, hmsg⟩ := h.awaited q hmem hin.2
      obtain rfl : x = y := Option.some.inj ((htxn ▸ hx).symm.trans hy)
      obtain rfl : t = t' := by
        have hloc : s.locals = x.thread.locals := by
          rw [LateSystem.locals, show s.txns s.current = some x from hy]
          rfl
        rw [hloc, ht] at ht'
        exact Option.some.inj ht'
      obtain ⟨v, -, hwait⟩ := h.txn _ x hx
      have hcall : q.msg = x.call := by
        rw [hmsg]
        generalize x.thread = thread at hwait ht
        subst ht
        cases hwait
        rfl
      rcases hvote hcall with ⟨rfl, hset⟩ | he
      · exact ⟨false, by simp [votesAbort], fun _ => hf ▸ hset⟩
      · exact ⟨true, by simp [votesAbort, he], fun e => by cases e⟩
    exact ⟨s', by simp only [LateSystem.process, hq, hproc, Option.bind_eq_bind,
      Option.bind_some, if_pos hin, hrec], hs'⟩
  · exact ⟨_, by simp only [LateSystem.process, hq, hproc, Option.bind_eq_bind,
      Option.bind_some, if_neg hin]; rfl, hinv'⟩

theorem LateInv.step (h : LateInv strhash64 l s followers)
    (hl : l.Serves strhash64 ∨ ∀ req u, updateOf req = some u →
      ∃ res, tpcleaderHandleTpc strhash64 l req = some (.ended res))
    {e : LateEvent} (hal : e.Allowed) (hg : s.Guarded e) :
    ∃ s', s.step strhash64 l e = some s' ∧ LateInv strhash64 l s' followers := by
  have habort : ∀ con, votesAbort con = some true → ∀ (t : TpcLocals) (x : Txn),
      s.txns s.current = some x → x.thread = .phase1 t →
      ∃ b, votesAbort con = some b ∧ (b = false → s.cluster.Settled (l.addr t.currFollower)) :=
    fun con hb t x _ _ => ⟨true, hb, fun e => by cases e⟩
  cases e with
  | accept req =>
    obtain ⟨u, hu⟩ := hal
    exact h.accept hl hu
  | send => exact ⟨_, rfl, h.send⟩
  | refuse =>
    simp only [LateSystem.step, LateSystem.refuse]
    split_ifs
    · exact h.receive _ (habort _ rfl)
    · exact ⟨s, rfl, h⟩
  | timeout =>
    simp only [LateSystem.step, LateSystem.timeout]
    split_ifs
    · exact ⟨s, rfl, h⟩
    · exact h.receive _ (habort _ rfl)
  | process n inTime => exact h.process hg

theorem LateInv.run
    (hl : l.Serves strhash64 ∨ ∀ req u, updateOf req = some u →
      ∃ res, tpcleaderHandleTpc strhash64 l req = some (.ended res)) :
    ∀ {es : List LateEvent} {s : LateSystem}, LateInv strhash64 l s followers →
    (∀ e ∈ es, e.Allowed) → LateRun strhash64 l s es →
    ∃ s', s.run strhash64 l es = some s' ∧ LateInv strhash64 l s' followers
  | [], s, h, _, _ => ⟨s, rfl, h⟩
  | e :: es, s, h, hal, hg => by
    obtain ⟨s₁, hstep, h₁⟩ := h.step hl (hal e List.mem_cons_self) hg.1
    obtain ⟨s', hrun, h'⟩ := h₁.run hl (fun e he => hal e (List.mem_cons_of_mem _ he))
      (hg.2 s₁ hstep)
    exact ⟨s', by simp [LateSystem.run, hstep, hrun], h'⟩

/-- In every run in which a `COMMIT` finds the slot empty or filled by its own transaction, only
updates that are decided to commit are applied. -/
theorem late_run_safe {mem : TpcLeader} {capacity redundancy : UInt32} {regs : List KvRequest}
    (hreg : registerAll strhash64 (tpcleaderInit mem capacity redundancy) regs = some l)
    (hne : l.followerCapacity ≠ 0) (hw : ∀ f, WellFormed strhash64 (followers f).dir)
    {es : List LateEvent} (hal : ∀ e ∈ es, e.Allowed)
    (hg : LateRun strhash64 l (.init followers) es) :
    ∃ s, LateSystem.run strhash64 l (.init followers) es = some s ∧
      s.toTpcSystem.Safe strhash64 followers := by
  obtain ⟨s, hrun, h⟩ := (LateInv.init hw).run (TpcLeader.serves_or_ended hreg hne) hal hg
  exact ⟨s, hrun, h.safe⟩

/-- A `COMMIT` of the first transaction is overtaken by its second copy and handled during the second
transaction. A `PUT` of the second one is overtaken by its `ABORT` and handled at the end, when the
third one has come and gone on other followers. -/
def overtakenEvents : List LateEvent :=
  [.accept (putRequest "a" "x"), .send, .process 0 true, .send, .process 0 true,
    .send, .timeout, .send, .process 1 true, .send, .process 1 true,
    .accept (putRequest "1" "y"), .send, .process 1 true, .send, .timeout,
    .send, .process 2 true, .process 0 false, .send, .process 1 true,
    .accept (putRequest "a" "z"), .send, .process 1 true, .send, .process 1 true,
    .send, .process 1 true, .send, .process 1 true, .process 0 false]

theorem late_run_safe_overtaken :
    ∃ s, LateSystem.run firstByte (trioLeader 2) (.init emptyFollowers) overtakenEvents = some s ∧
      s.toTpcSystem.Safe firstByte emptyFollowers ∧ s.queue = [] ∧
      s.cluster.applied.map (·.owner) = [some 0, some 0, some 2, some 2] ∧
      s.cluster.owner ⟨.ofString "h", 3⟩ = some 1 := by
  obtain ⟨s, hrun, hsafe⟩ := late_run_safe (trioLeader_registered 2) (by decide +kernel)
    (fun f => show WellFormed firstByte (emptyFollowers f).dir from wellFormed_emptyDir)
    (show ∀ e ∈ overtakenEvents, e.Allowed by
      simp [overtakenEvents, LateEvent.Allowed, updateOf, putRequest]) (by decide +kernel)
  have hend : (LateSystem.run firstByte (trioLeader 2) (.init emptyFollowers) overtakenEvents).map
      (fun s => (s.queue.map (·.id), s.cluster.applied.map (·.owner),
        s.cluster.owner ⟨.ofString "h", 3⟩))
      = some ([], [some 0, some 0, some 2, some 2], some 1) := by decide +kernel
  rw [hrun, Option.map_some, Option.some.injEq, Prod.mk.injEq, Prod.mk.injEq,
    List.map_eq_nil_iff] at hend
  exact ⟨s, hrun, hsafe, hend⟩

/-- The first `COMMIT` of a transaction is late, and a second one is acknowledged; when the first is
handled, the slot holds the update of the next transaction, which is then given up. -/
def lateCommitEvents : List LateEvent :=
  [.accept (putRequest "a" "x"), .send, .process 0 true, .send, .timeout, .send, .process 1 true,
    .accept (putRequest "b" "y"), .send, .process 1 false, .process 0 false, .timeout]

theorem lateCommitEvents_not_safe :
    ¬ ∀ (strhash64 : CStr → UInt64) (mem l : TpcLeader) (capacity redundancy : UInt32)
        (regs : List KvRequest) (followers : Addr → KvServer) (es : List LateEvent),
      registerAll strhash64 (tpcleaderInit mem capacity redundancy) regs = some l →
      l.followerCapacity ≠ 0 → (∀ f, WellFormed strhash64 (followers f).dir) →
      (∀ e ∈ es, e.Allowed) →
      ∃ s, LateSystem.run strhash64 l (.init followers) es = some s ∧
        s.toTpcSystem.Safe strhash64 followers := by
  intro hall
  obtain ⟨s, hrun, hsafe⟩ := hall (fun _ => 0) blankLeader soloLeader 1 1 [soloRegister]
    emptyFollowers lateCommitEvents soloLeader_registered (by decide)
    (fun _ => wellFormed_emptyDir)
    (by simp [lateCommitEvents, LateEvent.Allowed, updateOf, putRequest])
  have hend : (LateSystem.run (fun _ => 0) soloLeader (.init emptyFollowers)
      lateCommitEvents).map (fun s => (s.cluster.applied.map (·.owner),
        (s.txns 1).map fun x => x.thread.committed)) = some ([some 0, some 1], some false) := by
    decide +kernel
  rw [hrun, Option.map_some, Option.some.injEq, Prod.mk.injEq, Option.map_eq_some_iff] at hend
  obtain ⟨howner, x, hx, hc⟩ := hend
  obtain ⟨a, ha, ho⟩ : ∃ a ∈ s.cluster.applied, a.owner = some 1 := by
    rw [← List.mem_map, howner]
    simp
  obtain ⟨i, y, u, hi, hy, -, hcy, -⟩ := hsafe.backed a ha
  obtain rfl : i = 1 := Option.some.inj (hi.symm.trans ho)
  obtain rfl : x = y := Option.some.inj (hx.symm.trans hy)
  simp [hc] at hcy

end Cs162
