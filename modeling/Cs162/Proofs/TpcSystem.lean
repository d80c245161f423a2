import Cs162.Proofs.TpcWalk

/-!
# Concurrent transactions

`Inv` relates the followers' slots and stores to where the transactions stand. A slot a transaction
owns holds that transaction's update; a transaction in phase 2 that commits owns the slot of each of
its replicas or has been applied there; and one map says what every replica of a key will hold once
the commits that are decided are through (`TpcSystem.view`). An exchange keeps this as long as no
follower handles a message of one transaction that changes its slot while another owns it
(`Guarded`).
-/

namespace Cs162

open CLib

variable (strhash64 : CStr → UInt64) (l : TpcLeader)

/-- The leader has decided to commit. -/
def TpcThread.committed : TpcThread → Bool
  | phase1 _ => false
  | phase2 t => t.abortBool = 0
  | ended res => res.type = .success

/-- The transaction's update was applied at a follower. -/
def Cluster.Done (c : Cluster) (i : ℕ) (f : Addr) : Prop :=
  ∃ a ∈ c.applied, a.follower = f ∧ a.owner = some i

/-- In phase 1 before exchange `n`: without an abort so far, the replicas polled hold the update. -/
structure Polled (c : Cluster) (i : ℕ) (u : Update) (n a : ℕ) : Prop where
  lt : n < l.redundancy.toNat
  votes : a = 0 → ∀ q < n, c.owner (l.addr (l.walk strhash64 u.key q)) = some i

/-- In phase 2 before exchange `n`: the replicas told the decision are clear of the update, and if
it is to commit, each replica has applied it or still holds it. -/
structure Told (c : Cluster) (i : ℕ) (u : Update) (n a : ℕ) : Prop where
  lt : n < l.redundancy.toNat
  clear : ∀ q < n, c.owner (l.addr (l.walk strhash64 u.key q)) ≠ some i
  held : a = 0 → ∀ q < l.redundancy.toNat,
    c.owner (l.addr (l.walk strhash64 u.key q)) = some i ∨
      c.Done i (l.addr (l.walk strhash64 u.key q))

/-- Where a transaction's thread may stand, with what is known of the replicas there. -/
inductive Stands (c : Cluster) (i : ℕ) (call : KvRequest) (u : Update) : TpcThread → Prop
  | phase1 (n a : ℕ) (h : Polled strhash64 l c i u n a) :
      Stands c i call u (.phase1 (.at strhash64 l call u.key n a))
  | phase2 (n a : ℕ) (h : Told strhash64 l c i u n a) :
      Stands c i call u (.phase2 (.at strhash64 l (decision call a) u.key n a))
  | success (hclear : ∀ f, c.owner f ≠ some i)
      (hdone : ∀ f ∈ l.replicas strhash64 u.key, c.Done i f) :
      Stands c i call u (.ended ⟨.success, none⟩)
  | error (hclear : ∀ f, c.owner f ≠ some i) :
      Stands c i call u (.ended ⟨.error, some errmsgGenericError⟩)

/-- The update a follower is bound to apply: its slot's, once that is decided. -/
def TpcSystem.decided (s : TpcSystem) (f : Addr) : Option Update := do
  let i ← s.cluster.owner f
  let x ← s.txns i
  if x.thread.committed then updateOf x.call else none

/-- What a follower's store will hold. -/
def TpcSystem.view (s : TpcSystem) (f : Addr) : CStr → Option CStr :=
  match s.decided f with
  | none => binding strhash64 (s.cluster.followers f).dir
  | some u => u.apply (binding strhash64 (s.cluster.followers f).dir)

/-- A follower whose store and slot agree with the transactions and with the map `m`. -/
structure FollowerInv (s : TpcSystem) (m : CStr → Option CStr) (f : Addr) : Prop where
  wellFormed : WellFormed strhash64 (s.cluster.followers f).dir
  slot : ∀ i, s.cluster.owner f = some i → ∃ x u, s.txns i = some x ∧ updateOf x.call = some u ∧
    f ∈ l.replicas strhash64 u.key ∧ (s.cluster.followers f).pending = u.slot ∧
    u.Ready strhash64 (s.cluster.followers f).dir
  clean : (∃ a ∈ s.cluster.applied, a.follower = f) → s.cluster.owner f = none →
    (s.cluster.followers f).pending = .none
  view : ∀ k, f ∈ l.replicas strhash64 k → s.view strhash64 f k = m k

/-- What was applied is the update of a transaction the leader decided to commit, and it took
effect. -/
def Attributed (s : TpcSystem) (a : Applied) : Prop :=
  ∃ i x u, a.owner = some i ∧ s.txns i = some x ∧ updateOf x.call = some u ∧
    x.thread.committed = true ∧ a.slot = u.slot ∧
    binding strhash64 a.after = u.apply (binding strhash64 a.before)

structure Inv (s : TpcSystem) (m : CStr → Option CStr) : Prop where
  follower : ∀ f, FollowerInv strhash64 l s m f
  txn : ∀ i x, s.txns i = some x → ∃ u, updateOf x.call = some u ∧ u.Allowed ∧
    Stands strhash64 l s.cluster i x.call u x.thread
  applied : ∀ a ∈ s.cluster.applied, Attributed strhash64 s a

/-- Messages are handled in this delivery. -/
def Delivery.processed : Delivery → Bool
  | refused | dropped => false
  | unanswered | answered => true

/-- If the exchange has a follower change its slot, no other transaction owns the slot. Only a
`DELETE` that is refused leaves the slot alone. -/
def TpcSystem.Guarded (s : TpcSystem) (i : ℕ) (d : Delivery) : Prop :=
  ∀ x t, s.txns i = some x → x.thread.locals = some t → d.processed = true →
    ∀ j, s.cluster.owner (l.addr t.currFollower) = some j → j ≠ i →
      t.req.type = .delreq ∧
        kvserverDelCheck strhash64 (s.cluster.followers (l.addr t.currFollower)).dir t.req.key
          ≠ some 0

instance (s : TpcSystem) (i : ℕ) (d : Delivery) : Decidable (s.Guarded strhash64 l i d) :=
  decidable_of_iff (∀ x ∈ s.txns i, ∀ t ∈ x.thread.locals, d.processed = true →
    ∀ j ∈ s.cluster.owner (l.addr t.currFollower), j ≠ i → t.req.type = .delreq ∧
      kvserverDelCheck strhash64 (s.cluster.followers (l.addr t.currFollower)).dir t.req.key
        ≠ some 0)
    ⟨fun h x t hx ht hd j hj => h x hx t ht hd j hj, fun h x hx t ht hd j hj => h x t hx ht hd j hj⟩

variable {strhash64} {l} {s : TpcSystem} {m : CStr → Option CStr} {c c' : Cluster} {i j : ℕ}
  {f g : Addr} {x : Txn} {u : Update} {call : KvRequest} {thread thread' : TpcThread}

/-- Followers that have handled no message yet, and agree with the map. -/
theorem Inv.init {followers : Addr → KvServer}
    (hw : ∀ f, WellFormed strhash64 (followers f).dir)
    (hm : ∀ k, ∀ f ∈ l.replicas strhash64 k, binding strhash64 (followers f).dir k = m k) :
    Inv strhash64 l (.init followers) m where
  follower f := {
    wellFormed := hw f
    slot := by simp [TpcSystem.init]
    clean := by simp [TpcSystem.init]
    view := fun k hk => hm k f hk }
  txn := by simp [TpcSystem.init]
  applied := by simp [TpcSystem.init]

/-- A transaction that is over owns no slot. -/
theorem Inv.not_ended (h : Inv strhash64 l s m) (ho : s.cluster.owner f = some i)
    (hx : s.txns i = some x) : x.thread.response = none := by
  obtain ⟨u, -, -, hst⟩ := h.txn i x hx
  generalize x.thread = thread at hst
  cases hst with
  | phase1 => rfl
  | phase2 => rfl
  | success hclear => exact absurd ho (hclear f)
  | error hclear => exact absurd ho (hclear f)

theorem committed_phase2 {t : TpcLocals} :
    (TpcThread.phase2 t).committed = false ↔ 0 < t.abortBool := by
  simp [TpcThread.committed, Nat.pos_iff_ne_zero]

/-! ## Frames -/

theorem Cluster.Done.mono (h : c.Done i f) (hsub : c.applied ⊆ c'.applied) : c'.Done i f := by
  obtain ⟨a, ha, hf, ho⟩ := h
  exact ⟨a, hsub ha, hf, ho⟩

/-- A transaction stands where it stood as long as it owns the same slots. -/
theorem Stands.congr (h : Stands strhash64 l c i call u thread)
    (hown : ∀ g, c'.owner g = some i ↔ c.owner g = some i) (hsub : c.applied ⊆ c'.applied) :
    Stands strhash64 l c' i call u thread := by
  cases h with
  | phase1 n a h => exact .phase1 n a ⟨h.lt, fun ha q hq => (hown _).2 (h.votes ha q hq)⟩
  | phase2 n a h =>
    refine .phase2 n a ⟨h.lt, fun q hq ho => h.clear q hq ((hown _).1 ho), fun ha q hq => ?_⟩
    exact (h.held ha q hq).imp (hown _).2 (fun hd => hd.mono hsub)
  | success hclear hdone =>
    exact .success (fun g ho => hclear g ((hown g).1 ho)) fun g hg => (hdone g hg).mono hsub
  | error hclear => exact .error fun g ho => hclear g ((hown g).1 ho)

theorem FollowerInv.congr_cluster {s' : TpcSystem} (h : FollowerInv strhash64 l s m f)
    (htxns : s'.txns = s.txns) (hfol : s'.cluster.followers f = s.cluster.followers f)
    (hown : s'.cluster.owner f = s.cluster.owner f)
    (happ : ∀ a ∈ s'.cluster.applied, a.follower = f → a ∈ s.cluster.applied) :
    FollowerInv strhash64 l s' m f where
  wellFormed := hfol ▸ h.wellFormed
  slot j hj := by
    rw [hown] at hj
    rw [hfol, htxns]
    exact h.slot j hj
  clean := by
    rintro ⟨a, ha, hf⟩ ho
    rw [hfol]
    exact h.clean ⟨a, happ a ha hf, hf⟩ (hown ▸ ho)
  view k hk := by
    rw [← h.view k hk]
    simp only [TpcSystem.view, TpcSystem.decided, hown, htxns, hfol]

/-- Only the follower that handled a message, and the transaction whose message it was, need a
look. -/
theorem Inv.process (h : Inv strhash64 l s m) (i : ℕ)
    (hother : ∀ g ≠ f, c'.followers g = s.cluster.followers g ∧ c'.owner g = s.cluster.owner g)
    (hown : ∀ j ≠ i, c'.owner f = some j ↔ s.cluster.owner f = some j)
    (hsub : s.cluster.applied ⊆ c'.applied)
    (happ : ∀ a ∈ c'.applied, a ∈ s.cluster.applied ∨ a.follower = f ∧ Attributed strhash64 s a)
    (hf : FollowerInv strhash64 l { s with cluster := c' } m f)
    (hi : ∀ x, s.txns i = some x → ∃ u, updateOf x.call = some u ∧ u.Allowed ∧
      Stands strhash64 l c' i x.call u x.thread) :
    Inv strhash64 l { s with cluster := c' } m where
  follower g := by
    by_cases hg : g = f
    · exact hg ▸ hf
    · refine (h.follower g).congr_cluster rfl (hother g hg).1 (hother g hg).2 fun a ha hag => ?_
      exact (happ a ha).resolve_right fun hr => hg (hag ▸ hr.1)
  txn j x hx := by
    by_cases hj : j = i
    · exact hj ▸ hi x (hj ▸ hx)
    · obtain ⟨u, hu, hal, hst⟩ := h.txn j x hx
      refine ⟨u, hu, hal, hst.congr (fun g => ?_) hsub⟩
      by_cases hg : g = f
      · exact hg ▸ hown j hj
      · rw [(hother g hg).2]
  applied a ha := (happ a ha).elim (h.applied a) fun hr => hr.2

theorem decided_of_none (h : s.cluster.owner f = none) : s.decided f = none := by
  simp [TpcSystem.decided, h]

theorem decided_of_owner (h : s.cluster.owner f = some i) (hx : s.txns i = some x) :
    s.decided f = if x.thread.committed then updateOf x.call else none := by
  simp [TpcSystem.decided, h, hx]

/-- A slot owned by nobody but an undecided transaction makes no difference to the view. -/
theorem decided_of_undecided (hx : s.txns i = some x) (hc : x.thread.committed = false)
    (hown : ∀ j, s.cluster.owner f = some j → j = i) : s.decided f = none := by
  rcases ho : s.cluster.owner f with _ | j
  · exact decided_of_none ho
  · rw [decided_of_owner (hown j ho ▸ ho) hx, hc]
    rfl

/-! ## One message -/

/-- The cluster after a follower has moved to another state and another owner of its slot. -/
def Cluster.moved (c : Cluster) (f : Addr) (s : KvServer) (owner : Option ℕ) : Cluster :=
  ⟨Function.update c.followers f s, Function.update c.owner f owner, c.applied⟩

section Moved

variable {k k' : KvServer} {o : Option ℕ} {req : KvRequest} {res : KvResponse}

@[simp] theorem moved_followers : (c.moved f k o).followers f = k := Function.update_self ..

@[simp] theorem moved_owner : (c.moved f k o).owner f = o := Function.update_self ..

theorem moved_of_ne (h : g ≠ f) : (c.moved f k o).followers g = c.followers g ∧
    (c.moved f k o).owner g = c.owner g :=
  ⟨Function.update_of_ne h _ _, Function.update_of_ne h _ _⟩

theorem process_vote (hh : kvserverHandleTpc strhash64 (c.followers f) req = some (k, res))
    (ht : req.type ≠ .commit) (hres : res.type = .vote) :
    c.process strhash64 i f req = some (c.moved f k (some i), res) := by
  simp [Cluster.process, hh, ht, hres, Cluster.moved]

theorem process_refused (hh : kvserverHandleTpc strhash64 (c.followers f) req = some (k, res))
    (ht : req.type ≠ .commit) (hres : res.type = .error) :
    c.process strhash64 i f req = some (c.moved f k (c.owner f), res) := by
  simp [Cluster.process, hh, ht, hres, Cluster.moved]

theorem process_ack (hh : kvserverHandleTpc strhash64 (c.followers f) req = some (k, res))
    (ht : req.type = .commit → (c.followers f).pending.msg.isUpdate = false)
    (hres : res.type = .ack) :
    c.process strhash64 i f req = some (c.moved f k none, res) := by
  have hno : ¬ (req.type = .commit ∧ (c.followers f).pending.msg.isUpdate = true) := fun e => by
    simp [ht e.1] at e
  simp [Cluster.process, hh, hno, hres, Cluster.moved]

theorem process_commit (hh : kvserverHandleTpc strhash64 (c.followers f) req = some (k, res))
    (ht : req.type = .commit) (hslot : (c.followers f).pending.msg.isUpdate = true)
    (hres : res.type = .ack) :
    c.process strhash64 i f req = some ({ c.moved f k none with
      applied := c.applied ++
        [⟨f, c.owner f, (c.followers f).pending, (c.followers f).dir, k.dir⟩] }, res) := by
  simp [Cluster.process, hh, ht, hslot, hres, Cluster.moved]

end Moved

/-- A follower keeps its part of the invariant if neither its store nor what it is bound to apply
changes. -/
theorem FollowerInv.moved (h : FollowerInv strhash64 l s m f) {k : KvServer} {o : Option ℕ}
    (hstore : SameStore (s.cluster.followers f).dir k.dir)
    (hslot : ∀ j, o = some j → ∃ x u, s.txns j = some x ∧ updateOf x.call = some u ∧
      f ∈ l.replicas strhash64 u.key ∧ k.pending = u.slot ∧
      u.Ready strhash64 (s.cluster.followers f).dir)
    (hclean : (∃ a ∈ s.cluster.applied, a.follower = f) → o = none → k.pending = .none)
    (hdecided : TpcSystem.decided { s with cluster := s.cluster.moved f k o } f = s.decided f) :
    FollowerInv strhash64 l { s with cluster := s.cluster.moved f k o } m f where
  wellFormed := by simpa using hstore.wellFormed h.wellFormed
  slot j hj := by
    obtain ⟨x, u, hx, hu, hf, hp, hr⟩ := hslot j (by simpa using hj)
    exact ⟨x, u, hx, hu, hf, by simpa using hp,
      by simpa [Update.ready_congr (hstore.binding h.wellFormed)] using hr⟩
  clean ha ho := by simpa using hclean ha (by simpa using ho)
  view j hj := by
    rw [← h.view j hj]
    simp only [TpcSystem.view, hdecided, moved_followers, hstore.binding h.wellFormed]

theorem Inv.process_update (h : Inv strhash64 l s m) {n a : ℕ}
    (hx : s.txns i = some ⟨call, .phase1 (.at strhash64 l call u.key n a)⟩)
    (hu : updateOf call = some u) (hal : u.Allowed) (hp : Polled strhash64 l s.cluster i u n a)
    (hf : f ∈ l.replicas strhash64 u.key)
    (hguard : ∀ j, s.cluster.owner f = some j → j ≠ i → call.type = .delreq ∧
      kvserverDelCheck strhash64 (s.cluster.followers f).dir call.key ≠ some 0) :
    ∃ c' res, s.cluster.process strhash64 i f call = some (c', res) ∧
      Inv strhash64 l { s with cluster := c' } m ∧ Polled strhash64 l c' i u n a ∧
      (res = ⟨.vote, some msgCommit⟩ ∧ c'.owner f = some i ∨ res.type = .error) := by
  have hF := h.follower f
  have hcommit : call.type ≠ .commit := fun e => by
    have := updateOf_type hu
    rw [e] at this
    cases this
  obtain ⟨k, res, hhandle, hstore, ⟨rfl, hpend, hready, hdel⟩ | ⟨hres, hpend, -, -⟩⟩ :=
    handle_update hF.wellFormed hu
  · have hown : ∀ j, s.cluster.owner f = some j → j = i := fun j hj => by
      by_contra hne
      obtain ⟨ht, hno⟩ := hguard j hj hne
      exact hno (hdel ht)
    have hpolled : Polled strhash64 l (s.cluster.moved f k (some i)) i u n a :=
      ⟨hp.lt, fun ha q hq => by
        by_cases hq' : l.addr (l.walk strhash64 u.key q) = f
        · rw [hq', moved_owner]
        · rw [(moved_of_ne hq').2, hp.votes ha q hq]⟩
    refine ⟨_, _, process_vote hhandle hcommit rfl, ?_, hpolled, .inl ⟨rfl, moved_owner⟩⟩
    refine h.process i (fun g => moved_of_ne) (fun j hj => ?_) (List.Subset.refl _)
      (fun a ha => .inl ha) (hF.moved hstore ?_ (by simp) ?_) fun y hy => ?_
    · rw [moved_owner, Option.some.injEq]
      exact ⟨fun e => absurd e.symm hj, fun e => absurd (hown j e) hj⟩
    · rintro j ⟨⟩
      exact ⟨_, u, hx, hu, hf, hpend, hready hal⟩
    · rw [decided_of_undecided hx rfl hown]
      refine decided_of_undecided (s := { s with cluster := _ }) hx rfl fun j hj => ?_
      simpa [eq_comm] using hj
    · rw [hx, Option.some.injEq] at hy
      subst hy
      exact ⟨u, hu, hal, .phase1 n a hpolled⟩
  · have hown : (s.cluster.moved f k (s.cluster.owner f)).owner = s.cluster.owner :=
      Function.update_eq_self _ _
    refine ⟨_, _, process_refused hhandle hcommit hres, ?_,
      ⟨hp.lt, fun ha q hq => by rw [hown]; exact hp.votes ha q hq⟩, .inr hres⟩
    refine h.process i (fun g => moved_of_ne) (fun j _ => by rw [moved_owner])
      (List.Subset.refl _) (fun a ha => .inl ha) (hF.moved hstore (fun j hj => ?_) (fun ha ho => ?_)
      (by simp only [TpcSystem.decided, hown])) fun y hy => ?_
    · rw [hpend]
      exact hF.slot j hj
    · rw [hpend]
      exact hF.clean ha ho
    · obtain ⟨v, hv, hal', hst⟩ := h.txn i y hy
      exact ⟨v, hv, hal', hst.congr (fun g => by rw [hown]) (List.Subset.refl _)⟩

theorem Told.handled {n a : ℕ} (h : Told strhash64 l c i u n a)
    (hne : ∀ g ≠ f, c'.owner g = c.owner g) (hnone : c'.owner f = none)
    (hsub : c.applied ⊆ c'.applied) (hdone : a = 0 → c'.Done i f) :
    Told strhash64 l c' i u n a where
  lt := h.lt
  clear q hq := by
    by_cases hq' : l.addr (l.walk strhash64 u.key q) = f
    · simp [hq', hnone]
    · rw [hne _ hq']
      exact h.clear q hq
  held ha q hq := by
    by_cases hq' : l.addr (l.walk strhash64 u.key q) = f
    · exact .inr (hq' ▸ hdone ha)
    · rw [hne _ hq']
      exact (h.held ha q hq).imp_right fun hd => hd.mono hsub

/-- A follower clears its slot without applying it: it handles an abort, or finds the slot empty. -/
theorem Inv.process_clear (h : Inv strhash64 l s m) {n a : ℕ}
    (hx : s.txns i = some ⟨call, .phase2 (.at strhash64 l (decision call a) u.key n a)⟩)
    (hu : updateOf call = some u) (hal : u.Allowed) (ht : Told strhash64 l s.cluster i u n a)
    (hguard : ∀ j, s.cluster.owner f = some j → j = i) {k : KvServer}
    (hstore : SameStore (s.cluster.followers f).dir k.dir) (hpk : k.pending = .none)
    (hdone : a = 0 → s.cluster.owner f = none ∧ s.cluster.Done i f) :
    Inv strhash64 l { s with cluster := s.cluster.moved f k none } m ∧
      Told strhash64 l (s.cluster.moved f k none) i u n a := by
  have hmoved : (s.cluster.moved f k none).owner f = none := moved_owner
  have htold : Told strhash64 l (s.cluster.moved f k none) i u n a :=
    ht.handled (fun g hg => (moved_of_ne hg).2) hmoved (List.Subset.refl _)
      fun ha => (hdone ha).2.mono (List.Subset.refl _)
  refine ⟨?_, htold⟩
  refine h.process i (fun g => moved_of_ne) (fun j hj => ?_) (List.Subset.refl _)
    (fun a ha => .inl ha) ((h.follower f).moved hstore (by simp) (fun _ _ => hpk) ?_)
    fun y hy => ?_
  · rw [hmoved]
    exact ⟨fun e => absurd e (by simp), fun e => absurd (hguard j e) hj⟩
  · rw [decided_of_none hmoved]
    rcases Nat.eq_zero_or_pos a with ha | ha
    · rw [decided_of_none (hdone ha).1]
    · rw [decided_of_undecided hx ?_ hguard]
      exact committed_phase2.2 ha
  · rw [hx, Option.some.injEq] at hy
    subst hy
    exact ⟨u, hu, hal, .phase2 n a htold⟩

/-- A follower applies the update its slot holds. -/
theorem Inv.process_apply (h : Inv strhash64 l s m) {n : ℕ}
    (hx : s.txns i = some ⟨call, .phase2 (.at strhash64 l (decision call 0) u.key n 0)⟩)
    (hu : updateOf call = some u) (hal : u.Allowed) (ht : Told strhash64 l s.cluster i u n 0)
    (ho : s.cluster.owner f = some i) {k : KvServer}
    (hslot : (s.cluster.followers f).pending = u.slot) (hpk : k.pending = .none)
    (hwk : WellFormed strhash64 k.dir)
    (hbk : binding strhash64 k.dir = u.apply (binding strhash64 (s.cluster.followers f).dir))
    {a : Applied} (ha : a = ⟨f, s.cluster.owner f, (s.cluster.followers f).pending,
      (s.cluster.followers f).dir, k.dir⟩)
    (hc' : c' = { s.cluster.moved f k none with applied := s.cluster.applied ++ [a] }) :
    Inv strhash64 l { s with cluster := c' } m ∧ Told strhash64 l c' i u n 0 := by
  subst ha hc'
  set a : Applied := ⟨f, s.cluster.owner f, (s.cluster.followers f).pending,
    (s.cluster.followers f).dir, k.dir⟩
  set c' : Cluster := { s.cluster.moved f k none with applied := s.cluster.applied ++ [a] }
  have hmoved : c'.owner f = none := moved_owner (k := k)
  have hfol : c'.followers f = k := moved_followers (o := none)
  have hsub : s.cluster.applied ⊆ c'.applied := List.subset_append_left _ _
  have hne : ∀ g ≠ f, c'.owner g = s.cluster.owner g := fun g hg => (moved_of_ne (k := k) hg).2
  have htold : Told strhash64 l c' i u n 0 := ht.handled hne hmoved hsub fun _ =>
    ⟨a, List.mem_append_right _ (List.mem_singleton_self _), rfl, ho⟩
  refine ⟨?_, htold⟩
  refine h.process i (fun g => moved_of_ne) (fun j hj => ?_) hsub (fun b hb => ?_)
    ⟨by rwa [hfol], fun j hj => ?_, fun _ _ => by rw [hfol, hpk], fun q hq => ?_⟩ fun y hy => ?_
  · rw [hmoved, ho, Option.some.injEq]
    exact ⟨fun e => absurd e (by simp), fun e => absurd e.symm hj⟩
  · rcases List.mem_append.1 hb with hb | hb
    · exact .inl hb
    · rw [List.mem_singleton.1 hb]
      exact .inr ⟨rfl, i, _, u, ho, hx, hu, rfl, hslot, hbk⟩
  · rw [hmoved] at hj
    cases hj
  · have hd : s.decided f = some u := (decided_of_owner ho hx).trans hu
    rw [← (h.follower f).view q hq]
    simp only [TpcSystem.view, hd, decided_of_none (s := { s with cluster := c' }) hmoved, hfol,
      hbk]
  · rw [hx, Option.some.injEq] at hy
    subst hy
    exact ⟨u, hu, hal, .phase2 n 0 htold⟩

/-- A follower handles the decision of a transaction. -/
theorem Inv.process_decision (h : Inv strhash64 l s m) {n a : ℕ}
    (hx : s.txns i = some ⟨call, .phase2 (.at strhash64 l (decision call a) u.key n a)⟩)
    (hu : updateOf call = some u) (hal : u.Allowed) (ht : Told strhash64 l s.cluster i u n a)
    (hf : l.addr (l.walk strhash64 u.key n) = f)
    (hguard : ∀ j, s.cluster.owner f = some j → j = i) :
    ∃ c', s.cluster.process strhash64 i f (decision call a) = some (c', ⟨.ack, none⟩) ∧
      (Inv strhash64 l { s with cluster := c' } m ∧ Told strhash64 l c' i u n a) ∧
      c'.owner f = none := by
  have hF := h.follower f
  rcases Nat.eq_zero_or_pos a with rfl | ha
  · have htype : (decision call 0).type = .commit := rfl
    rcases ho : s.cluster.owner f with _ | j
    · -- the update was applied by an earlier `COMMIT`
      have hd : s.cluster.Done i f := by
        have := ht.held rfl n ht.lt
        rw [hf, ho] at this
        exact this.resolve_left (by simp)
      have hpend : (s.cluster.followers f).pending = .none := by
        obtain ⟨a, ha, hfa, -⟩ := hd
        exact hF.clean ⟨a, ha, hfa⟩ ho
      have hupdate : (s.cluster.followers f).pending.msg.isUpdate = false := by rw [hpend]; rfl
      obtain ⟨k, hhandle, hpk, hstore⟩ := handle_commit_none strhash64 hupdate htype
      exact ⟨_, process_ack hhandle (fun _ => hupdate) rfl,
        h.process_clear hx hu hal ht hguard hstore (hpk.trans hpend) fun _ => ⟨ho, hd⟩, moved_owner⟩
    · obtain rfl : i = j := (hguard j ho).symm
      obtain ⟨y, v, hy, hv, -, hp, hr⟩ := hF.slot i ho
      rw [hx, Option.some.injEq] at hy
      subst hy
      obtain rfl : u = v := by simpa [hu] using hv
      obtain ⟨k, hhandle, hpk, hwk, hbk⟩ := handle_commit_slot hF.wellFormed hp hr htype
      exact ⟨_, process_commit hhandle htype (by rw [hp]; exact slot_isUpdate) rfl,
        h.process_apply hx hu hal ht ho hp hpk hwk hbk rfl rfl, moved_owner (k := k)⟩
  · have htype : (decision call a).type = .abort := by simp [decision, ha]
    obtain ⟨k, hhandle, hpk, hstore⟩ := handle_abort strhash64 (s.cluster.followers f) htype
    exact ⟨_, process_ack hhandle (fun e => by rw [htype] at e; cases e) rfl,
      h.process_clear hx hu hal ht hguard hstore hpk fun e => absurd e ha.ne', moved_owner⟩

/-! ## One exchange -/

theorem Inv.deliver_update (h : Inv strhash64 l s m) (d : Delivery) {n a : ℕ}
    (hx : s.txns i = some ⟨call, .phase1 (.at strhash64 l call u.key n a)⟩)
    (hu : updateOf call = some u) (hal : u.Allowed) (hp : Polled strhash64 l s.cluster i u n a)
    (hf : f ∈ l.replicas strhash64 u.key)
    (hguard : d.processed = true → ∀ j, s.cluster.owner f = some j → j ≠ i →
      call.type = .delreq ∧
        kvserverDelCheck strhash64 (s.cluster.followers f).dir call.key ≠ some 0) :
    ∃ c' con b, s.cluster.deliver strhash64 i f call d = some (c', con) ∧
      Inv strhash64 l { s with cluster := c' } m ∧ Polled strhash64 l c' i u n a ∧
      votesAbort con = some b ∧ (b = false → c'.owner f = some i) := by
  cases d with
  | refused => exact ⟨_, _, true, rfl, h, hp, rfl, by simp⟩
  | dropped => exact ⟨_, _, true, rfl, h, hp, rfl, by simp⟩
  | unanswered =>
    obtain ⟨c', res, hproc, hc, hp', -⟩ := h.process_update hx hu hal hp hf (hguard rfl)
    exact ⟨c', .noReply, true, by simp [Cluster.deliver, hproc], hc, hp', rfl, by simp⟩
  | answered =>
    obtain ⟨c', res, hproc, hc, hp', hres⟩ := h.process_update hx hu hal hp hf (hguard rfl)
    rcases hres with ⟨rfl, ho⟩ | hres
    · exact ⟨c', .reply ⟨.vote, some msgCommit⟩, false, by simp [Cluster.deliver, hproc], hc, hp',
        by simp [votesAbort], fun _ => ho⟩
    · exact ⟨c', .reply res, true, by simp [Cluster.deliver, hproc], hc, hp',
        by simp [votesAbort, hres], by simp⟩

theorem Inv.deliver_decision (h : Inv strhash64 l s m) (d : Delivery) {n a : ℕ}
    (hx : s.txns i = some ⟨call, .phase2 (.at strhash64 l (decision call a) u.key n a)⟩)
    (hu : updateOf call = some u) (hal : u.Allowed) (ht : Told strhash64 l s.cluster i u n a)
    (hf : l.addr (l.walk strhash64 u.key n) = f)
    (hguard : d.processed = true → ∀ j, s.cluster.owner f = some j → j = i) :
    ∃ c' con, s.cluster.deliver strhash64 i f (decision call a) d = some (c', con) ∧
      Inv strhash64 l { s with cluster := c' } m ∧ Told strhash64 l c' i u n a ∧
      (acked con = true → c'.owner f = none) := by
  cases d with
  | refused => exact ⟨_, _, rfl, h, ht, by simp [acked]⟩
  | dropped => exact ⟨_, _, rfl, h, ht, by simp [acked]⟩
  | unanswered =>
    obtain ⟨c', hproc, ⟨hc, ht'⟩, -⟩ := h.process_decision hx hu hal ht hf (hguard rfl)
    exact ⟨c', .noReply, by simp [Cluster.deliver, hproc], hc, ht', by simp [acked]⟩
  | answered =>
    obtain ⟨c', hproc, ⟨hc, ht'⟩, ho⟩ := h.process_decision hx hu hal ht hf (hguard rfl)
    exact ⟨c', .reply ⟨.ack, none⟩, by simp [Cluster.deliver, hproc], hc, ht', fun _ => ho⟩

/-- The system after a transaction's thread has moved on. -/
def TpcSystem.moved (s : TpcSystem) (i : ℕ) (call : KvRequest) (thread : TpcThread) : TpcSystem :=
  { s with txns := Function.update s.txns i (some ⟨call, thread⟩) }

@[simp] theorem txns_moved_self :
    (s.moved i call thread).txns i = some ⟨call, thread⟩ := Function.update_self ..

theorem txns_moved_of_ne (h : j ≠ i) : (s.moved i call thread).txns j = s.txns j :=
  Function.update_of_ne h _ _

/-- Other transactions stay, and a commit once decided stays decided. -/
theorem txns_moved (hx : s.txns i = some x)
    (hc : x.thread.committed = true → thread.committed = true) {y : Txn} (hy : s.txns j = some y) :
    ∃ z, (s.moved i x.call thread).txns j = some z ∧ z.call = y.call ∧
      (y.thread.committed = true → z.thread.committed = true) := by
  by_cases hj : j = i
  · subst hj
    rw [hx, Option.some.injEq] at hy
    subst hy
    exact ⟨_, txns_moved_self, rfl, hc⟩
  · exact ⟨y, by rw [txns_moved_of_ne hj, hy], rfl, id⟩

theorem Attributed.moved {a : Applied} (h : Attributed strhash64 s a) (hx : s.txns i = some x)
    (hc : x.thread.committed = true → thread.committed = true) :
    Attributed strhash64 (s.moved i x.call thread) a := by
  obtain ⟨j, y, u, ho, hy, hu, hcy, hslot, hb⟩ := h
  obtain ⟨z, hz, hcall, hcz⟩ := txns_moved hx hc hy
  exact ⟨j, z, u, ho, hz, hcall ▸ hu, hcz hcy, hslot, hb⟩

/-- The invariant of a system whose thread `i` has moved on, up to what the stores will hold. -/
theorem Inv.moved (h : Inv strhash64 l s m) {m' : CStr → Option CStr} (hx : s.txns i = some x)
    (hc : x.thread.committed = true → thread.committed = true)
    (hst : ∃ u, updateOf x.call = some u ∧ u.Allowed ∧
      Stands strhash64 l s.cluster i x.call u thread)
    (hview : ∀ f k, f ∈ l.replicas strhash64 k → (s.moved i x.call thread).view strhash64 f k = m' k) :
    Inv strhash64 l (s.moved i x.call thread) m' where
  follower f := by
    refine ⟨(h.follower f).wellFormed, fun j hj => ?_, (h.follower f).clean, fun k => hview f k⟩
    obtain ⟨y, u, hy, hu, hrest⟩ := (h.follower f).slot j hj
    obtain ⟨z, hz, hcall, -⟩ := txns_moved hx hc hy
    exact ⟨z, u, hz, hcall ▸ hu, hrest⟩
  txn j y hy := by
    by_cases hj : j = i
    · subst hj
      rw [txns_moved_self, Option.some.injEq] at hy
      subst hy
      exact hst
    · rw [txns_moved_of_ne hj] at hy
      exact h.txn j y hy
  applied a ha := (h.applied a ha).moved hx hc

/-- What a follower is bound to apply changes only if its slot's transaction is decided. -/
theorem decided_moved (hx : s.txns i = some x)
    (h : thread.committed = x.thread.committed ∨ s.cluster.owner f ≠ some i) :
    (s.moved i x.call thread).decided f = s.decided f := by
  rcases ho : s.cluster.owner f with _ | j
  · rw [decided_of_none ho, decided_of_none (s := s.moved i x.call thread) ho]
  · by_cases hj : j = i
    · subst hj
      rw [decided_of_owner ho hx,
        decided_of_owner (s := s.moved j x.call thread) ho txns_moved_self, h.resolve_right fun e => e ho]
    · simp only [TpcSystem.decided, TpcSystem.moved, ho, Option.bind_eq_bind, Option.bind_some,
        Function.update_of_ne hj]

theorem Inv.advance (h : Inv strhash64 l s m) (hx : s.txns i = some x)
    (hu : updateOf x.call = some u) (hal : u.Allowed)
    (hst : Stands strhash64 l s.cluster i x.call u thread)
    (hc : thread.committed = x.thread.committed) : Inv strhash64 l (s.moved i x.call thread) m :=
  h.moved hx (fun e => hc ▸ e) ⟨u, hu, hal, hst⟩ fun f k hf => by
    rw [← (h.follower f).view k hf]
    simp only [TpcSystem.view, decided_moved hx (.inl hc)]
    rfl

/-- With the decision to commit, the map takes the update. -/
theorem Inv.decide (h : Inv strhash64 l s m) (hx : s.txns i = some x)
    (hu : updateOf x.call = some u) (hal : u.Allowed)
    (hst : Stands strhash64 l s.cluster i x.call u thread) (h0 : x.thread.committed = false)
    (h1 : thread.committed = true)
    (hall : ∀ f ∈ l.replicas strhash64 u.key, s.cluster.owner f = some i) :
    Inv strhash64 l (s.moved i x.call thread) (u.apply m) :=
  h.moved hx (fun _ => h1) ⟨u, hu, hal, hst⟩ fun f k hf => by
    have hview := (h.follower f).view k hf
    have happly : ∀ {b : CStr → Option CStr}, b k = m k → u.apply b k = u.apply m k := fun hb => by
      simp only [Update.apply, Function.update_apply, hb]
    by_cases ho : s.cluster.owner f = some i
    · have hd : s.decided f = none := by rw [decided_of_owner ho hx, h0]; rfl
      have hd' : (s.moved i x.call thread).decided f = some u := by
        rw [decided_of_owner (s := s.moved i x.call thread) ho txns_moved_self, h1]
        exact hu
      simp only [TpcSystem.view, hd] at hview
      simp only [TpcSystem.view, hd']
      exact happly hview
    · have hk : k ≠ u.key := fun e => ho (hall f (e ▸ hf))
      have hm : u.apply m k = m k := Function.update_of_ne hk _ _
      rw [hm, ← hview]
      simp only [TpcSystem.view, decided_moved hx (.inr ho)]
      rfl

/-- An undecided update that a replica is ready for makes sense on the map. -/
theorem Inv.applicable (h : Inv strhash64 l s m) (hx : s.txns i = some x)
    (hu : updateOf x.call = some u) (hc : x.thread.committed = false)
    (hf : f ∈ l.replicas strhash64 u.key) (ho : s.cluster.owner f = some i) : u.Applicable m := by
  obtain ⟨y, v, hy, hv, -, -, hr⟩ := (h.follower f).slot i ho
  rw [hx, Option.some.injEq] at hy
  subst hy
  obtain rfl : u = v := by simpa [hu] using hv
  have hview := (h.follower f).view u.key hf
  have hd : s.decided f = none := by rw [decided_of_owner ho hx, hc]; rfl
  simp only [TpcSystem.view, hd] at hview
  cases u with
  | put k w => exact fun e => by cases e
  | del k => exact fun _ => hview ▸ hr.2

theorem Inv.receive_phase1 (hs : l.Serves strhash64) (h : Inv strhash64 l s m) {n a : ℕ}
    (hx : s.txns i = some ⟨call, .phase1 (.at strhash64 l call u.key n a)⟩)
    (hu : updateOf call = some u) (hal : u.Allowed) (hp : Polled strhash64 l s.cluster i u n a)
    {con : Contact} {b : Bool} (hb : votesAbort con = some b)
    (hvote : b = false → s.cluster.owner (l.addr (l.walk strhash64 u.key n)) = some i) :
    ∃ thread, (TpcThread.phase1 (.at strhash64 l call u.key n a)).receive strhash64 l con
        = some thread ∧
      (thread.committed = false ∧ Inv strhash64 l (s.moved i call thread) m ∨
        thread.committed = true ∧ u.Applicable m ∧
          Inv strhash64 l (s.moved i call thread) (u.apply m)) := by
  refine ⟨_, Cs162.receive_phase1 hs hu hp.lt hb, ?_⟩
  have hvotes : (if b then a + 1 else a) = 0 → ∀ q < n + 1,
      s.cluster.owner (l.addr (l.walk strhash64 u.key q)) = some i := by
    intro ha q hq
    cases b with
    | true => simp at ha
    | false =>
      rcases Nat.lt_succ_iff_lt_or_eq.1 hq with hq | rfl
      · exact hp.votes (by simpa using ha) q hq
      · exact hvote rfl
  generalize (if b then a + 1 else a) = a' at hvotes ⊢
  by_cases hn : n + 1 < l.redundancy.toNat
  · rw [if_pos hn]
    exact .inl ⟨rfl, h.advance hx hu hal (.phase1 (n + 1) a' ⟨hn, hvotes⟩) rfl⟩
  · rw [if_neg hn]
    have hr : l.redundancy.toNat = n + 1 := by
      have := hp.lt
      omega
    have htold : Told strhash64 l s.cluster i u 0 a' :=
      ⟨hs.pos, fun q hq => absurd hq (by omega), fun ha q hq => .inl (hvotes ha q (by omega))⟩
    rcases Nat.eq_zero_or_pos a' with rfl | ha
    · have hall : ∀ f ∈ l.replicas strhash64 u.key, s.cluster.owner f = some i := fun f hf => by
        obtain ⟨q, hq, rfl⟩ := (TpcLeader.mem_replicas hs).1 hf
        exact hvotes rfl q (by omega)
      have hf : l.addr (l.walk strhash64 u.key n) ∈ l.replicas strhash64 u.key :=
        (TpcLeader.mem_replicas hs).2 ⟨n, hp.lt, rfl⟩
      exact .inr ⟨rfl, h.applicable hx hu rfl hf (hall _ hf),
        h.decide hx hu hal (.phase2 0 0 htold) rfl rfl hall⟩
    · have hc : (TpcThread.phase2 (.at strhash64 l (decision call a') u.key 0 a')).committed
          = false := committed_phase2.2 ha
      exact .inl ⟨hc, h.advance hx hu hal (.phase2 0 a' htold) hc⟩

theorem Inv.receive_phase2 (hs : l.Serves strhash64) (h : Inv strhash64 l s m) {n a : ℕ}
    (hx : s.txns i = some ⟨call, .phase2 (.at strhash64 l (decision call a) u.key n a)⟩)
    (hu : updateOf call = some u) (hal : u.Allowed) (ht : Told strhash64 l s.cluster i u n a)
    {con : Contact}
    (hack : acked con = true → s.cluster.owner (l.addr (l.walk strhash64 u.key n)) = none) :
    ∃ thread, (TpcThread.phase2 (.at strhash64 l (decision call a) u.key n a)).receive strhash64 l
        con = some thread ∧
      thread.committed
        = (TpcThread.phase2 (.at strhash64 l (decision call a) u.key n a)).committed ∧
      Inv strhash64 l (s.moved i call thread) m := by
  refine ⟨_, Cs162.receive_phase2 hs ht.lt, ?_⟩
  by_cases hcon : acked con = true
  · rw [if_pos hcon]
    have hclear : ∀ q < n + 1, s.cluster.owner (l.addr (l.walk strhash64 u.key q)) ≠ some i := by
      intro q hq
      rcases Nat.lt_succ_iff_lt_or_eq.1 hq with hq | rfl
      · exact ht.clear q hq
      · simp [hack hcon]
    by_cases hn : n + 1 < l.redundancy.toNat
    · rw [if_pos hn]
      exact ⟨rfl, h.advance hx hu hal (.phase2 (n + 1) a ⟨hn, hclear, ht.held⟩) rfl⟩
    · rw [if_neg hn]
      have hclear' : ∀ f, s.cluster.owner f ≠ some i := fun f ho => by
        obtain ⟨y, v, hy, hv, hf, -⟩ := (h.follower f).slot i ho
        rw [hx, Option.some.injEq] at hy
        subst hy
        obtain rfl : u = v := by simpa [hu] using hv
        obtain ⟨q, hq, rfl⟩ := (TpcLeader.mem_replicas hs).1 hf
        exact hclear q (by omega) ho
      rcases Nat.eq_zero_or_pos a with rfl | ha
      · refine ⟨rfl, h.advance hx hu hal (.success hclear' fun f hf => ?_) rfl⟩
        obtain ⟨q, hq, rfl⟩ := (TpcLeader.mem_replicas hs).1 hf
        exact (ht.held rfl q hq).resolve_left (hclear' _)
      · have hc : (TpcThread.ended ⟨.error, some errmsgGenericError⟩).committed
            = (TpcThread.phase2 (.at strhash64 l (decision call a) u.key n a)).committed := by
          rw [committed_phase2.2 ha]
          rfl
        rw [if_pos ha]
        exact ⟨hc, h.advance hx hu hal (.error hclear') hc⟩
  · rw [if_neg hcon]
    exact ⟨rfl, h.advance hx hu hal (.phase2 n a ht) rfl⟩

variable (strhash64 l) in
/-- What an exchange of transaction `i` comes to: nothing, or a move of its thread that leaves the
map alone or decides a commit. -/
def Exchanged (s s' : TpcSystem) (i : ℕ) (m : CStr → Option CStr) : Prop :=
  s' = s ∨ ∃ x thread u, s.txns i = some x ∧ updateOf x.call = some u ∧
    s'.txns = (s.moved i x.call thread).txns ∧
    (thread.committed = x.thread.committed ∧ Inv strhash64 l s' m ∨
      x.thread.committed = false ∧ thread.committed = true ∧ u.Applicable m ∧
        Inv strhash64 l s' (u.apply m))

theorem exchange_eq {x : Txn} {t : TpcLocals} {d : Delivery} {c' : Cluster} {con : Contact}
    {thread : TpcThread} (hx : s.txns i = some x) (ht : x.thread.locals = some t)
    (hdel : s.cluster.deliver strhash64 i (l.addr t.currFollower) t.req d = some (c', con))
    (hrec : x.thread.receive strhash64 l con = some thread) :
    s.exchange strhash64 l i d
      = some (TpcSystem.moved { s with cluster := c' } i x.call thread) := by
  simp only [TpcSystem.exchange, hx, ht, Option.bind_eq_bind, hdel, Option.bind_some, hrec]
  rfl

/-- A guarded exchange reads through no bad pointer and keeps the invariant. -/
theorem Inv.exchange (hs : l.Serves strhash64) (h : Inv strhash64 l s m) (d : Delivery)
    (hg : s.Guarded strhash64 l i d) :
    ∃ s', s.exchange strhash64 l i d = some s' ∧ Exchanged strhash64 l s s' i m := by
  rcases hx : s.txns i with _ | ⟨call, thread⟩
  · exact ⟨s, by simp [TpcSystem.exchange, hx], .inl rfl⟩
  obtain ⟨u, hu, hal, hst⟩ := h.txn i _ hx
  simp only at hu hst
  cases hst with
  | phase1 n a hp =>
    obtain ⟨c', con, b, hdel, hinv, hp', hb, hvote⟩ := h.deliver_update d hx hu hal hp
      ((TpcLeader.mem_replicas hs).2 ⟨n, hp.lt, rfl⟩) (hg _ _ hx rfl)
    obtain ⟨thread', hrec, hres⟩ := hinv.receive_phase1 hs hx hu hal hp' hb hvote
    refine ⟨_, exchange_eq hx rfl hdel hrec, .inr ⟨_, thread', u, hx, hu, rfl, ?_⟩⟩
    exact hres.imp_right fun hr => ⟨rfl, hr⟩
  | phase2 n a ht =>
    obtain ⟨c', con, hdel, hinv, ht', hack⟩ := h.deliver_decision d hx hu hal ht rfl
      fun hd j hj => by
        by_contra hne
        have := (hg _ _ hx rfl hd j hj hne).1
        simp only [TpcLocals.at, decision] at this
        split_ifs at this
    obtain ⟨thread', hrec, hc, hres⟩ := hinv.receive_phase2 hs hx hu hal ht' hack
    refine ⟨_, exchange_eq hx rfl hdel hrec, .inr ⟨_, thread', u, hx, hu, rfl, .inl ⟨hc, hres⟩⟩⟩
  | success => exact ⟨s, by simp [TpcSystem.exchange, hx, TpcThread.locals], .inl rfl⟩
  | error => exact ⟨s, by simp [TpcSystem.exchange, hx, TpcThread.locals], .inl rfl⟩

theorem Inv.start (hs : l.Serves strhash64) (h : Inv strhash64 l s m) (i : ℕ) {req : KvRequest}
    (hu : updateOf req = some u) (hal : u.Allowed) :
    ∃ s', s.start strhash64 l i req = some s' ∧ Inv strhash64 l s' m ∧
      s'.cluster = s.cluster ∧ (s.txns i = none →
        s'.txns = (s.moved i req (.phase1 (.at strhash64 l req u.key 0 0))).txns) := by
  by_cases hi : (s.txns i).isSome
  · exact ⟨s, by simp [TpcSystem.start, hi], h, rfl, fun e => by simp [e] at hi⟩
  have hnone : s.txns i = none := by simpa using hi
  refine ⟨s.moved i req (.phase1 (.at strhash64 l req u.key 0 0)), by
    simp [TpcSystem.start, hi, handleTpc_start hs hu, TpcSystem.moved], ?_, rfl, fun _ => rfl⟩
  have hfree : ∀ f, s.cluster.owner f ≠ some i := fun f ho => by
    obtain ⟨x, -, hx, -⟩ := (h.follower f).slot i ho
    simp [hnone] at hx
  have htxns : ∀ {j y}, s.txns j = some y →
      (s.moved i req (.phase1 (.at strhash64 l req u.key 0 0))).txns j = some y := fun {j y} hy => by
    rw [txns_moved_of_ne, hy]
    rintro rfl
    simp [hnone] at hy
  refine ⟨fun f => ⟨(h.follower f).wellFormed, fun j hj => ?_, (h.follower f).clean, fun k hk => ?_⟩,
    fun j y hy => ?_, fun a ha => ?_⟩
  · obtain ⟨x, v, hx, hrest⟩ := (h.follower f).slot j hj
    exact ⟨x, v, htxns hx, hrest⟩
  · rw [← (h.follower f).view k hk]
    rcases ho : s.cluster.owner f with _ | j
    · simp [TpcSystem.view, TpcSystem.decided, TpcSystem.moved, ho]
    · have hj : j ≠ i := fun e => hfree f (e ▸ ho)
      simp only [TpcSystem.view, TpcSystem.decided, TpcSystem.moved, ho, Option.bind_eq_bind,
        Option.bind_some, Function.update_of_ne hj]
  · by_cases hj : j = i
    · subst hj
      rw [txns_moved_self, Option.some.injEq] at hy
      subst hy
      exact ⟨u, hu, hal, .phase1 0 0 ⟨hs.pos, fun _ q hq => absurd hq (by omega)⟩⟩
    · rw [txns_moved_of_ne hj] at hy
      exact h.txn j y hy
  · obtain ⟨j, y, v, ho, hy, hrest⟩ := h.applied a ha
    exact ⟨j, y, v, ho, htxns hy, hrest⟩

end Cs162
