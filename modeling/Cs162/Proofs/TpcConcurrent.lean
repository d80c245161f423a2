import Cs162.Proofs.TpcSystem

/-!
# Transactions side by side

A follower has one pending slot, which says nothing about the transaction that filled it, and the
leader holds no lock across the two phases. So a second transaction's message may overwrite or clear
the update a first one was promised. As long as no follower handles such a message, every
transaction that is answered `SUCCESS` was applied on each of its replicas, one that is answered
`ERROR` nowhere, and the replicas of a key agree (`run_sound`).
-/

namespace Cs162

open CLib

variable (strhash64 : CStr → UInt64) (l : TpcLeader)

/-- A request is taken up for an update within the limits. -/
def TpcEvent.Allowed : TpcEvent → Prop
  | start _ req => ∃ u, updateOf req = some u ∧ u.Allowed
  | exchange _ _ => True

/-- The exchanges of a run are all guarded. -/
def GuardedRun : TpcSystem → List TpcEvent → Prop
  | _, [] => True
  | s, e :: es => (∀ i d, e = .exchange i d → s.Guarded strhash64 l i d) ∧
      ∀ s', s.step strhash64 l e = some s' → GuardedRun s' es

instance decidableGuardedRun : ∀ (es : List TpcEvent) (s : TpcSystem),
    Decidable (GuardedRun strhash64 l s es)
  | [], _ => isTrue trivial
  | e :: es, s =>
    have : Decidable (∀ i d, e = .exchange i d → s.Guarded strhash64 l i d) :=
      match e with
      | .start _ _ => isTrue nofun
      | .exchange i d => decidable_of_iff (s.Guarded strhash64 l i d)
          ⟨fun h _ _ e => by cases e; exact h, fun h => h i d rfl⟩
    have := decidableGuardedRun es
    inferInstanceAs (Decidable (_ ∧
      ∀ s' ∈ s.step strhash64 l e, GuardedRun strhash64 l s' es))

/-- Transactions answered `SUCCESS` were applied on each of their replicas, those answered `ERROR`
on none, and once all are answered, the replicas of a key agree on it. -/
structure Sound (s : TpcSystem) : Prop where
  success : ∀ i x u res, s.txns i = some x → updateOf x.call = some u →
    x.thread.response = some res → res.type = .success → ∀ f ∈ l.replicas strhash64 u.key,
      ∃ a ∈ s.cluster.applied, a.follower = f ∧ a.owner = some i ∧ a.slot = u.slot ∧
        binding strhash64 a.after = u.apply (binding strhash64 a.before)
  error : ∀ i x res, s.txns i = some x → x.thread.response = some res → res.type = .error →
    ∀ a ∈ s.cluster.applied, a.owner ≠ some i
  agree : (∀ i x, s.txns i = some x → x.thread.response.isSome) → ∀ k,
    ∀ f ∈ l.replicas strhash64 k, ∀ g ∈ l.replicas strhash64 k,
      binding strhash64 (s.cluster.followers f).dir k
        = binding strhash64 (s.cluster.followers g).dir k

/-- Well-formed stores that agree on every key among its replicas. -/
def Agree (followers : Addr → KvServer) : Prop :=
  (∀ f, WellFormed strhash64 (followers f).dir) ∧ ∀ k,
    ∀ f ∈ l.replicas strhash64 k, ∀ g ∈ l.replicas strhash64 k,
      binding strhash64 (followers f).dir k = binding strhash64 (followers g).dir k

variable {strhash64} {l} {s : TpcSystem} {m : CStr → Option CStr}

/-- Followers that agree hold one map. -/
theorem Agree.inv {followers : Addr → KvServer} (h : Agree strhash64 l followers) :
    ∃ m, Inv strhash64 l (.init followers) m := by
  classical
  refine ⟨fun k => if hk : ∃ f, f ∈ l.replicas strhash64 k
    then binding strhash64 (followers hk.choose).dir k else none, .init h.1 fun k f hf => ?_⟩
  have hex : ∃ f, f ∈ l.replicas strhash64 k := ⟨f, hf⟩
  rw [dif_pos hex]
  exact h.2 k f hf _ hex.choose_spec

theorem Inv.step (hs : l.Serves strhash64) (h : Inv strhash64 l s m) {e : TpcEvent}
    (hal : e.Allowed) (hg : ∀ i d, e = .exchange i d → s.Guarded strhash64 l i d) :
    ∃ s' m', s.step strhash64 l e = some s' ∧ Inv strhash64 l s' m' := by
  cases e with
  | start i req =>
    obtain ⟨u, hu, hu'⟩ := hal
    obtain ⟨s', hstart, hinv, -⟩ := h.start hs i hu hu'
    exact ⟨s', m, hstart, hinv⟩
  | exchange i d =>
    obtain ⟨s', hex, rfl | ⟨x, thread, u, -, -, -, ⟨-, hinv⟩ | ⟨-, -, -, hinv⟩⟩⟩ :=
      h.exchange hs d (hg i d rfl)
    · exact ⟨s', m, hex, h⟩
    · exact ⟨s', m, hex, hinv⟩
    · exact ⟨s', u.apply m, hex, hinv⟩

theorem Inv.run (hs : l.Serves strhash64) : ∀ {es : List TpcEvent} {s : TpcSystem}
    {m : CStr → Option CStr}, Inv strhash64 l s m → (∀ e ∈ es, e.Allowed) →
    GuardedRun strhash64 l s es → ∃ s' m', s.run strhash64 l es = some s' ∧ Inv strhash64 l s' m'
  | [], s, m, h, _, _ => ⟨s, m, rfl, h⟩
  | e :: es, s, m, h, hal, hg => by
    obtain ⟨s₁, m₁, hstep, h₁⟩ := h.step hs (hal e List.mem_cons_self) hg.1
    obtain ⟨s', m', hrun, h'⟩ := h₁.run hs (fun e' he => hal e' (List.mem_cons_of_mem _ he))
      (hg.2 s₁ hstep)
    exact ⟨s', m', by simp [TpcSystem.run, hstep, hrun], h'⟩

/-- The invariant says of transactions that are over what is asked of them. -/
theorem Inv.sound (h : Inv strhash64 l s m) : Sound strhash64 l s where
  success i x u res hx hu hres htype f hf := by
    obtain ⟨v, hv, -, hst⟩ := h.txn i x hx
    obtain rfl : u = v := by simpa [hu] using hv
    generalize x.thread = thread at hst hres
    cases hst with
    | phase1 => cases hres
    | phase2 => cases hres
    | success hclear hdone =>
      obtain ⟨a, ha, haf, ho⟩ := hdone f hf
      obtain ⟨j, y, w, ho', hy, hw, -, hslot, hb⟩ := h.applied a ha
      obtain rfl : i = j := by simpa [ho] using ho'
      rw [hx, Option.some.injEq] at hy
      subst hy
      obtain rfl : u = w := by simpa [hu] using hw
      exact ⟨a, ha, haf, ho, hslot, hb⟩
    | error hclear =>
      simp only [TpcThread.response, Option.some.injEq] at hres
      rw [← hres] at htype
      cases htype
  error i x res hx hres htype a ha ho := by
    obtain ⟨j, y, u, ho', hy, -, hc, -⟩ := h.applied a ha
    obtain rfl : i = j := by simpa [ho] using ho'
    rw [hx, Option.some.injEq] at hy
    subst hy
    rcases ht : x.thread with t | t | res' <;> rw [ht] at hres hc
    · cases hres
    · cases hres
    · simp only [TpcThread.response, Option.some.injEq] at hres
      simp [TpcThread.committed, hres, htype] at hc
  agree hall k f hf g hg := by
    have hfree : ∀ f, s.cluster.owner f = none := fun f => by
      rcases ho : s.cluster.owner f with _ | i
      · rfl
      obtain ⟨x, u, hx, -⟩ := (h.follower f).slot i ho
      have hover := hall i x hx
      rw [h.not_ended ho hx] at hover
      cases hover
    have hview : ∀ f ∈ l.replicas strhash64 k,
        binding strhash64 (s.cluster.followers f).dir k = m k := fun f hf => by
      have := (h.follower f).view k hf
      rwa [TpcSystem.view, decided_of_none (hfree f)] at this
    rw [hview f hf, hview g hg]

/-- In every run in which no follower handles a message of one transaction that changes its slot
while another transaction owns it, transactions are sound. -/
theorem run_sound {mem : TpcLeader} {capacity redundancy : UInt32} {regs : List KvRequest}
    (hreg : registerAll strhash64 (tpcleaderInit mem capacity redundancy) regs = some l)
    (hcap : l.followerCount = l.followerCapacity) (hpos : 1 ≤ l.redundancy.toNat)
    (hmax : l.redundancy.toNat < 2 ^ 31) {followers : Addr → KvServer}
    (hagree : Agree strhash64 l followers) {es : List TpcEvent} (hal : ∀ e ∈ es, e.Allowed)
    (hg : GuardedRun strhash64 l (.init followers) es) :
    ∃ s, TpcSystem.run strhash64 l (.init followers) es = some s ∧ Sound strhash64 l s := by
  obtain ⟨m, hinv⟩ := hagree.inv
  obtain ⟨s, m', hrun, h⟩ := hinv.run (TpcLeader.serves hreg hcap hpos hmax) hal hg
  exact ⟨s, hrun, h.sound⟩

/-- Three transactions side by side, with a follower that belongs to all. The second one cannot reach
its other follower and has its update given up before the first one fills the slot they share. The
third one asks to delete a key that is not there while the slot is filled. A `COMMIT` of the first
one is handled twice. -/
def sharedFollower : List TpcEvent :=
  [.start 0 (putRequest "a" "x"), .start 1 (putRequest "1" "y"), .exchange 0 .answered,
    .exchange 1 .answered, .exchange 1 .refused, .exchange 1 .answered, .exchange 0 .answered,
    .start 2 ⟨.delreq, some (.ofString "1"), none⟩, .exchange 2 .answered, .exchange 2 .answered,
    .exchange 0 .unanswered, .exchange 1 .answered, .exchange 0 .answered, .exchange 0 .answered,
    .exchange 2 .answered, .exchange 2 .answered]

theorem run_sound_sharedFollower :
    ∃ s, TpcSystem.run firstByte (trioLeader 2) (.init emptyFollowers) sharedFollower = some s ∧
      Sound firstByte (trioLeader 2) s ∧
      s.cluster.applied.map (·.owner) = [some 0, some 0] ∧
      [0, 1, 2].map (fun i => (s.txns i).bind (·.thread.response)) = [some ⟨.success, none⟩,
        some ⟨.error, some errmsgGenericError⟩, some ⟨.error, some errmsgGenericError⟩] := by
  obtain ⟨s, hrun, hsound⟩ := run_sound (trioLeader_registered 2) (by decide +kernel)
    (by decide +kernel) (by decide +kernel)
    (⟨fun _ => wellFormed_emptyDir, fun _ _ _ _ _ => rfl⟩ :
      Agree firstByte (trioLeader 2) emptyFollowers)
    (show ∀ e ∈ sharedFollower, e.Allowed by
      simp [sharedFollower, TpcEvent.Allowed, updateOf, putRequest, Update.Allowed]
      decide) (by decide +kernel)
  have hend : (TpcSystem.run firstByte (trioLeader 2) (.init emptyFollowers) sharedFollower).map
      (fun s => (s.cluster.applied.map (·.owner),
        [0, 1, 2].map fun i => (s.txns i).bind (·.thread.response)))
      = some ([some 0, some 0], [some ⟨.success, none⟩, some ⟨.error, some errmsgGenericError⟩,
          some ⟨.error, some errmsgGenericError⟩]) := by
    decide +kernel
  rw [hrun, Option.map_some, Option.some.injEq, Prod.mk.injEq] at hend
  exact ⟨s, hrun, hsound, hend⟩

/-- Two transactions: both are voted for, and then both are committed. -/
def twoPutEvents : List TpcEvent :=
  [.start 0 (putRequest "a" "x"), .start 1 (putRequest "b" "y"), .exchange 0 .answered,
    .exchange 1 .answered, .exchange 0 .answered, .exchange 1 .answered]

/-- The first `COMMIT` then applies the second update, and the second `COMMIT` nothing. -/
theorem twoPutEvents_not_sound :
    ¬ ∀ (strhash64 : CStr → UInt64) (mem l : TpcLeader) (capacity redundancy : UInt32)
        (regs : List KvRequest) (followers : Addr → KvServer) (es : List TpcEvent),
      registerAll strhash64 (tpcleaderInit mem capacity redundancy) regs = some l →
      l.followerCount = l.followerCapacity → 1 ≤ l.redundancy.toNat →
      Agree strhash64 l followers → (∀ e ∈ es, e.Allowed) →
      (∀ i req, TpcEvent.start i req ∈ es → i < 2) →
      (∀ i d, TpcEvent.exchange i d ∈ es → d = .answered) →
      ∃ s, TpcSystem.run strhash64 l (.init followers) es = some s ∧ Sound strhash64 l s := by
  intro hall
  obtain ⟨s, hrun, hsound⟩ := hall (fun _ => 0) blankLeader soloLeader 1 1 [soloRegister]
    emptyFollowers twoPutEvents soloLeader_registered rfl (by decide)
    ⟨fun _ => wellFormed_emptyDir, fun _ _ _ _ _ => rfl⟩
    (by simp [twoPutEvents, TpcEvent.Allowed, updateOf, putRequest, Update.Allowed]; decide)
    (by simp [twoPutEvents]; omega)
    (by simp only [twoPutEvents, List.mem_cons, reduceCtorEq, TpcEvent.exchange.injEq]; tauto)
  have hend : (TpcSystem.run (fun _ => 0) soloLeader (.init emptyFollowers) twoPutEvents).map
      (fun s => (s.cluster.applied.map (·.owner),
        (s.txns 0).map fun x => (x.call, x.thread.response)))
      = some ([some 1], some (putRequest "a" "x", some ⟨.success, none⟩)) := by decide +kernel
  rw [hrun, Option.map_some, Option.some.injEq, Prod.mk.injEq, Option.map_eq_some_iff] at hend
  obtain ⟨howner, x, hx, hx'⟩ := hend
  obtain ⟨hcall, hres⟩ := Prod.mk.inj hx'
  obtain ⟨a, ha, -, ho, -⟩ := hsound.success 0 x (.put (.ofString "a") (.ofString "x")) _ hx
    (by rw [hcall]; rfl) hres rfl ⟨.ofString "h", 16201⟩ (by decide)
  have := List.mem_map_of_mem (f := (·.owner)) ha
  rw [howner, ho] at this
  simp at this

end Cs162
