import Mathlib.Data.Nat.Digits.Defs
import Cs162.Proofs.TpcSystem

/-!
# Clients one after the other

For clients that are served one after the other the leader and its followers are one map
(`Refines`), whatever replies are lost and however often the messages of phase 2 are repeated: no
transaction finds another's update in a slot. The `int` that counts the replicas limits this to a
redundancy of at most `INT_MAX`; beyond, both loops are skipped and every update is answered
`SUCCESS` without being sent (`serveAll_refines_iff`).
-/

namespace Cs162

open CLib

variable (strhash64 : CStr → UInt64) (l : TpcLeader)

/-- The map a call leaves. -/
def Visit.apply (v : Visit) (m : CStr → Option CStr) : CStr → Option CStr :=
  if v.res.type = .success then
    match updateOf v.req with
    | some u => u.apply m
    | none => m
  else m

/-- What a call does, as seen from a map: an update is answered `SUCCESS` only if each of the key's
replicas took it, and `ERROR` only if no store changed; a `GET` is answered from the map; and
afterwards every replica holds what the map says. -/
structure Visit.Good (v : Visit) (m : CStr → Option CStr) : Prop where
  answered : ∀ u, updateOf v.req = some u → v.res.type = .success ∨ v.res.type = .error
  success : ∀ u, updateOf v.req = some u → v.res.type = .success →
    ∀ f ∈ l.replicas strhash64 u.key,
      (u.value = none → binding strhash64 (v.before f).dir u.key ≠ none) ∧
        binding strhash64 (v.after f).dir u.key = u.value
  error : ∀ u, updateOf v.req = some u → v.res.type = .error →
    ∀ f, SameStore (v.before f).dir (v.after f).dir
  get : ∀ k, v.req.type = .getreq → v.req.key = some k → v.res = getAnswer (m k)
  replicas : ∀ k, ∀ f ∈ l.replicas strhash64 k, binding strhash64 (v.after f).dir k = v.apply m k

/-- A run of calls as a run of one map. -/
def Refines : (CStr → Option CStr) → List Visit → Prop
  | _, [] => True
  | m, v :: vs => v.Good strhash64 l m ∧ Refines (v.apply m) vs

/-- A `PUT` within the limits, a `DELETE` or a `GET`. -/
def ClientCall.Allowed : ClientCall → Prop
  | update req _ => ∃ u, updateOf req = some u ∧ u.Allowed
  | get req _ => req.type = .getreq ∧ ∃ k, req.key = some k

/-- The call that led from one system to another. -/
def visit (s s' : TpcSystem) (req : KvRequest) (res : KvResponse) : Visit :=
  ⟨req, res, s.cluster.followers, s'.cluster.followers⟩

/-- Every transaction so far is over, and `i` is not used yet. -/
structure Quiet (s : TpcSystem) (i : ℕ) (m : CStr → Option CStr) : Prop where
  inv : Inv strhash64 l s m
  ended : ∀ j x, s.txns j = some x → j < i ∧ x.thread.response.isSome = true

/-- Transaction `i` is being served. Until it is decided to commit, the stores are as before. -/
structure Serving (s₀ s : TpcSystem) (i : ℕ) (req : KvRequest) (u : Update)
    (m : CStr → Option CStr) : Prop where
  ended : ∀ j x, s.txns j = some x → j ≠ i → j < i ∧ x.thread.response.isSome = true
  current : ∃ thread m', s.txns i = some ⟨req, thread⟩ ∧ Inv strhash64 l s m' ∧
    (thread.committed = false ∧ m' = m ∧
        (∀ f, SameStore (s₀.cluster.followers f).dir (s.cluster.followers f).dir) ∨
      thread.committed = true ∧ m' = u.apply m ∧ u.Applicable m)

variable {strhash64} {l} {s s₀ s' : TpcSystem} {m : CStr → Option CStr} {c c' : Cluster} {i : ℕ}
  {f : Addr} {u : Update} {req : KvRequest}

theorem Visit.apply_success {v : Visit} (h : v.res.type = .success) (hu : updateOf v.req = some u) :
    v.apply m = u.apply m := by
  simp [Visit.apply, h, hu]

theorem Visit.apply_of_ne {v : Visit} (h : v.res.type ≠ .success) : v.apply m = m := if_neg h

theorem getAnswer_type (o : Option CStr) :
    (getAnswer o).type = .getresp ∨ (getAnswer o).type = .error := by
  cases o
  · exact .inr rfl
  · exact .inl rfl

/-! ## Updates -/

theorem process_sameStore {res : KvResponse} (h : c.process strhash64 i f req = some (c', res))
    (ht : req.type ≠ .commit) (g : Addr) : SameStore (c.followers g).dir (c'.followers g).dir := by
  simp only [Cluster.process, Option.pure_def, Option.bind_eq_bind, Option.bind_eq_some_iff,
    Option.some.injEq, Prod.mk.injEq] at h
  obtain ⟨⟨k, res'⟩, hh, rfl, -⟩ := h
  by_cases hg : g = f
  · subst hg
    simpa using handle_sameStore hh ht
  · simpa [hg] using SameStore.refl _

theorem deliver_sameStore {d : Delivery} {con : Contact}
    (h : c.deliver strhash64 i f req d = some (c', con)) (ht : req.type ≠ .commit) (g : Addr) :
    SameStore (c.followers g).dir (c'.followers g).dir := by
  cases d <;> simp only [Cluster.deliver, Option.pure_def, Option.bind_eq_bind,
    Option.bind_eq_some_iff, Option.some.injEq, Prod.mk.injEq] at h
  · rw [← h.1]
    exact SameStore.refl _
  · rw [← h.1]
    exact SameStore.refl _
  · obtain ⟨⟨c'', res⟩, hp, rfl, -⟩ := h
    exact process_sameStore hp ht g
  · obtain ⟨⟨c'', res⟩, hp, rfl, -⟩ := h
    exact process_sameStore hp ht g

/-- A transaction that is not decided to commit sends no `COMMIT`. -/
theorem Inv.locals_type (h : Inv strhash64 l s m) {x : Txn} (hx : s.txns i = some x)
    (hc : x.thread.committed = false) {t : TpcLocals} (ht : x.thread.locals = some t) :
    t.req.type ≠ .commit := by
  obtain ⟨u, hu, -, hst⟩ := h.txn i x hx
  generalize x.thread = thread at hst hc ht
  cases hst with
  | phase1 n a hp =>
    cases ht
    intro e
    have := updateOf_type hu
    rw [TpcLocals.at] at e
    simp only at e
    rw [e] at this
    cases this
  | phase2 n a hp =>
    cases ht
    have ha : 0 < a := committed_phase2.1 hc
    simp [TpcLocals.at, decision, ha]
  | success => cases ht
  | error => cases ht

theorem Inv.exchange_sameStore (h : Inv strhash64 l s m) {x : Txn} (hx : s.txns i = some x)
    (hc : x.thread.committed = false) {d : Delivery}
    (hex : s.exchange strhash64 l i d = some s') (f : Addr) :
    SameStore (s.cluster.followers f).dir (s'.cluster.followers f).dir := by
  rcases ht : x.thread.locals with _ | t
  · simp only [TpcSystem.exchange, hx, ht, Option.pure_def, Option.some.injEq] at hex
    rw [hex]
    exact SameStore.refl _
  · simp only [TpcSystem.exchange, hx, ht, Option.pure_def, Option.bind_eq_bind,
      Option.bind_eq_some_iff, Option.some.injEq] at hex
    obtain ⟨⟨c', con⟩, hdel, thread, -, rfl⟩ := hex
    exact deliver_sameStore hdel (h.locals_type hx hc ht) f

/-- While the others are over, a transaction's exchanges are guarded. -/
theorem Inv.guarded (h : Inv strhash64 l s m)
    (hover : ∀ j x, s.txns j = some x → j ≠ i → x.thread.response.isSome = true) (d : Delivery) :
    s.Guarded strhash64 l i d := by
  intro x t _ _ _ j hj hne
  obtain ⟨y, -, hy, -⟩ := (h.follower _).slot j hj
  have := hover j y hy hne
  rw [h.not_ended hj hy] at this
  cases this

theorem Serving.exchange (hs : l.Serves strhash64) (h : Serving strhash64 l s₀ s i req u m)
    (hu : updateOf req = some u) (d : Delivery) :
    ∃ s', s.exchange strhash64 l i d = some s' ∧ Serving strhash64 l s₀ s' i req u m := by
  obtain ⟨hover, thread, m₁, hx, hinv, hcur⟩ := h
  obtain ⟨s', hex, rfl | ⟨x, thread', v, hx', hv, htxns, hres⟩⟩ := hinv.exchange hs d
    (hinv.guarded (fun j x hj hne => (hover j x hj hne).2) d)
  · exact ⟨s', hex, hover, thread, m₁, hx, hinv, hcur⟩
  rw [hx, Option.some.injEq] at hx'
  subst hx'
  obtain rfl : u = v := by simpa [hu] using hv
  have hover' : ∀ j x, s'.txns j = some x → j ≠ i → j < i ∧ x.thread.response.isSome = true :=
    fun j x hj hne => by
      rw [htxns, txns_moved_of_ne hne] at hj
      exact hover j x hj hne
  have hx' : s'.txns i = some ⟨req, thread'⟩ := by rw [htxns, txns_moved_self]
  rcases hcur with ⟨hc, rfl, hsame⟩ | ⟨hc, rfl, happ⟩
  · rcases hres with ⟨hc', hinv'⟩ | ⟨-, hc', happ, hinv'⟩
    · exact ⟨s', hex, hover', thread', m₁, hx', hinv', .inl ⟨hc'.trans hc, rfl,
        fun f => (hsame f).trans (hinv.exchange_sameStore hx hc hex f)⟩⟩
    · exact ⟨s', hex, hover', thread', _, hx', hinv', .inr ⟨hc', rfl, happ⟩⟩
  · rcases hres with ⟨hc', hinv'⟩ | ⟨hc', -⟩
    · exact ⟨s', hex, hover', thread', _, hx', hinv', .inr ⟨hc'.trans hc, rfl, happ⟩⟩
    · simp [hc] at hc'

theorem Serving.run (hs : l.Serves strhash64) (hu : updateOf req = some u) :
    ∀ (script : List Delivery) {s : TpcSystem}, Serving strhash64 l s₀ s i req u m →
    ∃ s', s.run strhash64 l (script.map (.exchange i)) = some s' ∧
      Serving strhash64 l s₀ s' i req u m
  | [], s, h => ⟨s, rfl, h⟩
  | d :: script, s, h => by
    obtain ⟨s₁, hex, h₁⟩ := h.exchange hs hu d
    obtain ⟨s', hrun, h'⟩ := h₁.run hs hu script
    exact ⟨s', by simp [TpcSystem.run, TpcSystem.step, hex, hrun], h'⟩

/-- With all transactions over, a replica holds what the map says. -/
theorem Quiet.replica (h : Quiet strhash64 l s i m) {k : CStr} (hf : f ∈ l.replicas strhash64 k) :
    binding strhash64 (s.cluster.followers f).dir k = m k := by
  have hfree : s.cluster.owner f = none := by
    rcases ho : s.cluster.owner f with _ | j
    · rfl
    obtain ⟨x, -, hx, -⟩ := (h.inv.follower f).slot j ho
    have := (h.ended j x hx).2
    rw [h.inv.not_ended ho hx] at this
    cases this
  have hview := (h.inv.follower f).view k hf
  rwa [TpcSystem.view, decided_of_none hfree] at hview

theorem updateOf_getreq (hu : updateOf req = some u) : req.type ≠ .getreq := fun e => by
  have := updateOf_type hu
  rw [e] at this
  cases this

/-- A transaction that is over was answered `SUCCESS` if it was decided to commit, else `ERROR`. -/
theorem Inv.response (h : Inv strhash64 l s m) {x : Txn} (hx : s.txns i = some x)
    {res : KvResponse} (hres : x.thread.response = some res) :
    res = if x.thread.committed then ⟨.success, none⟩ else ⟨.error, some errmsgGenericError⟩ := by
  obtain ⟨u, -, -, hst⟩ := h.txn i x hx
  generalize x.thread = thread at hst hres
  cases hst with
  | phase1 => cases hres
  | phase2 => cases hres
  | success => exact (Option.some.inj hres).symm
  | error => exact (Option.some.inj hres).symm

theorem Serving.finish (h : Serving strhash64 l s₀ s i req u m)
    (h₀ : Quiet strhash64 l s₀ i m) (hu : updateOf req = some u) {res : KvResponse}
    (hres : (s.txns i).bind (·.thread.response) = some res) :
    (visit s₀ s req res).Good strhash64 l m ∧
      Quiet strhash64 l s (i + 1) ((visit s₀ s req res).apply m) := by
  obtain ⟨hover, thread, m', hx, hinv, hcur⟩ := h
  rw [hx, Option.bind_some] at hres
  have hquiet : Quiet strhash64 l s (i + 1) m' := by
    refine ⟨hinv, fun j x hj => ?_⟩
    by_cases hji : j = i
    · subst hji
      rw [hx, Option.some.injEq] at hj
      subst hj
      exact ⟨Nat.lt_succ_self _, by rw [hres]; rfl⟩
    · exact ⟨(hover j x hj hji).1.trans (Nat.lt_succ_self _), (hover j x hj hji).2⟩
  have hanswer := hinv.response hx hres
  have hget : req.type ≠ .getreq := updateOf_getreq hu
  rcases hcur with ⟨hc, rfl, hsame⟩ | ⟨hc, rfl, happ⟩
  · simp only [hc, Bool.false_eq_true, if_false] at hanswer
    subst hanswer
    have happly : (visit s₀ s req ⟨.error, some errmsgGenericError⟩).apply m' = m' :=
      Visit.apply_of_ne (by simp [visit])
    rw [happly]
    exact ⟨{ answered := fun _ _ => .inr rfl
             success := fun _ _ e => absurd e (by simp [visit])
             error := fun _ _ _ => hsame
             get := fun _ e => absurd e hget
             replicas := fun k f hf => by rw [happly]; exact hquiet.replica hf }, hquiet⟩
  · simp only [hc, if_true] at hanswer
    subst hanswer
    have happly : (visit s₀ s req ⟨.success, none⟩).apply m = u.apply m :=
      Visit.apply_success rfl hu
    rw [happly]
    refine ⟨{ answered := fun _ _ => .inl rfl
              success := fun v hv _ f hf => ?_
              error := fun _ _ e => absurd e (by simp [visit])
              get := fun _ e => absurd e hget
              replicas := fun k f hf => by rw [happly]; exact hquiet.replica hf }, hquiet⟩
    obtain rfl : u = v := by simpa [hu, visit] using hv
    refine ⟨fun e => ?_, ?_⟩
    · rw [visit, h₀.replica hf]
      exact happ e
    · rw [visit, hquiet.replica hf]
      exact Function.update_self ..

theorem Quiet.serve_update (hs : l.Serves strhash64) (h : Quiet strhash64 l s i m)
    (hu : updateOf req = some u) (hal : u.Allowed) (script : List Delivery) :
    ∃ s' r, s.serve strhash64 l i (.update req script) = some (s', r) ∧ ∀ res, r = some res →
      (visit s s' req res).Good strhash64 l m ∧
        Quiet strhash64 l s' (i + 1) ((visit s s' req res).apply m) := by
  have hnone : s.txns i = none := by
    rcases hx : s.txns i with _ | x
    · rfl
    · exact absurd (h.ended i x hx).1 (lt_irrefl _)
  obtain ⟨s₁, hstart, hinv, hcluster, htxns⟩ := h.inv.start hs i hu hal
  have h₁ : Serving strhash64 l s s₁ i req u m := by
    refine ⟨fun j x hj hne => ?_, _, m, by rw [htxns hnone, txns_moved_self], hinv,
      .inl ⟨rfl, rfl, fun f => by rw [hcluster]; exact SameStore.refl _⟩⟩
    rw [htxns hnone, txns_moved_of_ne hne] at hj
    exact h.ended j x hj
  obtain ⟨s', hrun, h'⟩ := h₁.run hs hu script
  exact ⟨s', _, by simp [TpcSystem.serve, hstart, hrun], fun res hres => h'.finish h hu hres⟩

/-! ## `GET` -/

theorem process_get (hw : WellFormed strhash64 (c.followers f).dir) (ht : req.type = .getreq)
    {k : CStr} (hk : req.key = some k) :
    c.process strhash64 i f req
      = some (c, getAnswer (binding strhash64 (c.followers f).dir k)) := by
  rcases getAnswer_type (binding strhash64 (c.followers f).dir k) with e | e <;>
    simp [Cluster.process, handle_get hw ht hk, ht, e, Function.update_eq_self]

theorem Quiet.runGet (hs : l.Serves strhash64) (h : Quiet strhash64 l s i m)
    (ht : req.type = .getreq) {k : CStr} (hk : req.key = some k) :
    ∀ (fuel : ℕ) {n : ℕ}, n < l.redundancy.toNat →
    ∃ t, s.runGet strhash64 l i req fuel
        (.loop (l.redundancy.toNat - n) (some (l.walk strhash64 k n))) = some (s, t) ∧
      ∀ res, t.response = some res → res = getAnswer (m k)
  | 0, n, _ => ⟨_, rfl, fun _ e => absurd e (by simp [GetThread.response])⟩
  | fuel + 1, n, hn => by
    have hf : l.addr (l.walk strhash64 k n) ∈ l.replicas strhash64 k :=
      (TpcLeader.mem_replicas hs).2 ⟨n, hn, rfl⟩
    have hproc : s.cluster.process strhash64 i (l.addr (l.walk strhash64 k n)) req
        = some (s.cluster, getAnswer (m k)) := by
      rw [process_get (h.inv.follower _).wellFormed ht hk, h.replica hf]
    simp only [TpcSystem.runGet, Option.bind_eq_bind, Option.bind_some, hproc]
    rcases hm : m k with _ | v
    · simp only [getAnswer, GetThread.receive, Option.bind_eq_bind, Option.bind_some,
        reduceCtorEq, if_false, Option.pure_def, TpcLeader.walk_succ hs, getHead]
      by_cases hlast : n + 1 < l.redundancy.toNat
      · rw [if_pos (by omega), sub_sub, ← Nat.cast_one, ← Nat.cast_add]
        have := h.runGet hs ht hk fuel hlast
        rwa [hm] at this
      · rw [if_neg (by omega)]
        exact ⟨.ended ⟨.error, some errmsgNoKey⟩, by cases fuel <;> rfl,
          fun res e => (Option.some.inj e).symm⟩
    · exact ⟨.ended ⟨.getresp, some v⟩, by cases fuel <;> rfl,
        fun res e => (Option.some.inj e).symm⟩

theorem Quiet.serve_get (hs : l.Serves strhash64) (h : Quiet strhash64 l s i m)
    (ht : req.type = .getreq) {k : CStr} (hk : req.key = some k) (exchanges : ℕ) :
    ∃ r, s.serve strhash64 l i (.get req exchanges) = some (s, r) ∧ ∀ res, r = some res →
      (visit s s req res).Good strhash64 l m ∧
        Quiet strhash64 l s (i + 1) ((visit s s req res).apply m) := by
  have hpos := hs.pos
  obtain ⟨t, hrun, hres⟩ := h.runGet hs ht hk exchanges hpos
  refine ⟨t.response, ?_, fun res e => ?_⟩
  · simp only [Nat.cast_zero, sub_zero] at hrun
    simp only [TpcSystem.serve, tpcleaderHandleGet, hk, hs.primary_eq, Option.bind_eq_bind,
      Option.bind_some, Option.pure_def, getHead, hs.rVal]
    rw [if_pos (by omega), hrun]
    rfl
  · obtain rfl := hres res e
    have happly : (visit s s req (getAnswer (m k))).apply m = m :=
      Visit.apply_of_ne (by rcases getAnswer_type (m k) with e | e <;> simp [visit, e])
    have hno : updateOf req = none := by
      rcases hu : updateOf req with _ | u
      · rfl
      · exact absurd ht (updateOf_getreq hu)
    rw [happly]
    refine ⟨{ answered := by simp [visit, hno]
              success := by simp [visit, hno]
              error := by simp [visit, hno]
              get := fun k' _ hk' => ?_
              replicas := fun k f hf => by rw [happly]; exact h.replica hf },
      h.inv, fun j x hj => ?_⟩
    · obtain rfl : k = k' := by simpa [visit, hk] using hk'
      rfl
    · exact ⟨(h.ended j x hj).1.trans (Nat.lt_succ_self _), (h.ended j x hj).2⟩

/-! ## Runs of calls -/

theorem Quiet.serveAll (hs : l.Serves strhash64) : ∀ {calls : List ClientCall} {s : TpcSystem}
    {i : ℕ} {m : CStr → Option CStr}, Quiet strhash64 l s i m → (∀ c ∈ calls, c.Allowed) →
    ∃ visits, s.serveAll strhash64 l i calls = some visits ∧ Refines strhash64 l m visits
  | [], s, i, m, _, _ => ⟨[], rfl, trivial⟩
  | call :: calls, s, i, m, h, hal => by
    obtain ⟨s', r, hserve, hres⟩ : ∃ s' r, s.serve strhash64 l i call = some (s', r) ∧
        ∀ res, r = some res →
        (visit s s' call.req res).Good strhash64 l m ∧
          Quiet strhash64 l s' (i + 1) ((visit s s' call.req res).apply m) := by
      have hcall := hal call List.mem_cons_self
      cases call with
      | update req script =>
        obtain ⟨u, hu, hu'⟩ := hcall
        exact h.serve_update hs hu hu' script
      | get req exchanges =>
        obtain ⟨ht, k, hk⟩ := hcall
        obtain ⟨r, hr⟩ := h.serve_get hs ht hk exchanges
        exact ⟨s, r, hr⟩
    rcases r with _ | res
    · exact ⟨[], by simp [TpcSystem.serveAll, hserve], trivial⟩
    · obtain ⟨hgood, hquiet⟩ := hres res rfl
      obtain ⟨visits, hall, href⟩ := hquiet.serveAll hs fun c hc => hal c (List.mem_cons_of_mem _ hc)
      exact ⟨visit s s' call.req res :: visits,
        by simp [TpcSystem.serveAll, hserve, hall, visit], hgood, href⟩

/-! ## Beyond `INT_MAX` -/

def ClientCall.isGet : ClientCall → Bool
  | update _ _ => false
  | get _ _ => true

theorem run_ended {x : Txn} (hx : s.txns i = some x) (ht : x.thread.locals = none) :
    ∀ script : List Delivery, s.run strhash64 l (script.map (.exchange i)) = some s
  | [] => rfl
  | d :: script => by
    simp [TpcSystem.run, TpcSystem.step, TpcSystem.exchange, hx, ht, run_ended hx ht script]

theorem serve_update_overflow (hcap : l.followerCount = l.followerCapacity)
    (hprimary : ∀ k, ∃ p, tpcleaderGetPrimary strhash64 l k = some (some p)) (hr : l.rVal ≤ 0)
    (hu : updateOf req = some u) (hi : s.txns i = none) (script : List Delivery) :
    s.serve strhash64 l i (.update req script)
      = some (s.moved i req (.ended ⟨.success, none⟩), some ⟨.success, none⟩) := by
  have hstart : s.start strhash64 l i req = some (s.moved i req (.ended ⟨.success, none⟩)) := by
    simp [TpcSystem.start, hi, handleTpc_overflow hcap hprimary hr hu, TpcSystem.moved]
  have hrun : (s.moved i req (.ended ⟨.success, none⟩)).run strhash64 l (script.map (.exchange i))
      = some (s.moved i req (.ended ⟨.success, none⟩)) := run_ended txns_moved_self rfl script
  simp [TpcSystem.serve, hstart, hrun, TpcThread.response]

theorem serve_get_overflow
    (hprimary : ∀ k, ∃ p, tpcleaderGetPrimary strhash64 l k = some (some p)) (hr : l.rVal ≤ 0)
    {k : CStr} (hk : req.key = some k) (exchanges : ℕ) :
    s.serve strhash64 l i (.get req exchanges) = some (s, some ⟨.error, some errmsgNoKey⟩) := by
  obtain ⟨p, hp⟩ := hprimary k
  have hrun : s.runGet strhash64 l i req exchanges (.ended ⟨.error, some errmsgNoKey⟩)
      = some (s, .ended ⟨.error, some errmsgNoKey⟩) := by
    cases exchanges <;> rfl
  simp [TpcSystem.serve, tpcleaderHandleGet, hk, hp, getHead, not_lt.2 hr, hrun,
    GetThread.response]

/-- Then an update is answered `SUCCESS` without any replica taking it. -/
theorem not_good_overflow (hs : s'.cluster = s.cluster)
    (hempty : ∀ f, binding strhash64 (s.cluster.followers f).dir = fun _ => none)
    (hu : updateOf req = some u) (hf : f ∈ l.replicas strhash64 u.key) :
    ¬ (visit s s' req ⟨.success, none⟩).Good strhash64 l m := by
  intro hgood
  obtain ⟨hbefore, hafter⟩ := hgood.success u hu rfl f hf
  simp only [visit, hs, hempty] at hbefore hafter
  cases u with
  | put k v => cases hafter
  | del k => exact hbefore rfl rfl

theorem serveAll_overflow (hcap : l.followerCount = l.followerCapacity)
    (hprimary : ∀ k, ∃ p, tpcleaderGetPrimary strhash64 l k = some (some p)) (hr : l.rVal ≤ 0)
    (hpos : ∀ k, ∃ f, f ∈ l.replicas strhash64 k)
    (hempty : ∀ f, binding strhash64 (s.cluster.followers f).dir = fun _ => none)
    (htxns : ∀ j, s.txns j = none) : ∀ {calls : List ClientCall} (i : ℕ),
    (∀ c ∈ calls, c.Allowed) →
    ((∃ visits, s.serveAll strhash64 l i calls = some visits ∧
        Refines strhash64 l (fun _ => none) visits) ↔ ∀ c ∈ calls, c.isGet = true)
  | [], i, _ => ⟨fun _ => by simp, fun _ => ⟨[], rfl, trivial⟩⟩
  | .update req script :: calls, i, hal => by
    obtain ⟨u, hu, -⟩ := hal _ List.mem_cons_self
    obtain ⟨f, hf⟩ := hpos u.key
    refine ⟨?_, fun h => absurd (h _ List.mem_cons_self) (by simp [ClientCall.isGet])⟩
    rintro ⟨visits, hall, href⟩
    simp only [TpcSystem.serveAll, serve_update_overflow hcap hprimary hr hu (htxns i) script,
      Option.bind_eq_bind, Option.bind_some, Option.bind_eq_some_iff, Option.pure_def,
      Option.some.injEq] at hall
    obtain ⟨rest, -, rfl⟩ := hall
    exact absurd href.1 (not_good_overflow rfl hempty hu hf)
  | .get req exchanges :: calls, i, hal => by
    obtain ⟨ht, k, hk⟩ := hal _ List.mem_cons_self
    have hno : updateOf req = none := by
      rcases hu : updateOf req with _ | u
      · rfl
      · exact absurd ht (updateOf_getreq hu)
    have happly : (visit s s req ⟨.error, some errmsgNoKey⟩).apply (fun _ => none)
        = fun _ => none := Visit.apply_of_ne (by simp [visit])
    have hgood : (visit s s req ⟨.error, some errmsgNoKey⟩).Good strhash64 l (fun _ => none) :=
      { answered := by simp [visit, hno]
        success := by simp [visit, hno]
        error := by simp [visit, hno]
        get := fun _ _ _ => rfl
        replicas := fun k f _ => by rw [happly, visit, hempty] }
    have ih := serveAll_overflow hcap hprimary hr hpos hempty htxns (i + 1)
      fun c hc => hal c (List.mem_cons_of_mem _ hc)
    rw [List.forall_mem_cons, ← ih]
    simp only [TpcSystem.serveAll, serve_get_overflow hprimary hr hk exchanges,
      Option.bind_eq_bind, Option.bind_some, Option.bind_eq_some_iff, Option.pure_def,
      Option.some.injEq, ClientCall.isGet, true_and]
    constructor
    · rintro ⟨visits, ⟨rest, hrest, rfl⟩, href⟩
      exact ⟨rest, hrest, happly ▸ href.2⟩
    · rintro ⟨rest, hrest, href⟩
      refine ⟨_, ⟨rest, hrest, rfl⟩, hgood, ?_⟩
      show Refines strhash64 l ((visit s s req ⟨.error, some errmsgNoKey⟩).apply _) rest
      rwa [happly]

section Registered

variable {mem : TpcLeader} {capacity redundancy : UInt32} {regs : List KvRequest}
  {followers : Addr → KvServer} {calls : List ClientCall}

theorem registered_overflow
    (hreg : registerAll strhash64 (tpcleaderInit mem capacity redundancy) regs = some l)
    (hcap : l.followerCount = l.followerCapacity) (hmax : ¬ l.redundancy.toNat < 2 ^ 31)
    (hempty : ∀ f, binding strhash64 (followers f).dir = fun _ => none)
    (hal : ∀ c ∈ calls, c.Allowed) :
    (∃ visits, TpcSystem.serveAll strhash64 l (.init followers) 0 calls = some visits ∧
        Refines strhash64 l (fun _ => none) visits) ↔ ∀ c ∈ calls, c.isGet = true := by
  have hprimary := TpcLeader.primary hreg hcap (by omega)
  have hr : l.rVal ≤ 0 := by
    have := l.redundancy.toNat_lt
    rw [l.rVal_eq, if_neg hmax]
    omega
  refine serveAll_overflow hcap hprimary hr (fun k => ?_) hempty (fun _ => rfl) 0 hal
  obtain ⟨p, hp⟩ := hprimary k
  obtain ⟨n, hn⟩ : ∃ n, l.redundancy.toNat = n + 1 := ⟨l.redundancy.toNat - 1, by omega⟩
  exact ⟨l.addr p, by simp [TpcLeader.replicas, hp, hn, List.iterate]⟩

/-- From empty stores, clients that are served one after the other see one map that every replica
holds, if and only if the redundancy fits an `int` or nobody asks for an update. -/
theorem serveAll_refines_iff
    (hreg : registerAll strhash64 (tpcleaderInit mem capacity redundancy) regs = some l)
    (hcap : l.followerCount = l.followerCapacity) (hpos : 1 ≤ l.redundancy.toNat)
    (hw : ∀ f, WellFormed strhash64 (followers f).dir)
    (hempty : ∀ f, binding strhash64 (followers f).dir = fun _ => none)
    (hal : ∀ c ∈ calls, c.Allowed) :
    (∃ visits, TpcSystem.serveAll strhash64 l (.init followers) 0 calls = some visits ∧
        Refines strhash64 l (fun _ => none) visits) ↔
      l.redundancy.toNat < 2 ^ 31 ∨ ∀ c ∈ calls, c.isGet = true := by
  by_cases hmax : l.redundancy.toNat < 2 ^ 31
  · have hquiet : Quiet strhash64 l (.init followers) 0 (fun _ => none) :=
      ⟨.init hw fun k f _ => by rw [hempty], by simp [TpcSystem.init]⟩
    exact iff_of_true (hquiet.serveAll (TpcLeader.serves hreg hcap hpos hmax) hal) (.inl hmax)
  · rw [or_iff_right hmax]
    exact registered_overflow hreg hcap hmax hempty hal

end Registered

theorem binding_emptyFollowers (f : Addr) :
    binding strhash64 (emptyFollowers f).dir = fun _ => none := by
  funext k
  simp [emptyFollowers, binding_emptyDir]

/-- A `PUT` whose second vote is lost and whose second `ABORT` is handled twice, the same `PUT` again
with a `COMMIT` that is refused at first, its `DEL` that one replica votes against as it cannot be
reached, a `PUT` of another value, and `GET`s. -/
def fewCalls : List ClientCall :=
  [.update (putRequest "a" "x") [.answered, .unanswered, .answered, .unanswered, .answered],
    .get ⟨.getreq, some (.ofString "a"), none⟩ 2,
    .update (putRequest "a" "x") [.answered, .answered, .answered, .refused, .answered],
    .update ⟨.delreq, some (.ofString "a"), none⟩
      [.refused, .answered, .dropped, .answered, .answered],
    .get ⟨.getreq, some (.ofString "a"), none⟩ 1,
    .update (putRequest "a" "y") [.answered, .answered, .answered, .answered],
    .get ⟨.getreq, some (.ofString "a"), none⟩ 1]

theorem serveAll_refines_iff_fewCalls :
    ∃ visits, TpcSystem.serveAll firstByte (trioLeader 2) (.init emptyFollowers) 0 fewCalls
        = some visits ∧ Refines firstByte (trioLeader 2) (fun _ => none) visits ∧
      visits.map (·.res) = [⟨.error, some errmsgGenericError⟩, ⟨.error, some errmsgNoKey⟩,
        ⟨.success, none⟩, ⟨.error, some errmsgGenericError⟩, ⟨.getresp, some (.ofString "x")⟩,
        ⟨.success, none⟩, ⟨.getresp, some (.ofString "y")⟩] := by
  have hal : ∀ c ∈ fewCalls, c.Allowed := by
    simp [fewCalls, ClientCall.Allowed, updateOf, putRequest, Update.Allowed]
    decide
  obtain ⟨visits, hrun, hrefines⟩ := (serveAll_refines_iff (trioLeader_registered 2)
    (by decide +kernel) (by decide +kernel) (fun _ => wellFormed_emptyDir) binding_emptyFollowers
    hal).2 (.inl (by decide +kernel))
  have hend : (TpcSystem.serveAll firstByte (trioLeader 2) (.init emptyFollowers) 0 fewCalls).map
      (·.map (·.res)) = some [⟨.error, some errmsgGenericError⟩, ⟨.error, some errmsgNoKey⟩,
        ⟨.success, none⟩, ⟨.error, some errmsgGenericError⟩, ⟨.getresp, some (.ofString "x")⟩,
        ⟨.success, none⟩, ⟨.getresp, some (.ofString "y")⟩] := by decide +kernel
  rw [hrun, Option.map_some, Option.some.injEq] at hend
  exact ⟨visits, hrun, hrefines, hend⟩

/-! ### A crowd of followers -/

/-- The binary digits of a number, as text. -/
def hostName (n : ℕ) : CStr := cstr ((Nat.digits 2 n).map fun d => .ofNat (48 + d))

/-- A hash function that reads binary digits. -/
def binaryHash (s : CStr) : UInt64 := .ofNat (.ofDigits 2 (s.bytes.map fun b => b.toNat - 48))

def crowdAddress (n : ℕ) : CStr × CStr := (hostName n, .ofString "16201")

/-- The registrations of `n` followers. -/
def crowd (n : ℕ) : List KvRequest :=
  (List.range n).map fun i => ⟨.register, some (crowdAddress i).1, some (crowdAddress i).2⟩

theorem digit_toNat {n d : ℕ} (hd : d ∈ Nat.digits 2 n) :
    (UInt8.ofNat (48 + d)).toNat = 48 + d := by
  have := Nat.digits_lt_base one_lt_two hd
  rw [UInt8.toNat_ofNat', Nat.mod_eq_of_lt (by omega)]

theorem hostName_bytes (n : ℕ) :
    (hostName n).bytes = (Nat.digits 2 n).map fun d => .ofNat (48 + d) := by
  refine bytes_cstr fun h => ?_
  obtain ⟨d, hd, h0⟩ := List.mem_map.1 h
  have := digit_toNat hd
  rw [h0] at this
  simp at this
  omega

theorem binaryHash_crowdAddress (n : ℕ) :
    binaryHash (followerAddress (crowdAddress n).2 (crowdAddress n).1) = .ofNat (357 + 64 * n) := by
  have hport : (crowdAddress n).2.bytes = [49, 54, 50, 48, 49] := rfl
  have hdigits : ((Nat.digits 2 n).map fun d => UInt8.ofNat (48 + d)).map
      (fun b => b.toNat - 48) = Nat.digits 2 n := by
    rw [List.map_map]
    refine (List.map_congr_left fun d hd => ?_).trans (List.map_id _)
    rw [Function.comp_apply, digit_toNat hd, Nat.add_sub_cancel_left, id_eq]
  have hbytes : (followerAddress (crowdAddress n).2 (crowdAddress n).1).bytes
      = [49, 54, 50, 48, 49, 58] ++ (hostName n).bytes := by
    rw [followerAddress, hport, bytes_cstr]
    · rfl
    · have := (hostName n).noNul
      simpa [crowdAddress, byte] using this
  rw [binaryHash, hbytes, hostName_bytes, List.map_append, hdigits, Nat.ofDigits_append,
    Nat.ofDigits_digits]
  rfl

theorem crowd_registered {n : ℕ} (hn : n < 2 ^ 32) :
    ∃ l, registerAll binaryHash (tpcleaderInit blankLeader (.ofNat n) (.ofNat n)) (crowd n)
        = some l ∧ l.followerCount = l.followerCapacity ∧ l.redundancy = .ofNat n := by
  have hring := TpcLeader.hasRing_init blankLeader (.ofNat n) (.ofNat n)
  have hcap : (tpcleaderInit blankLeader (.ofNat n) (.ofNat n)).followerCapacity.toNat = n := by
    simp only [tpcleaderInit, UInt32.toNat_ofNat', Nat.mod_eq_of_lt hn]
  have hnodup : ((List.range n).map (fun i => binaryHash
      (followerAddress (crowdAddress i).2 (crowdAddress i).1)) ++
      (tpcleaderInit blankLeader (.ofNat n) (.ofNat n)).ids []).Nodup := by
    simp only [binaryHash_crowdAddress, TpcLeader.ids, TpcLeader.members, List.map_nil, List.append_nil]
    refine List.Nodup.map_on (fun a ha b hb hab => ?_) List.nodup_range
    rw [List.mem_range] at ha hb
    have := congrArg UInt64.toNat hab
    simp only [UInt64.toNat_ofNat'] at this
    omega
  obtain ⟨l, hall, hcount⟩ := hring.registerAll_fresh crowdAddress (by simp [hcap]) hnodup
  obtain ⟨ring, -, hc, hred⟩ := hring.registerAll hall
  refine ⟨l, hall, UInt32.toNat_inj.1 ?_, ?_⟩
  · rw [hcount, hc, hcap]
    simp
  · rw [hred]
    simp [tpcleaderInit, UInt32.lt_irrefl]

/-- With `2 ^ 31` followers a `PUT` is answered `SUCCESS` and sent to none of them. -/
theorem crowd_not_refines :
    ¬ ∀ (strhash64 : CStr → UInt64) (mem l : TpcLeader) (capacity redundancy : UInt32)
        (regs : List KvRequest) (followers : Addr → KvServer) (calls : List ClientCall),
      registerAll strhash64 (tpcleaderInit mem capacity redundancy) regs = some l →
      l.followerCount = l.followerCapacity → 1 ≤ l.redundancy.toNat →
      (∀ f, WellFormed strhash64 (followers f).dir) →
      (∀ f, binding strhash64 (followers f).dir = fun _ => none) →
      (∀ c ∈ calls, c.Allowed) →
      ∃ visits, TpcSystem.serveAll strhash64 l (.init followers) 0 calls = some visits ∧
        Refines strhash64 l (fun _ => none) visits := by
  intro hall
  obtain ⟨l, hreg, hcap, hred⟩ := crowd_registered (show 2 ^ 31 < 2 ^ 32 by omega)
  have hmax : l.redundancy.toNat = 2 ^ 31 := by
    rw [hred]
    rfl
  have hal : ∀ c ∈ [ClientCall.update (putRequest "a" "x") []], c.Allowed := by
    simp [ClientCall.Allowed, updateOf, putRequest, Update.Allowed]
    decide
  have h := hall binaryHash blankLeader l _ _ _ emptyFollowers
    [.update (putRequest "a" "x") []] hreg hcap (by omega) (fun _ => wellFormed_emptyDir)
    binding_emptyFollowers hal
  rw [registered_overflow hreg hcap (by omega) binding_emptyFollowers hal] at h
  simp [ClientCall.isGet] at h

end Cs162
