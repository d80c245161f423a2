import Cs162.Proofs.TpcSequential
import Cs162.Proofs.Wire

/-!
# One request at a time over sockets

Clients hand the leader one request after the other, and any message between it and a follower may
be cut off at any byte or never get there. Whenever all requests so far are answered, every replica
of a key holds what the updates answered `SUCCESS`, in their order, make of it, and nothing else
(`wire_oneAtATime`).

The run is matched with one of messages step by step. Only the thread taken up last is ever under
way, so what it exchanges is guarded, and when the leader decides to commit, its update comes after
all others. Meanwhile a replica holds what its key had before that update or has after it
(`Sequential.reads`).
-/

namespace Cs162

open CLib

/-- A request for `tpcleader_handle_tpc` is a `PUT` or a `DELETE` within the limits. -/
def WireEvent.Allowed : WireEvent → Prop
  | accept _ sent => ∀ r, tpcRequest sent = some r → ∃ u, updateOf r = some u ∧ u.Allowed
  | exchange _ _ => True

namespace WireSystem

/-- All threads are over. -/
def Idle (s : WireSystem) : Prop := ∀ i, ∀ x ∈ s.txns i, x.thread.response.isSome = true

/-- The update of a thread that the leader has decided to commit, or answered `SUCCESS`. -/
def committed (s : WireSystem) (i : ℕ) : Option Update := do
  let x ← s.txns i
  if x.thread.committed then updateOf x.call else none

/-- A map after the updates of threads, in order. -/
def outcome (s : WireSystem) (m : CStr → Option CStr) (is : List ℕ) : CStr → Option CStr :=
  is.foldl (fun m i => (s.committed i).elim m (·.apply m)) m

end WireSystem

section Run

variable (strhash64 : CStr → UInt64) (indexPage : List UInt8) (l : TpcLeader)

/-- A request is taken up in a thread not used before, and while no other is under way. -/
def OneAtATime : WireSystem → List WireEvent → Prop
  | _, [] => True
  | s, e :: es => (∀ i ∈ e.accepted, s.txns i = none ∧ s.Idle) ∧
      ∀ s', s.step strhash64 indexPage l e = some s' → OneAtATime s' es

/-- A run over sockets that took up the threads `is` and of which only the last may be under way. -/
structure Sequential (s : WireSystem) (m : CStr → Option CStr) (is : List ℕ) : Prop where
  mirrored : ∃ sys, Mirrors s sys ∧ Inv strhash64 l sys (s.outcome m is)
  taken : ∀ i, i ∈ is ↔ (s.txns i).isSome = true
  nodup : is.Nodup
  last : ∀ i, ∀ x ∈ s.txns i, x.thread.response = none → is.getLast? = some i
  reads : ∀ k, ∀ f ∈ l.replicas strhash64 k,
    binding strhash64 (s.followers f).dir k = s.outcome m is k ∨
      binding strhash64 (s.followers f).dir k = s.outcome m is.dropLast k

end Run

/-- What the updates of the first of the threads `is` made of the map is still made of it by these
threads, or, where the last of all has just been decided, by those before it. -/
def Ages (s s' : WireSystem) (m : CStr → Option CStr) (is : List ℕ) : Prop :=
  ∀ js, js <+: is → ∃ js', (js' = js ∨ js = is ∧ js' = is.dropLast ∧ ¬ s.Idle) ∧
    s'.outcome m js' = s.outcome m js

variable {strhash64 : CStr → UInt64} {indexPage : List UInt8} {l : TpcLeader} {s s' : WireSystem}
  {m : CStr → Option CStr} {is : List ℕ} {i : ℕ}

theorem outcome_congr (h : ∀ i ∈ is, s.committed i = s'.committed i) :
    s.outcome m is = s'.outcome m is :=
  List.foldl_ext _ _ _ fun _ i hi => by rw [h i hi]

theorem outcome_append (m : CStr → Option CStr) (is : List ℕ) (i : ℕ) :
    s.outcome m (is ++ [i]) = (s.committed i).elim (s.outcome m is) (·.apply (s.outcome m is)) := by
  rw [WireSystem.outcome, List.foldl_append]
  rfl

theorem committed_congr (h : s'.txns i = s.txns i) : s'.committed i = s.committed i := by
  rw [WireSystem.committed, WireSystem.committed, h]

theorem Ages.of_committed (h : ∀ j ∈ is, s'.committed j = s.committed j) : Ages s s' m is :=
  fun js hjs => ⟨js, .inl rfl, outcome_congr fun j hj => h j (hjs.subset hj)⟩

/-- The thread taken up last is decided. -/
theorem Ages.of_last (hbefore : s.outcome m (is ++ [i]) = s.outcome m is) (hidle : ¬ s.Idle)
    (h : ∀ j ∈ is, s'.committed j = s.committed j) : Ages s s' m (is ++ [i]) := by
  intro js hjs
  rcases List.prefix_concat_iff.1 hjs with rfl | hjs
  · refine ⟨is, .inr ⟨rfl, by rw [List.dropLast_concat], hidle⟩, ?_⟩
    rw [hbefore]
    exact outcome_congr h
  · exact ⟨js, .inl rfl, outcome_congr fun j hj => h j (hjs.subset hj)⟩

/-! ## What a follower's store becomes -/

theorem process_store {c c' : Cluster} {f : Addr} {req : KvRequest} {res : KvResponse}
    (h : c.process strhash64 i f req = some (c', res)) (g : Addr) :
    SameStore (c.followers g).dir (c'.followers g).dir ∨ c'.owner g = none := by
  by_cases ht : req.type = .commit
  · by_cases hg : g = f
    · right
      simp only [Cluster.process, Option.pure_def, Option.bind_eq_bind, Option.bind_eq_some_iff,
        Option.some.injEq, Prod.mk.injEq] at h
      obtain ⟨⟨s', res'⟩, hh, rfl, -⟩ := h
      obtain ⟨d, -, hcase⟩ := handleTpc_cases hh
      have hack : res' = ⟨.ack, none⟩ := by
        cases hcase with
        | commit => rfl
        | other type key val htype => subst ht; cases htype
        | _ => cases ht
      simp [hack, hg]
    · left
      simp only [Cluster.process, Option.pure_def, Option.bind_eq_bind, Option.bind_eq_some_iff,
        Option.some.injEq, Prod.mk.injEq] at h
      obtain ⟨handled, -, rfl, -⟩ := h
      simpa [hg] using SameStore.refl _
  · exact .inl (process_sameStore h ht g)

/-- An exchange leaves a store as it is, or the follower's slot empty. -/
theorem exchange_store {sys sys' : TpcSystem} {d : Delivery}
    (h : sys.exchange strhash64 l i d = some sys') (f : Addr) :
    SameStore (sys.cluster.followers f).dir (sys'.cluster.followers f).dir ∨
      sys'.cluster.owner f = none := by
  rcases hx : sys.txns i with _ | x
  · simp only [TpcSystem.exchange, hx, Option.pure_def, Option.some.injEq] at h
    exact .inl (h ▸ SameStore.refl _)
  rcases ht : x.thread.locals with _ | t
  · simp only [TpcSystem.exchange, hx, ht, Option.pure_def, Option.some.injEq] at h
    exact .inl (h ▸ SameStore.refl _)
  simp only [TpcSystem.exchange, hx, ht, Option.pure_def, Option.bind_eq_bind,
    Option.bind_eq_some_iff, Option.some.injEq] at h
  obtain ⟨⟨c', con⟩, hdel, thread, -, rfl⟩ := h
  cases d <;> simp only [Cluster.deliver, Option.pure_def, Option.bind_eq_bind,
    Option.bind_eq_some_iff, Option.some.injEq, Prod.mk.injEq] at hdel
  · exact .inl (hdel.1 ▸ SameStore.refl _)
  · exact .inl (hdel.1 ▸ SameStore.refl _)
  · obtain ⟨⟨c'', res⟩, hp, rfl, -⟩ := hdel
    exact process_store hp f
  · obtain ⟨⟨c'', res⟩, hp, rfl, -⟩ := hdel
    exact process_store hp f

/-! ## The steps -/

theorem response_none {thread : TpcThread} :
    thread.response = none ↔ ∃ t, thread.locals = some t := by
  cases thread <;> simp [TpcThread.response, TpcThread.locals]

/-- Between requests, the stores are those the updates answered `SUCCESS` lead to. -/
theorem Sequential.replica (h : Sequential strhash64 l s m is) (hidle : s.Idle) {k : CStr} {f : Addr}
    (hf : f ∈ l.replicas strhash64 k) :
    binding strhash64 (s.followers f).dir k = s.outcome m is k := by
  obtain ⟨⟨sys, hm, hinv⟩, -⟩ := h
  obtain rfl := hm.wire
  have hfree : sys.cluster.owner f = none := by
    rcases ho : sys.cluster.owner f with _ | i
    · rfl
    obtain ⟨x, u, hx, -⟩ := (hinv.follower f).slot i ho
    have hover := hidle i x hx
    rw [hinv.not_ended ho hx] at hover
    cases hover
  have hview := (hinv.follower f).view k hf
  rwa [TpcSystem.view, decided_of_none hfree] at hview

theorem Sequential.accept (hs : l.Serves strhash64) (h : Sequential strhash64 l s m is)
    {r : KvRequest} {sent : List UInt8} (hr : tpcRequest sent = some r) (hforward : Forwarded r) {u : Update}
    (hu : updateOf r = some u) (hal : u.Allowed) (hnew : s.txns i = none) (hidle : s.Idle) :
    ∃ s', s.accept strhash64 l i sent = some s' ∧ Sequential strhash64 l s' m (is ++ [i]) ∧
      Ages s s' m is := by
  have hreplica := @Sequential.replica _ _ _ _ _ h hidle
  obtain ⟨⟨sys, hm, hinv⟩, htaken, hnodup, -⟩ := h
  obtain ⟨sys', hstart, hinv', hcluster, htxns⟩ := hinv.start hs i hu hal
  have hrel := hm.accept strhash64 l i hr hforward
  rw [hstart] at hrel
  obtain ⟨s', hs', hm'⟩ : ∃ s', s.accept strhash64 l i sent = some s' ∧ Mirrors s' sys' := by
    generalize s.accept strhash64 l i sent = next at hrel
    cases hrel with
    | some h => exact ⟨_, rfl, h⟩
  have hwire : sys.txns = s.txns := congrArg WireSystem.txns hm.wire
  have htxns' : s'.txns = Function.update s.txns i
      (some ⟨r, .phase1 (.at strhash64 l r u.key 0 0)⟩) := by
    rw [← hm'.wire, wire_txns, htxns (by rw [hwire, hnew]), TpcSystem.moved, hwire]
  have hself : s'.committed i = none := by
    simp [WireSystem.committed, htxns', TpcThread.committed]
  have hfresh : i ∉ is := fun hi => by
    rw [htaken, hnew] at hi
    cases hi
  have hne : ∀ j ∈ is, j ≠ i := fun j hj e => hfresh (e ▸ hj)
  have hsame : ∀ j ≠ i, s'.txns j = s.txns j := fun j hj => by
    rw [htxns', Function.update_of_ne hj]
  have hcommitted : ∀ j ∈ is, s'.committed j = s.committed j :=
    fun j hj => committed_congr (hsame j (hne j hj))
  have houtcome : s'.outcome m (is ++ [i]) = s.outcome m is := by
    rw [outcome_append, hself, Option.elim_none, outcome_congr hcommitted]
  have hfollowers : s'.followers = s.followers := by
    rw [← hm'.wire, ← hm.wire, wire_followers, wire_followers, hcluster]
  refine ⟨s', hs', ⟨⟨sys', hm', houtcome ▸ hinv'⟩, fun j => ?_, ?_, fun j x hx hres => ?_,
    fun k f hf => ?_⟩, .of_committed hcommitted⟩
  · by_cases hj : j = i
    · simp [hj, htxns']
    · rw [List.mem_append, List.mem_singleton, or_iff_left hj, hsame j hj, htaken]
  · exact List.nodup_append.2 ⟨hnodup, List.nodup_singleton i, by simpa using hne⟩
  · by_cases hj : j = i
    · rw [hj, List.getLast?_concat]
    · rw [hsame j hj] at hx
      have hover := hidle j x hx
      rw [hres] at hover
      cases hover
  · rw [houtcome, hfollowers]
    exact .inl (hreplica hf)

/-- Of the threads, an exchange moves one. -/
theorem outcome_moved {call : KvRequest} {thread : TpcThread} (hnodup : (is ++ [i]).Nodup)
    (hsame : ∀ j ≠ i, s'.txns j = s.txns j) (hx : s'.txns i = some ⟨call, thread⟩) :
    s'.outcome m (is ++ [i]) =
      if thread.committed then (updateOf call).elim (s.outcome m is) (·.apply (s.outcome m is))
      else s.outcome m is := by
  have hne : ∀ j ∈ is, j ≠ i := fun j hj =>
    (List.nodup_append.1 hnodup).2.2 j hj i List.mem_cons_self
  rw [outcome_append, outcome_congr fun j hj => committed_congr (hsame j (hne j hj))]
  by_cases hc : thread.committed <;> simp [WireSystem.committed, hx, hc]

variable (indexPage) in
theorem Sequential.exchange (hs : l.Serves strhash64) (h : Sequential strhash64 l s m is) (i : ℕ)
    (d : WireDelivery) : ∃ s', s.exchange strhash64 indexPage l i d = some s' ∧
      Sequential strhash64 l s' m is ∧ Ages s s' m is := by
  have hkeep : Ages s s m is := .of_committed fun _ _ => rfl
  obtain ⟨⟨sys, hm, hinv⟩, htaken, hnodup, hlast, hreads⟩ := h
  have hwire : sys.txns = s.txns := congrArg WireSystem.txns hm.wire
  rcases hx : s.txns i with _ | ⟨call, thread⟩
  · exact ⟨s, by simp [WireSystem.exchange, hx],
      ⟨⟨sys, hm, hinv⟩, htaken, hnodup, hlast, hreads⟩, hkeep⟩
  rcases hres : thread.response with _ | res
  swap
  · have hlocals : thread.locals = none := by
      cases thread with
      | ended res => rfl
      | _ => cases hres
    exact ⟨s, by simp [WireSystem.exchange, hx, hlocals],
      ⟨⟨sys, hm, hinv⟩, htaken, hnodup, hlast, hreads⟩, hkeep⟩
  -- Thread `i` is under way, so it is the last one.
  obtain ⟨is, rfl⟩ : ∃ is', is = is' ++ [i] := by
    obtain ⟨is', his⟩ := List.getLast?_eq_some_iff.1 (hlast i ⟨call, thread⟩ hx hres)
    exact ⟨is', his⟩
  obtain ⟨d', hrel⟩ := hm.exchange strhash64 indexPage l i d
  have hover : ∀ j x, sys.txns j = some x → j ≠ i → x.thread.response.isSome = true := by
    intro j x hj hji
    rw [hwire] at hj
    by_contra hnone
    rw [Option.not_isSome_iff_eq_none] at hnone
    have := hlast j x hj hnone
    rw [List.getLast?_concat, Option.some.injEq] at this
    exact hji this.symm
  obtain ⟨sys', hex, hmoved⟩ := hinv.exchange hs d' (hinv.guarded hover d')
  rw [hex] at hrel
  obtain ⟨s', hs', hm'⟩ : ∃ s', s.exchange strhash64 indexPage l i d = some s' ∧ Mirrors s' sys' := by
    generalize s.exchange strhash64 indexPage l i d = next at hrel
    cases hrel with
    | some h => exact ⟨_, rfl, h⟩
  have hwire' : sys'.txns = s'.txns := congrArg WireSystem.txns hm'.wire
  refine ⟨s', hs', ?_⟩
  have hstore : ∀ k f, binding strhash64 (s'.followers f).dir k
        = binding strhash64 (s.followers f).dir k ∨
      (f ∈ l.replicas strhash64 k → ∀ m', Inv strhash64 l sys' m' →
        binding strhash64 (s'.followers f).dir k = m' k) := by
    intro k f
    rw [← hm.wire, ← hm'.wire, wire_followers, wire_followers]
    rcases exchange_store hex f with hstore | hfree
    · exact .inl (congrFun (hstore.binding (hinv.follower f).wellFormed) k)
    · refine .inr fun hf m' hinv' => ?_
      have hview := (hinv'.follower f).view k hf
      rwa [TpcSystem.view, decided_of_none hfree] at hview
  obtain rfl | ⟨x, thread', u, hxi, hu, htxns, hres'⟩ := hmoved
  · have hsame : s'.txns = s.txns := hwire'.symm.trans hwire
    have hcommitted : ∀ j, s'.committed j = s.committed j :=
      fun j => committed_congr (congrFun hsame j)
    have houtcome : ∀ js, s'.outcome m js = s.outcome m js :=
      fun js => outcome_congr fun j _ => hcommitted j
    refine ⟨⟨⟨sys', hm', houtcome _ ▸ hinv⟩, fun j => by rw [htaken, hsame], hnodup,
      fun j x hj hnone => ?_, fun k f hf => ?_⟩, .of_committed fun j _ => hcommitted j⟩
    · exact hlast j x (by rw [← hsame]; exact hj) hnone
    · rw [houtcome, houtcome]
      rcases hstore k f with h | h
      · rw [h]
        exact hreads k f hf
      · exact .inl (h hf _ hinv)
  rw [hwire, hx, Option.some.injEq] at hxi
  subst hxi
  have htxns' : s'.txns = Function.update s.txns i (some ⟨call, thread'⟩) := by
    rw [← hwire', htxns, TpcSystem.moved, hwire]
  have hsame : ∀ j ≠ i, s'.txns j = s.txns j := fun j hj => by
    rw [htxns', Function.update_of_ne hj]
  have hself : s'.txns i = some ⟨call, thread'⟩ := by rw [htxns', Function.update_self]
  have hbefore := outcome_moved (m := m) hnodup (fun _ _ => rfl) hx
  have hafter := outcome_moved (m := m) hnodup hsame hself
  simp only [hu, Option.elim_some] at hbefore hafter
  have hne : ∀ j ∈ is, j ≠ i := fun j hj =>
    (List.nodup_append.1 hnodup).2.2 j hj i List.mem_cons_self
  have hcommitted : ∀ j ∈ is, s'.committed j = s.committed j :=
    fun j hj => committed_congr (hsame j (hne j hj))
  have houtcome : s'.outcome m is = s.outcome m is := outcome_congr hcommitted
  have hages : Ages s s' m (is ++ [i]) := by
    rcases hres' with ⟨hc, -⟩ | ⟨hc, -⟩
    · refine .of_committed fun j hj => ?_
      rcases List.mem_append.1 hj with hj | hj
      · exact hcommitted j hj
      · rw [List.mem_singleton.1 hj, WireSystem.committed, WireSystem.committed, hself, hx]
        simp [hc]
    · refine .of_last ?_ (fun hidle => ?_) hcommitted
      · rw [hbefore, hc]
        rfl
      · have hover := hidle i ⟨call, thread⟩ hx
        rw [hres] at hover
        cases hover
  have hinv' : Inv strhash64 l sys' (s'.outcome m (is ++ [i])) := by
    rw [hafter]
    rcases hres' with ⟨hc, hinv'⟩ | ⟨hc, hc', -, hinv'⟩
    · rw [hc, ← hbefore]
      exact hinv'
    · rw [hc, if_neg (by simp)] at hbefore
      rw [if_pos hc', ← hbefore]
      exact hinv'
  refine ⟨⟨⟨sys', hm', hinv'⟩, fun j => ?_, hnodup, fun j y hy hnone => ?_, fun k f hf => ?_⟩,
    hages⟩
  · by_cases hj : j = i
    · simp [hj, hself]
    · rw [htaken, hsame j hj]
  · by_cases hj : j = i
    · rw [hj, List.getLast?_concat]
    · exact hlast j y (by rw [← hsame j hj]; exact hy) hnone
  · rw [List.dropLast_concat, houtcome]
    rcases hstore k f with h | h
    · rw [h]
      rcases hreads k f hf with hread | hread
      · rcases hres' with ⟨hc, -⟩ | ⟨hc, -⟩
        · rw [hafter, hc, ← hbefore]
          exact .inl hread
        · rw [hc, if_neg (by simp)] at hbefore
          rw [hbefore] at hread
          exact .inr hread
      · rw [List.dropLast_concat] at hread
        exact .inr hread
    · exact .inl (h hf _ hinv')

variable (indexPage) in
/-- A step of the leader or of an exchange. -/
theorem Sequential.step (hs : l.Serves strhash64) (h : Sequential strhash64 l s m is)
    {e : WireEvent} (hfits : e.Fits) (hallow : e.Allowed)
    (hone : ∀ i ∈ e.accepted, s.txns i = none ∧ s.Idle) :
    ∃ s', s.step strhash64 indexPage l e = some s' ∧
      Sequential strhash64 l s' m (is ++ e.accepted) ∧ Ages s s' m is := by
  cases e with
  | accept i sent =>
    rcases hr : tpcRequest sent with _ | r
    · refine ⟨s, by simp [WireSystem.step, WireSystem.accept, hr], ?_, .of_committed fun _ _ => rfl⟩
      simpa [WireEvent.accepted, hr] using h
    obtain ⟨hnew, hidle⟩ := hone i (by simp [WireEvent.accepted, hr])
    obtain ⟨u, hu, hu'⟩ := hallow r hr
    obtain ⟨s', hs', h', hages⟩ :=
      h.accept hs hr (tpcRequest_forwarded hr (hfits r hr)) hu hu' hnew hidle
    exact ⟨s', hs', by simpa [WireEvent.accepted, hr] using h', hages⟩
  | exchange i d =>
    obtain ⟨s', hs', h', hages⟩ := h.exchange indexPage hs i d
    exact ⟨s', hs', by simpa [WireEvent.accepted] using h', hages⟩

theorem Sequential.run (hs : l.Serves strhash64) : ∀ {events : List WireEvent} {s : WireSystem}
    {is : List ℕ}, Sequential strhash64 l s m is → (∀ e ∈ events, e.Fits ∧ e.Allowed) →
    OneAtATime strhash64 indexPage l s events →
    ∃ s', runOf (WireSystem.step strhash64 indexPage l) s events = some s' ∧
      Sequential strhash64 l s' m (is ++ events.flatMap WireEvent.accepted)
  | [], s, is, h, _, _ => ⟨s, rfl, by simpa using h⟩
  | e :: events, s, is, h, hal, hone => by
    obtain ⟨hfits, hallow⟩ := hal e List.mem_cons_self
    obtain ⟨s₁, hstep, h₁, -⟩ := h.step indexPage hs hfits hallow hone.1
    obtain ⟨s', hrun, h'⟩ := h₁.run hs (fun e' he => hal e' (List.mem_cons_of_mem _ he))
      (hone.2 s₁ hstep)
    refine ⟨s', by rw [runOf, hstep]; exact hrun, ?_⟩
    rwa [List.flatMap_cons, ← List.append_assoc]

theorem Sequential.init {followers : Addr → KvServer}
    (hw : ∀ f, WellFormed strhash64 (followers f).dir)
    (hm : ∀ k, ∀ f ∈ l.replicas strhash64 k, binding strhash64 (followers f).dir k = m k) :
    Sequential strhash64 l (.init followers) m [] := by
  refine ⟨⟨.init followers, ⟨rfl, fun i x hx => ?_⟩, .init hw hm⟩, fun i => ?_, List.nodup_nil,
    fun i x hx => ?_, fun k f hf => .inl (hm k f hf)⟩
  · cases hx
  · simp [WireSystem.init]
  · cases hx

section Registered

variable {mem : TpcLeader} {capacity redundancy : UInt32} {regs : List KvRequest}

/-- Whatever becomes of the bytes on the way, requests that come one after the other leave each
replica with the outcome of those answered `SUCCESS`. -/
theorem wire_oneAtATime
    (hreg : registerAll strhash64 (tpcleaderInit mem capacity redundancy) regs = some l)
    (hcap : l.followerCount = l.followerCapacity) (hpos : 1 ≤ l.redundancy.toNat)
    (hmax : l.redundancy.toNat < 2 ^ 31) {followers : Addr → KvServer}
    (hw : ∀ f, WellFormed strhash64 (followers f).dir)
    (hm : ∀ k, ∀ f ∈ l.replicas strhash64 k, binding strhash64 (followers f).dir k = m k)
    (indexPage : List UInt8) {events : List WireEvent}
    (hal : ∀ e ∈ events, e.Fits ∧ e.Allowed)
    (hone : OneAtATime strhash64 indexPage l (.init followers) events) :
    ∃ s, runOf (WireSystem.step strhash64 indexPage l) (.init followers) events = some s ∧
      (s.Idle → ∀ k, ∀ f ∈ l.replicas strhash64 k, binding strhash64 (s.followers f).dir k =
        s.outcome m (events.flatMap WireEvent.accepted) k) := by
  have hstart : Sequential strhash64 l (.init followers) m [] := .init hw hm
  obtain ⟨s, hrun, h⟩ := hstart.run (TpcLeader.serves hreg hcap hpos hmax) hal hone
  exact ⟨s, hrun, fun hidle k f hf => h.replica hidle hf⟩

end Registered

/-! ## Runs of a few requests -/

section Runs

variable {strhash64 : CStr → UInt64} {indexPage : List UInt8} {l : TpcLeader}

theorem oneAtATime_append {es es' : List WireEvent} : ∀ {s : WireSystem},
    OneAtATime strhash64 indexPage l s es →
    (∀ s', runOf (WireSystem.step strhash64 indexPage l) s es = some s' →
      OneAtATime strhash64 indexPage l s' es') →
    OneAtATime strhash64 indexPage l s (es ++ es') := by
  induction es with
  | nil => exact fun _ h => h _ rfl
  | cons e es ih =>
    intro s h h'
    refine ⟨h.1, fun s₁ hstep => ih (h.2 s₁ hstep) fun s' hrun => h' s' ?_⟩
    rw [runOf, hstep]
    exact hrun

/-- Nothing is taken up. -/
theorem oneAtATime_of_accepted {es : List WireEvent} : ∀ {s : WireSystem},
    (∀ e ∈ es, e.accepted = []) → OneAtATime strhash64 indexPage l s es := by
  induction es with
  | nil => exact fun _ => trivial
  | cons e es ih =>
    intro s h
    rw [List.forall_mem_cons] at h
    exact ⟨by simp [h.1], fun s' _ => ih h.2⟩

theorem Sequential.idle {s : WireSystem} {is : List ℕ} (h : Sequential strhash64 l s m is)
    (hover : ∀ i ∈ is, ((s.txns i).bind (·.thread.response)).isSome = true) : s.Idle := by
  intro i x hx
  have hi := hover i ((h.taken i).2 (by rw [hx]; rfl))
  rwa [hx] at hi

end Runs

theorem accept_allowed {i : ℕ} {sent : List UInt8} {r : KvRequest} {u : Update}
    (hr : tpcRequest sent = some r) (hu : updateOf r = some u) (hallow : u.Allowed)
    (hfits : ∀ type ∈ [r.type, .commit, .abort], UrlFits { r with type }) :
    (WireEvent.accept i sent).Fits ∧ (WireEvent.accept i sent).Allowed :=
  ⟨fun _ hr' => Option.some.inj (hr.symm.trans hr') ▸ hfits,
    fun _ hr' => Option.some.inj (hr.symm.trans hr') ▸ ⟨u, hu, hallow⟩⟩

theorem cutPutEvents_allowed : ∀ e ∈ cutPutEvents, e.Fits ∧ e.Allowed := by
  have ha : (WireEvent.accept 0 (CStr.ofString "PUT /?key=a&val=x HTTP/1.1\r\n").bytes).Fits ∧
      (WireEvent.accept 0 (CStr.ofString "PUT /?key=a&val=x HTTP/1.1\r\n").bytes).Allowed :=
    accept_allowed cutPutEvents_request (u := .put (.ofString "a") (.ofString "x")) rfl
      (by simp only [Update.Allowed]; decide) (by decide)
  simp only [cutPutEvents, List.forall_mem_cons]
  exact ⟨ha, by simp [WireEvent.Fits, WireEvent.Allowed]⟩

theorem cutPutEvents_oneAtATime :
    OneAtATime (fun _ => 0) [] soloLeader (.init emptyFollowers) cutPutEvents := by
  refine ⟨fun i _ => ⟨rfl, fun j x hx => by cases hx⟩, fun _ _ => ?_⟩
  simp [OneAtATime, WireEvent.accepted]

/-- A `PUT` that one of its replicas votes against, as its message is cut off. The replica that
voted for it has its `ABORT` twice, as the first reply is cut off, and the other one has it after
a refused connection. -/
def failedPut : List WireEvent :=
  [.accept 0 (CStr.ofString "PUT /?key=a&val=x HTTP/1.1\r\n").bytes,
    .exchange 0 (.connected 500 500), .exchange 0 (.connected 9 500),
    .exchange 0 (.connected 500 20), .exchange 0 (.connected 500 500), .exchange 0 .refused,
    .exchange 0 (.connected 500 500)]

/-- A later `PUT` for the same key. The first `COMMIT` is applied, and its reply cut off. -/
def laterPut : List WireEvent :=
  [.accept 1 (CStr.ofString "PUT /?key=a&val=y HTTP/1.1\r\n").bytes,
    .exchange 1 (.connected 500 500), .exchange 1 (.connected 500 500),
    .exchange 1 (.connected 500 20), .exchange 1 (.connected 500 500),
    .exchange 1 (.connected 500 500)]

theorem failedPut_laterPut_allowed : ∀ e ∈ failedPut ++ laterPut, e.Fits ∧ e.Allowed := by
  have hx : (WireEvent.accept 0 (CStr.ofString "PUT /?key=a&val=x HTTP/1.1\r\n").bytes).Fits ∧
      (WireEvent.accept 0 (CStr.ofString "PUT /?key=a&val=x HTTP/1.1\r\n").bytes).Allowed :=
    accept_allowed (r := putRequest "a" "x") (u := .put (.ofString "a") (.ofString "x")) rfl rfl
      (by simp only [Update.Allowed]; decide) (by decide)
  have hy : (WireEvent.accept 1 (CStr.ofString "PUT /?key=a&val=y HTTP/1.1\r\n").bytes).Fits ∧
      (WireEvent.accept 1 (CStr.ofString "PUT /?key=a&val=y HTTP/1.1\r\n").bytes).Allowed :=
    accept_allowed (r := putRequest "a" "y") (u := .put (.ofString "a") (.ofString "y")) rfl rfl
      (by simp only [Update.Allowed]; decide) (by decide)
  simp only [failedPut, laterPut, List.forall_mem_append, List.forall_mem_cons]
  exact ⟨⟨hx, by simp [WireEvent.Fits, WireEvent.Allowed]⟩, hy,
    by simp [WireEvent.Fits, WireEvent.Allowed]⟩

theorem failedPut_laterPut_oneAtATime :
    OneAtATime firstByte [] (trioLeader 2) (.init emptyFollowers) (failedPut ++ laterPut) := by
  have hfirst : OneAtATime firstByte [] (trioLeader 2) (.init emptyFollowers) failedPut :=
    ⟨fun i _ => ⟨rfl, fun j x hx => by cases hx⟩,
      fun _ _ => oneAtATime_of_accepted (by simp [WireEvent.accepted])⟩
  have hstart : Sequential firstByte (trioLeader 2) (.init emptyFollowers) (fun _ => none) [] :=
    .init (fun _ => wellFormed_emptyDir) fun k f _ => by rw [binding_emptyFollowers]
  obtain ⟨s, hrun, h⟩ := hstart.run
    (TpcLeader.serves (trioLeader_registered 2) (by decide +kernel) (by decide +kernel)
      (by decide +kernel))
    (fun e he => failedPut_laterPut_allowed e (List.mem_append_left _ he)) hfirst
  have htaken : [] ++ failedPut.flatMap WireEvent.accepted = [0] := by decide +kernel
  have hend : (runOf (WireSystem.step firstByte [] (trioLeader 2)) (.init emptyFollowers)
      failedPut).map (fun s => ((s.txns 0).bind (·.thread.response)).isSome) = some true := by
    decide +kernel
  rw [htaken] at h
  rw [hrun, Option.map_some, Option.some.injEq] at hend
  refine oneAtATime_append hfirst fun s' hs' => ?_
  obtain rfl : s = s' := Option.some.inj (hrun.symm.trans hs')
  refine ⟨fun i hi => ⟨?_, h.idle (by simpa using hend)⟩,
    fun _ _ => oneAtATime_of_accepted (by simp [WireEvent.accepted])⟩
  obtain rfl : i = 1 := List.mem_singleton.1 (show i ∈ [1] from hi)
  have hnew := mt (h.taken 1).2 (by decide)
  simpa using hnew

theorem wire_oneAtATime_laterPut : ∃ s,
    runOf (WireSystem.step firstByte [] (trioLeader 2)) (.init emptyFollowers)
        (failedPut ++ laterPut) = some s ∧
      (s.Idle → ∀ k, ∀ f ∈ (trioLeader 2).replicas firstByte k,
        binding firstByte (s.followers f).dir k = s.outcome (fun _ => none)
          ((failedPut ++ laterPut).flatMap WireEvent.accepted) k) ∧
      s.outcome (fun _ => none) ((failedPut ++ laterPut).flatMap WireEvent.accepted)
        (.ofString "a") = some (.ofString "y") := by
  obtain ⟨s, hrun, hbinding⟩ := wire_oneAtATime (trioLeader_registered 2) (by decide +kernel)
    (by decide +kernel) (by decide +kernel) (fun _ => wellFormed_emptyDir)
    (fun k f _ => by rw [binding_emptyFollowers]) [] failedPut_laterPut_allowed
    failedPut_laterPut_oneAtATime
  have hend : (runOf (WireSystem.step firstByte [] (trioLeader 2)) (.init emptyFollowers)
      (failedPut ++ laterPut)).map (fun s => s.outcome (fun _ => none)
        ((failedPut ++ laterPut).flatMap WireEvent.accepted) (.ofString "a"))
        = some (some (.ofString "y")) := by decide +kernel
  rw [hrun, Option.map_some, Option.some.injEq] at hend
  exact ⟨s, hrun, hbinding, hend⟩

end Cs162
