import Cs162.Proofs.CutMessages
import Cs162.Proofs.TpcHandle
import Cs162.Wire

/-!
# Two-phase commit over sockets

A run over sockets, where any message may be cut off at any byte, is a run of `TpcSystem`
(`wire_run_refines`): a request that is cut off in its URL does nothing to the follower, as one that
was lost, and a reply that is cut off anywhere counts as one that was lost, since half of `commit`
is no vote for it. So nothing is ever made of a part of a message.
-/

namespace Cs162

open CLib

/-- The types of the requests `tpcleader_handle_tpc` is called with or sends. -/
def tpcTypes : List MsgType := [.putreq, .delreq, .commit, .abort]

/-- A request that `tpcleader_handle_tpc` sends to followers, and whose decision it can send: path,
key and value fit into the buffer of `url_encode`. -/
structure Forwarded (r : KvRequest) : Prop where
  type : r.type ∈ tpcTypes
  clean : UrlParams.All Clean ⟨none, r.key, r.val⟩
  put : r.type = .putreq → r.key ≠ none ∧ r.val ≠ none
  del : r.type = .delreq → r.key ≠ none
  fits : ∀ type ∈ [r.type, .commit, .abort], UrlFits { r with type }

variable {r : KvRequest}

theorem Forwarded.decision (h : Forwarded r) {type : MsgType} (ht : type = .commit ∨ type = .abort) :
    Forwarded { r with type } where
  type := by rcases ht with rfl | rfl <;> simp [tpcTypes]
  clean := h.clean
  put hp := by rcases ht with rfl | rfl <;> cases hp
  del hd := by rcases ht with rfl | rfl <;> cases hd
  fits type' htype := by
    rcases List.mem_cons.1 htype with rfl | htype
    · exact h.fits type' (by rcases ht with rfl | rfl <;> simp)
    · exact h.fits type' (List.mem_cons_of_mem _ htype)

theorem methods_distinct : CStr.ofString "PUT" ≠ .ofString "GET" ∧
    CStr.ofString "DELETE" ≠ .ofString "GET" ∧ CStr.ofString "DELETE" ≠ .ofString "PUT" ∧
    CStr.ofString "POST" ≠ .ofString "GET" ∧ CStr.ofString "POST" ≠ .ofString "PUT" ∧
    CStr.ofString "POST" ≠ .ofString "DELETE" ∧ msgCommit ≠ registerPath ∧
    abortPath ≠ registerPath ∧ abortPath ≠ msgCommit := by decide

theorem Forwarded.sendable (h : Forwarded r) : Sendable r where
  clean := h.clean
  fits := h.fits r.type List.mem_cons_self
  method := by
    obtain ⟨type, key, val⟩ := r
    obtain ⟨h1, h2, h3, h4, h5, h6, h7, h8, h9⟩ := methods_distinct
    have htype := h.type
    simp only [tpcTypes, List.mem_cons, List.not_mem_nil, or_false] at htype
    rcases htype with rfl | rfl | rfl | rfl
    · exact ⟨_, by simp [validMethods], rfl, by simp [requestType, h.put rfl, h1]⟩
    · exact ⟨_, by simp [validMethods], rfl, by simp [requestType, h.del rfl, h2, h3]⟩
    · exact ⟨_, by simp [validMethods], rfl, by
        simp [requestType, pathForRequestType, h4, h5, h6, h7]⟩
    · exact ⟨_, by simp [validMethods], rfl, by
        simp [requestType, pathForRequestType, h4, h5, h6, h8, h9]⟩

/-! ## One exchange -/

variable {strhash64 : CStr → UInt64} {indexPage : List UInt8} {s s' : KvServer} {res : KvResponse}

/-- What a follower answers in two-phase commit. -/
theorem handleTpc_res (htype : r.type ∈ tpcTypes)
    (h : kvserverHandleTpc strhash64 s r = some (s', res)) :
    res ∈ [⟨.vote, some msgCommit⟩, ⟨.error, some errmsgInvalidRequest⟩, ⟨.ack, none⟩] := by
  obtain ⟨type, key, val⟩ := r
  simp only [tpcTypes, List.mem_cons, List.not_mem_nil, or_false] at htype
  simp only [kvserverHandleTpc, Option.bind_eq_bind, Option.bind_eq_some_iff] at h
  obtain ⟨d, -, h⟩ := h
  rcases htype with rfl | rfl | rfl | rfl
  · simp only [Option.pure_def, Option.bind_eq_some_iff] at h
    obtain ⟨_, -, _, -, _, -, h⟩ := h
    cases h
    simp
  · simp only [Option.bind_eq_some_iff] at h
    obtain ⟨_, -, _, -, h⟩ := h
    split_ifs at h <;> cases h <;> simp
  · simp only [Option.pure_def, Option.bind_eq_some_iff] at h
    obtain ⟨_, -, h⟩ := h
    cases h
    simp
  · cases h
    simp

/-- Two outcomes of an exchange that `tpcleader_handle_tpc` does not tell apart. -/
def SameEffect (con con' : Contact) : Prop :=
  votesAbort con = votesAbort con' ∧ acked con = acked con'

theorem SameEffect.trans {con con' con'' : Contact} (h : SameEffect con con')
    (h' : SameEffect con' con'') : SameEffect con con'' := ⟨h.1.trans h'.1, h.2.trans h'.2⟩

theorem replies_fit : ∀ res ∈ [(⟨.vote, some msgCommit⟩ : KvResponse),
    ⟨.error, some errmsgInvalidRequest⟩, ⟨.ack, none⟩],
      ((kvresponseSend res).getD []).length ≤ libhttpMessageMaxSize := by
  decide +kernel

/-- What a reply comes to of which `n` bytes arrive: all or nothing. -/
theorem contactOf_reply (hres : res ∈ [⟨.vote, some msgCommit⟩, ⟨.error, some errmsgInvalidRequest⟩,
    ⟨.ack, none⟩]) (n : ℕ) :
    ∃ con, contactOf (((kvresponseSend res).getD []).take n) = some con ∧
      SameEffect con
        (if ((kvresponseSend res).getD []).length ≤ n then .reply res else .noReply) := by
  obtain ⟨type, body⟩ := res
  have hfit := replies_fit _ hres
  have htype : type ∈ [MsgType.getresp, .success, .error, .vote, .ack] := by
    simp only [List.mem_cons, KvResponse.mk.injEq, List.not_mem_nil, or_false] at hres
    rcases hres with ⟨rfl, -⟩ | ⟨rfl, -⟩ | ⟨rfl, -⟩ <;> simp
  obtain ⟨head, hmsg, hcut⟩ := @kvresponseRecieve_cut ⟨type, body⟩ _ rfl htype
  rw [hmsg] at hfit ⊢
  rw [Option.getD_some] at hfit ⊢
  rw [contactOf, hcut hfit]
  by_cases hn : n < head.length
  · rw [if_pos hn, if_neg (by rw [List.length_append]; omega)]
    exact ⟨.noReply, rfl, rfl, rfl⟩
  rw [if_neg hn]
  refine ⟨_, rfl, ?_⟩
  rw [List.length_append]
  by_cases hfull : head.length + (body.getD (.ofString "")).bytes.length ≤ n
  · rw [if_pos hfull, CStr.cutOff_of_le (by simp only [CStr.strlen]; omega)]
    simp only [List.mem_cons, KvResponse.mk.injEq, List.not_mem_nil, or_false] at hres
    rcases hres with ⟨rfl, rfl⟩ | ⟨rfl, rfl⟩ | ⟨rfl, rfl⟩ <;> exact ⟨rfl, rfl⟩
  · -- A body that is cut off has not the length of `commit`.
    rw [if_neg hfull]
    have hlen := CStr.strlen_cutOff (s := body.getD (.ofString "")) (n := n - head.length)
      (by simp only [CStr.strlen]; omega)
    generalize (body.getD (.ofString "")).cutOff (n - head.length) = cut at hlen ⊢
    simp only [List.mem_cons, KvResponse.mk.injEq, List.not_mem_nil, or_false] at hres
    rcases hres with ⟨rfl, rfl⟩ | ⟨rfl, rfl⟩ | ⟨rfl, rfl⟩
    · have hcommit : cut ≠ msgCommit := by
        rintro rfl
        simp only [Option.getD_some, CStr.strlen] at hfull hlen
        omega
      simp [SameEffect, votesAbort, acked, hcommit]
    · exact ⟨rfl, rfl⟩
    · have hnil : (CStr.ofString "").bytes = [] := rfl
      simp only [Option.getD_none, hnil, List.length_nil] at hfull
      omega

variable (strhash64 indexPage) in
/-- A follower that reads a request over a socket does what it does with the message, or nothing. -/
theorem kvserverHandle_cut (h : Forwarded r) (s : KvServer) (n : ℕ) :
    kvserverHandle strhash64 indexPage s (((kvrequestSend r).getD []).take n) =
        some (s, (kvresponseSend ⟨.error, some errmsgInvalidRequest⟩).getD []) ∨
      kvserverHandle strhash64 indexPage s (((kvrequestSend r).getD []).take n) =
        (kvserverHandleTpc strhash64 s r).map
          fun handled => (handled.1, (kvresponseSend handled.2).getD []) := by
  obtain ⟨head, tail, hmsg, -, -, hcut⟩ := kvrequestRecieve_cut h.sendable
  have hindex : r.type ≠ .index := fun hi => by
    have htype := h.type
    rw [hi] at htype
    simp [tpcTypes] at htype
  rw [hmsg, Option.getD_some, kvserverHandle, hcut]
  by_cases hn : n ≤ head.length
  · rw [if_pos hn]
    exact .inl rfl
  · rw [if_neg hn]
    simp only [if_neg hindex]
    rcases kvserverHandleTpc strhash64 s r with _ | handled
    · exact .inr rfl
    · exact .inr rfl

variable (strhash64 indexPage) in
/-- An exchange over a socket is an exchange of messages, of which some may have been lost. -/
theorem exchange_matches (h : Forwarded r) (c : Cluster) (i : ℕ) (f : Addr) (d : WireDelivery) :
    ∃ d' : Delivery, Option.Rel
      (fun x y => y.1.followers = Function.update c.followers f x.1 ∧ SameEffect x.2 y.2)
      (exchangeBytes strhash64 indexPage (c.followers f) r d) (c.deliver strhash64 i f r d') := by
  rcases d with _ | ⟨request, reply⟩
  · exact ⟨.refused, .some ⟨(Function.update_eq_self f _).symm, rfl, rfl⟩⟩
  simp only [exchangeBytes]
  rcases kvserverHandle_cut strhash64 indexPage h (c.followers f) request with hlost | hwhole
  · obtain ⟨con, hcon, heffect⟩ := @contactOf_reply
      ⟨.error, some errmsgInvalidRequest⟩ (by simp) reply
    refine ⟨.dropped, ?_⟩
    simp only [hlost, Option.bind_eq_bind, Option.bind_some, hcon]
    refine .some ⟨(Function.update_eq_self f _).symm, heffect.trans ?_⟩
    split <;> exact ⟨rfl, rfl⟩
  · rw [hwhole]
    rcases hhandle : kvserverHandleTpc strhash64 (c.followers f) r with _ | ⟨s', res⟩
    · refine ⟨.answered, ?_⟩
      simp only [Option.map_none, Cluster.deliver, Cluster.process, hhandle, Option.bind_eq_bind,
        Option.bind_none]
      exact .none
    obtain ⟨con, hcon, heffect⟩ := contactOf_reply (handleTpc_res h.type hhandle) reply
    simp only [Option.map_some, Option.bind_eq_bind, Option.bind_some, hcon]
    by_cases hfull : ((kvresponseSend res).getD []).length ≤ reply
    · rw [if_pos hfull] at heffect
      refine ⟨.answered, ?_⟩
      simp only [Cluster.deliver, Cluster.process, hhandle, Option.bind_eq_bind, Option.bind_some]
      exact .some ⟨rfl, heffect⟩
    · rw [if_neg hfull] at heffect
      refine ⟨.unanswered, ?_⟩
      simp only [Cluster.deliver, Cluster.process, hhandle, Option.bind_eq_bind, Option.bind_some]
      exact .some ⟨rfl, heffect⟩

/-! ## Whole runs -/

/-- What a thread sends is forwarded. -/
def TpcThread.Forwards (thread : TpcThread) : Prop := ∀ t ∈ thread.locals, Forwarded t.req

variable {l : TpcLeader} {thread thread' : TpcThread} {con con' : Contact} {t : TpcLocals}

theorem receive_congr (h : SameEffect con con') (thread : TpcThread) :
    thread.receive strhash64 l con = thread.receive strhash64 l con' := by
  cases thread with
  | phase1 t => simp only [TpcThread.receive, h.1]
  | phase2 t => simp only [TpcThread.receive, h.2]
  | ended res => rfl

theorem phase2Head_forwards (h : Forwarded t.req) : (phase2Head t).Forwards := by
  intro t' ht'
  unfold phase2Head at ht'
  split_ifs at ht'
  · cases ht'
    exact h
  · cases ht'
  · cases ht'

theorem phase1Head_forwards (h : Forwarded t.req) (hhead : phase1Head strhash64 l t = some thread) :
    thread.Forwards := by
  unfold phase1Head at hhead
  split at hhead
  · cases hhead
    intro t' ht'
    cases ht'
    exact h
  · simp only [endPhase1, Option.pure_def, Option.bind_eq_bind, Option.bind_eq_some_iff] at hhead
    obtain ⟨_, -, _, -, _, -, hthread⟩ := hhead
    cases hthread
    refine phase2Head_forwards (h.decision ?_)
    split
    · exact .inr rfl
    · exact .inl rfl

theorem receive_forwards (h : thread.Forwards)
    (hrec : thread.receive strhash64 l con = some thread') : thread'.Forwards := by
  cases thread with
  | phase1 t =>
    simp only [TpcThread.receive, Option.bind_eq_bind, Option.bind_eq_some_iff] at hrec
    obtain ⟨abort, -, hhead⟩ := hrec
    exact phase1Head_forwards (t := { t with
      rVal := t.rVal - 1
      currFollower := tpcleaderGetSuccessor l t.currFollower
      abortBool := if abort then t.abortBool + 1 else t.abortBool }) (h t rfl) hhead
  | phase2 t =>
    simp only [TpcThread.receive] at hrec
    split at hrec
    · cases hrec
      exact phase2Head_forwards (h t rfl)
    · cases hrec
      exact h
  | ended res =>
    cases hrec
    exact h

theorem handleTpc_forwards (h : Forwarded r) (hhandle : tpcleaderHandleTpc strhash64 l r = some thread) :
    thread.Forwards := by
  unfold tpcleaderHandleTpc at hhandle
  split at hhandle
  · cases hhandle
    intro t ht
    cases ht
  · simp only [Option.bind_eq_bind, Option.bind_eq_some_iff] at hhandle
    obtain ⟨_, -, _, -, primary, -, hhead⟩ := hhandle
    exact phase1Head_forwards (t := ⟨r, l.rVal, primary, 0⟩) h hhead

/-- A request that is accepted fits into the buffer of `url_encode`, as it is and with either
decision. -/
def WireEvent.Fits : WireEvent → Prop
  | accept _ sent => ∀ r, tpcRequest sent = some r →
      ∀ type ∈ [r.type, .commit, .abort], UrlFits { r with type }
  | exchange _ _ => True

theorem requestType_tpc {method : CStr} {params : UrlParams} {type : MsgType}
    (h : requestType method params = some type) (hindex : type ≠ .index)
    (hregister : type ≠ .register) (hget : type ≠ .getreq) : type ∈ tpcTypes := by
  unfold requestType at h
  split_ifs at h <;> cases h <;> simp_all [tpcTypes]

theorem tpcRequest_forwarded {sent : List UInt8} (h : tpcRequest sent = some r)
    (hfits : ∀ type ∈ [r.type, .commit, .abort], UrlFits { r with type }) : Forwarded r := by
  obtain ⟨hrec, htype⟩ := Option.filter_eq_some_iff.1 h
  simp only [ne_eq, decide_eq_true_eq] at htype
  obtain ⟨hclean, method, path, hreq⟩ := kvrequestRecieve_spec hrec
  obtain ⟨hkey, hval⟩ := kvrequestRecieve_fields hrec
  exact {
    type := requestType_tpc hreq htype.1 htype.2.1 htype.2.2
    clean := hclean
    put := fun hp => ⟨hkey (by simp [hp]), hval (by simp [hp])⟩
    del := fun hd => hkey (by simp [hd])
    fits := hfits }

/-- The followers and threads of a `TpcSystem`. -/
def TpcSystem.wire (s : TpcSystem) : WireSystem := ⟨s.cluster.followers, s.txns⟩

@[simp] theorem wire_followers (s : TpcSystem) : s.wire.followers = s.cluster.followers := rfl

@[simp] theorem wire_txns (s : TpcSystem) : s.wire.txns = s.txns := rfl

/-- What an event is for: a request to take up, or an exchange of a thread. -/
def WireEvent.label : WireEvent → List (ℕ × Option KvRequest)
  | accept i sent => (tpcRequest sent).toList.map fun r => (i, some r)
  | exchange i _ => [(i, none)]

def TpcEvent.label : TpcEvent → List (ℕ × Option KvRequest)
  | start i req => [(i, some req)]
  | exchange i _ => [(i, none)]

/-- What relates a run over sockets to one of messages. -/
structure Mirrors (s : WireSystem) (t : TpcSystem) : Prop where
  wire : t.wire = s
  forwards : ∀ i, ∀ x ∈ s.txns i, x.thread.Forwards

theorem forwards_update {txns : ℕ → Option Txn} (h : ∀ i, ∀ x ∈ txns i, x.thread.Forwards) {i : ℕ}
    {call : KvRequest} (hthread : thread.Forwards) :
    ∀ j, ∀ x ∈ Function.update txns i (some ⟨call, thread⟩) j, x.thread.Forwards := by
  intro j x hx
  by_cases hj : j = i
  · subst hj
    rw [Function.update_self, Option.mem_some_iff] at hx
    subst hx
    exact hthread
  · rw [Function.update_of_ne hj] at hx
    exact h j x hx

variable {s : WireSystem} {sys : TpcSystem}

variable (strhash64 l) in
theorem Mirrors.accept (h : Mirrors s sys) (i : ℕ) {sent : List UInt8} (hr : tpcRequest sent = some r)
    (hforward : Forwarded r) :
    Option.Rel Mirrors (s.accept strhash64 l i sent) (sys.start strhash64 l i r) := by
  obtain ⟨rfl, hall⟩ := h
  by_cases hi : (sys.txns i).isSome
  · simp only [WireSystem.accept, hr, TpcSystem.start, wire_txns, hi, if_true]
    exact .some ⟨rfl, hall⟩
  simp only [WireSystem.accept, hr, TpcSystem.start, wire_txns, hi]
  rcases hthread : tpcleaderHandleTpc strhash64 l r with _ | thread
  · exact .none
  · exact .some ⟨rfl, forwards_update hall (handleTpc_forwards hforward hthread)⟩

variable (strhash64 indexPage l) in
theorem Mirrors.exchange (h : Mirrors s sys) (i : ℕ) (d : WireDelivery) : ∃ d' : Delivery,
    Option.Rel Mirrors (s.exchange strhash64 indexPage l i d) (sys.exchange strhash64 l i d') := by
  obtain ⟨rfl, hall⟩ := h
  rcases hx : sys.txns i with _ | ⟨call, thread⟩
  · refine ⟨.refused, ?_⟩
    simp only [WireSystem.exchange, TpcSystem.exchange, wire_txns, hx]
    exact .some ⟨rfl, hall⟩
  have hthread : thread.Forwards := hall i ⟨call, thread⟩ hx
  rcases ht : thread.locals with _ | t
  · refine ⟨.refused, ?_⟩
    simp only [WireSystem.exchange, TpcSystem.exchange, wire_txns, hx, ht]
    exact .some ⟨rfl, hall⟩
  obtain ⟨d', hmatch⟩ := exchange_matches strhash64 indexPage (hthread t ht) sys.cluster i (l.addr t.currFollower) d
  refine ⟨d', ?_⟩
  simp only [WireSystem.exchange, TpcSystem.exchange, wire_txns, wire_followers, hx, ht,
    Option.bind_eq_bind]
  generalize exchangeBytes strhash64 indexPage (sys.cluster.followers (l.addr t.currFollower)) t.req d
    = exchanged at hmatch
  generalize sys.cluster.deliver strhash64 i (l.addr t.currFollower) t.req d' = delivered at hmatch
  rcases hmatch with @⟨exchanged, delivered, hfollowers, heffect⟩ | _
  · rw [Option.bind_some, Option.bind_some, receive_congr heffect]
    rcases hrec : thread.receive strhash64 l delivered.2 with _ | thread'
    · exact .none
    · refine .some ⟨?_, forwards_update hall (receive_forwards hthread hrec)⟩
      simp only [TpcSystem.wire, hfollowers]
  · exact .none

variable (strhash64 indexPage l) in
theorem Mirrors.step (h : Mirrors s sys) {e : WireEvent} (he : e.Fits) :
    ∃ events, events.flatMap TpcEvent.label = e.label ∧
      Option.Rel Mirrors (s.step strhash64 indexPage l e)
        (runOf (TpcSystem.step strhash64 l) sys events) := by
  cases e with
  | accept i sent =>
    rcases hr : tpcRequest sent with _ | r
    · refine ⟨[], by simp [WireEvent.label, hr], ?_⟩
      simp only [WireSystem.step, WireSystem.accept, hr]
      exact .some h
    · refine ⟨[.start i r], by simp [WireEvent.label, TpcEvent.label, hr], ?_⟩
      have hrel := h.accept strhash64 l i hr (tpcRequest_forwarded hr (he r hr))
      simpa only [WireSystem.step, runOf, TpcSystem.step, Option.bind_fun_some] using hrel
  | exchange i d =>
    obtain ⟨d', hrel⟩ := h.exchange strhash64 indexPage l i d
    exact ⟨[.exchange i d'], rfl, by
      simpa only [WireSystem.step, runOf, TpcSystem.step, Option.bind_fun_some] using hrel⟩

theorem TpcSystem.run_eq_runOf : ∀ (events : List TpcEvent) (s : TpcSystem),
    s.run strhash64 l events = runOf (TpcSystem.step strhash64 l) s events
  | [], _ => rfl
  | e :: events, s => by
    rw [TpcSystem.run, runOf, Option.bind_eq_bind]
    exact congrArg _ (funext fun s' => TpcSystem.run_eq_runOf events s')

/-- Whatever becomes of the bytes on the way, the followers and the leader's threads do what they do
in some run of messages, for the same requests. -/
theorem wire_run_refines (strhash64 : CStr → UInt64) (indexPage : List UInt8) (l : TpcLeader)
    (followers : Addr → KvServer) {events : List WireEvent} (hfits : ∀ e ∈ events, e.Fits) :
    ∃ events', events'.flatMap TpcEvent.label = events.flatMap WireEvent.label ∧
      runOf (WireSystem.step strhash64 indexPage l) (.init followers) events =
        ((TpcSystem.init followers).run strhash64 l events').map TpcSystem.wire := by
  have hinit : Mirrors (.init followers) (.init followers) := ⟨rfl, fun i x hx => by cases hx⟩
  obtain ⟨events', hlabel, hrel⟩ := run_simulates
    (fun s t a hst ha => Mirrors.step strhash64 indexPage l hst ha) events hfits hinit
  refine ⟨events', hlabel, ?_⟩
  rw [TpcSystem.run_eq_runOf]
  generalize runOf (WireSystem.step strhash64 indexPage l) (.init followers) events = run at hrel
  generalize runOf (TpcSystem.step strhash64 l) (.init followers) events' = run' at hrel
  rcases hrel with @⟨s, t, h⟩ | _
  · rw [Option.map_some, h.wire]
  · rfl

/-- A `PUT` of which half the first message arrives, and then half the first reply. -/
def cutPutEvents : List WireEvent :=
  [.accept 0 (CStr.ofString "PUT /?key=a&val=x HTTP/1.1\r\n").bytes, .exchange 0 (.connected 9 500),
    .exchange 0 (.connected 500 20), .exchange 0 .refused, .exchange 0 (.connected 500 500)]

theorem cutPutEvents_request :
    tpcRequest (CStr.ofString "PUT /?key=a&val=x HTTP/1.1\r\n").bytes
      = some ⟨.putreq, some (.ofString "a"), some (.ofString "x")⟩ := rfl

theorem cutPutEvents_fits : ∀ e ∈ cutPutEvents, e.Fits := by
  simp only [cutPutEvents, List.forall_mem_cons]
  refine ⟨fun r hr => ?_, trivial, trivial, trivial, trivial, by simp⟩
  rw [cutPutEvents_request, Option.some.injEq] at hr
  subst hr
  decide

theorem wire_run_refines_cutPut : ∃ events',
    events'.flatMap TpcEvent.label = cutPutEvents.flatMap WireEvent.label ∧
      runOf (WireSystem.step (fun _ => 0) [] soloLeader) (.init emptyFollowers) cutPutEvents =
        ((TpcSystem.init emptyFollowers).run (fun _ => 0) soloLeader events').map TpcSystem.wire :=
  wire_run_refines _ _ _ _ cutPutEvents_fits

end Cs162
