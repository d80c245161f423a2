import Cs162.WireGet
import Cs162.Proofs.TpcGet
import Cs162.Proofs.WireSequential

/-!
# Reading beside an update

A `GET` may be handled while an update is on its way to the replicas, and all its messages may be
cut off. It is answered with the value its key had at some point from when it was taken up on, or
with the first bytes of that value where the reply it takes it from was cut off; and if it is
answered that there is no such key, then at some such point there was none, or no replica got all of
the request (`wire_reads`).

What it may see is what the updates of the first of the threads make of the map, at least of those
that were over before it (`Window`): of the update under way a replica has taken notice or it has
not.
-/

namespace Cs162

open CLib

/-! ## One exchange -/

/-- A `GET` for a key that goes through its buffers. -/
structure Asks (req : KvRequest) (k : CStr) : Prop where
  type : req.type = .getreq
  key : req.key = some k
  sendable : Sendable req

theorem getRequest_asks {sent : List UInt8} {req : KvRequest} (h : getRequest sent = some req)
    (hfits : UrlFits req) : ∃ k, Asks req k := by
  obtain ⟨hrec, htype⟩ := Option.filter_eq_some_iff.1 h
  rw [decide_eq_true_eq] at htype
  obtain ⟨hclean, method, path, hreq⟩ := kvrequestRecieve_spec hrec
  obtain ⟨type, key, val⟩ := req
  obtain rfl : type = .getreq := htype
  rcases key with _ | k
  · unfold requestType at hreq
    split_ifs at hreq <;> simp_all
  · exact ⟨k, rfl, rfl, hclean, ⟨.ofString "GET", by decide, rfl, by simp [requestType]⟩, hfits⟩

/-- The reply is cut off, if there is one. -/
def WireDelivery.Cuts : WireDelivery → Prop
  | refused => False
  | connected _ reply => reply < libhttpMessageMaxSize

/-- What an exchange of a `GET` brings, given the value that the follower holds. -/
def GetContact (sent : List UInt8) (value : Option CStr) (d : WireDelivery) : Contact → Prop
  | .refused => d.sends sent = false
  | .noReply => d.Cuts
  | .reply res => res.type = .error ∧ (d.sends sent = true → value = none) ∨
      ∃ v body, value = some v ∧ res = ⟨.getresp, some body⟩ ∧ body.bytes <+: v.bytes ∧
        (body = v ∨ d.Cuts)

section Exchange

variable {strhash64 : CStr → UInt64} {indexPage : List UInt8} {s : KvServer} {req : KvRequest}
  {k : CStr}

theorem errors_fit : ∀ res ∈ [(⟨.error, some errmsgInvalidRequest⟩ : KvResponse),
    ⟨.error, some errmsgNoKey⟩],
      ((kvresponseSend res).getD []).length ≤ libhttpMessageMaxSize := by
  decide +kernel

/-- A value within the limits fits into a response. -/
theorem value_fits {v : CStr} (hv : v.strlen ≤ maxVallen) :
    ((kvresponseSend ⟨.getresp, some v⟩).getD []).length ≤ libhttpMessageMaxSize := by
  have hdec : (decimal v.strlen).length ≤ 4 :=
    length_decimal_le (by omega) (hv.trans_lt (by decide))
  obtain ⟨start, hstart, hlen⟩ : ∃ start, httpStartResponse 200 = some start ∧ start.length = 17 :=
    ⟨_, rfl, by decide +kernel⟩
  have hname : contentLengthName.bytes.length = 14 := rfl
  have hend : (CStr.ofString "\r\n").bytes.length = 2 := rfl
  simp only [kvresponseSend, httpCodeForResponseType, hstart, httpAddHeader, httpEndHeaders,
    httpAddString, crlf, Option.bind_eq_bind, Option.bind_some, Option.pure_def, Option.getD_some,
    List.length_append, List.length_cons, List.length_nil, hlen, hname, hend]
  simp only [CStr.strlen, maxVallen, libhttpMessageMaxSize] at hv hdec ⊢
  omega

/-- What is read of a response to a `GET`. -/
theorem contactOf_answer {res : KvResponse} (htype : res.type = .getresp ∨ res.type = .error)
    (hfits : ((kvresponseSend res).getD []).length ≤ libhttpMessageMaxSize) (n : ℕ) :
    ∃ con, contactOf (((kvresponseSend res).getD []).take n) = some con ∧
      (con = .noReply ∧ n < ((kvresponseSend res).getD []).length ∨
        ∃ body, con = .reply ⟨res.type, some body⟩ ∧
          body.bytes <+: (res.body.getD (.ofString "")).bytes ∧
          (body = res.body.getD (.ofString "") ∨ n < ((kvresponseSend res).getD []).length)) := by
  have hmem : res.type ∈ [MsgType.getresp, .success, .error, .vote, .ack] := by
    rcases htype with h | h <;> simp [h]
  obtain ⟨head, hmsg, hcut⟩ := kvresponseRecieve_cut rfl hmem
  set data := res.body.getD (.ofString "")
  rw [hmsg, Option.getD_some] at hfits ⊢
  have hread := hcut hfits n
  rw [contactOf, List.length_append]
  by_cases hn : n < head.length
  · rw [if_pos hn] at hread
    rw [hread]
    exact ⟨.noReply, rfl, .inl ⟨rfl, by omega⟩⟩
  · rw [if_neg hn] at hread
    rw [hread]
    refine ⟨_, rfl, .inr ⟨data.cutOff (n - head.length), rfl, List.take_prefix _ _, ?_⟩⟩
    by_cases hfull : head.length + data.bytes.length ≤ n
    · exact .inl (CStr.cutOff_of_le (by simp only [CStr.strlen]; omega))
    · exact .inr (by omega)

variable (indexPage) in
/-- A follower that reads a `GET` answers it, or that it is no request. -/
theorem kvserverHandle_get (h : Asks req k) (hw : WellFormed strhash64 s.dir) (n : ℕ) :
    ∃ res, kvserverHandle strhash64 indexPage s (((kvrequestSend req).getD []).take n)
        = some (s, (kvresponseSend res).getD []) ∧
      (res = ⟨.error, some errmsgInvalidRequest⟩ ∧ n < ((kvrequestSend req).getD []).length ∨
        res = getAnswer (binding strhash64 s.dir k)) := by
  obtain ⟨head, tail, hmsg, htail, -, hcut⟩ := kvrequestRecieve_cut h.sendable
  have hpos := List.length_pos_of_ne_nil htail
  have hindex : req.type ≠ .index := by simp [h.type]
  rw [hmsg, Option.getD_some, kvserverHandle, hcut, List.length_append]
  by_cases hn : n ≤ head.length
  · rw [if_pos hn]
    exact ⟨_, rfl, .inl ⟨rfl, by omega⟩⟩
  · simp only [if_neg hn, if_neg hindex, handle_get hw h.type h.key, Option.bind_eq_bind,
      Option.bind_some]
    exact ⟨_, rfl, .inr rfl⟩

variable (indexPage) in
theorem exchangeBytes_get (h : Asks req k) (hw : WellFormed strhash64 s.dir)
    (hsmall : ∀ v, binding strhash64 s.dir k = some v → v.strlen ≤ maxVallen) (d : WireDelivery) :
    ∃ con, exchangeBytes strhash64 indexPage s req d = some (s, con) ∧
      GetContact ((kvrequestSend req).getD []) (binding strhash64 s.dir k) d con := by
  rcases d with _ | ⟨request, reply⟩
  · exact ⟨.refused, rfl, rfl⟩
  obtain ⟨res, hhandle, hres⟩ := kvserverHandle_get indexPage h hw request
  have hfacts : (res.type = .getresp ∨ res.type = .error) ∧
      ((kvresponseSend res).getD []).length ≤ libhttpMessageMaxSize := by
    rcases hres with ⟨rfl, -⟩ | rfl
    · exact ⟨.inr rfl, errors_fit _ (by simp)⟩
    · rcases hb : binding strhash64 s.dir k with _ | v
      · exact ⟨.inr rfl, errors_fit _ (by simp [getAnswer])⟩
      · exact ⟨.inl rfl, value_fits (hsmall v hb)⟩
  obtain ⟨con, hcon, hcases⟩ := contactOf_answer hfacts.1 hfacts.2 reply
  refine ⟨con, by simp [exchangeBytes, hhandle, hcon], ?_⟩
  rcases hcases with ⟨rfl, hcut⟩ | ⟨body, rfl, hprefix, hbody⟩
  · exact hcut.trans_le hfacts.2
  rcases hres with ⟨rfl, hlost⟩ | rfl
  · refine .inl ⟨rfl, fun hsends => ?_⟩
    simp only [WireDelivery.sends, decide_eq_true_eq] at hsends
    omega
  · rcases hb : binding strhash64 s.dir k with _ | v
    · exact .inl ⟨rfl, fun _ => rfl⟩
    · rw [hb] at hprefix hbody hfacts
      exact .inr ⟨v, body, rfl, rfl, hprefix, hbody.imp_right fun hcut => hcut.trans_le hfacts.2⟩

end Exchange

/-! ## What a `GET` may see -/

/-- The first of the threads taken up, with all that were over before a `GET`. -/
def Window (before taken js : List ℕ) : Prop := before <+: js ∧ js <+: taken

theorem prefix_dropLast {as bs : List ℕ} (h : as <+: bs) (hne : as ≠ bs) : as <+: bs.dropLast := by
  refine List.prefix_of_prefix_length_le h (List.dropLast_prefix _) ?_
  have hlt : as.length < bs.length := lt_of_le_of_ne h.length_le fun e => hne (h.eq_of_length e)
  rw [List.length_dropLast]
  omega

section Over

variable {strhash64 : CStr → UInt64} {indexPage : List UInt8} {l : TpcLeader} {s s' : WireSystem}
  {m : CStr → Option CStr} {i : ℕ} {taken before : List ℕ}

theorem isOver_of_txns {x : Txn} (hx : s.txns i = some x) :
    s.isOver i = x.thread.response.isSome := by
  simp [WireSystem.isOver, hx]

/-- What is over stays so. -/
theorem isOver_step {e : WireEvent} (h : s.step strhash64 indexPage l e = some s')
    (hover : s.isOver i = true) : s'.isOver i = true := by
  rcases hx : s.txns i with _ | x
  · simp [WireSystem.isOver, hx] at hover
  rw [isOver_of_txns hx] at hover
  suffices hsame : s'.txns i = s.txns i by rw [isOver_of_txns (hsame.trans hx), hover]
  cases e with
  | accept j sent =>
    simp only [WireSystem.step, WireSystem.accept] at h
    split at h
    · rw [← Option.some.inj h]
    · split_ifs at h with hbusy
      · rw [← Option.some.inj h]
      · obtain ⟨_, -, h⟩ := Option.bind_eq_some_iff.1 h
        rw [← Option.some.inj h]
        refine Function.update_of_ne ?_ _ _
        rintro rfl
        simp [hx] at hbusy
  | exchange j d =>
    simp only [WireSystem.step, WireSystem.exchange] at h
    split at h
    · rw [← Option.some.inj h]
    · rename_i y hy
      split at h
      · rw [← Option.some.inj h]
      · rename_i t ht
        simp only [Option.bind_eq_bind, Option.bind_eq_some_iff, Option.pure_def,
          Option.some.injEq] at h
        obtain ⟨_, -, _, -, rfl⟩ := h
        refine Function.update_of_ne ?_ _ _
        rintro rfl
        obtain rfl : x = y := Option.some.inj (hx.symm.trans hy)
        rw [response_none.2 ⟨t, ht⟩] at hover
        cases hover

/-- Threads that are over, and come before all that are not. -/
structure Before (s : WireSystem) (taken before : List ℕ) : Prop where
  first : before <+: taken
  isOver : ∀ i ∈ before, s.isOver i = true

theorem Before.idle (h : Before s taken taken) (hs : Sequential strhash64 l s m taken) :
    s.Idle := by
  intro i x hx
  rw [← isOver_of_txns hx]
  refine h.isOver i ((hs.taken i).2 ?_)
  rw [Option.mem_def.1 hx]
  rfl

/-- All threads but the last are over. -/
theorem Sequential.before_filter (hs : Sequential strhash64 l s m taken) :
    Before s taken (taken.filter s.isOver) := by
  refine ⟨?_, fun i hi => (List.mem_filter.1 hi).2⟩
  rcases List.eq_nil_or_concat taken with rfl | ⟨js, i, rfl⟩
  · exact List.nil_prefix
  rw [List.concat_eq_append] at hs ⊢
  have hjs : js.filter s.isOver = js := by
    refine List.filter_eq_self.2 fun j hj => ?_
    obtain ⟨x, hx⟩ := Option.isSome_iff_exists.1 ((hs.taken j).1 (List.mem_append_left _ hj))
    rw [isOver_of_txns hx]
    by_contra hnone
    rw [Option.not_isSome_iff_eq_none] at hnone
    have hlast := hs.last j x hx hnone
    rw [List.getLast?_concat, Option.some.injEq] at hlast
    exact (List.nodup_append.1 hs.nodup).2.2 j hj i List.mem_cons_self hlast.symm
  rw [List.filter_append, hjs, List.prefix_append_right_inj]
  simp only [List.filter_cons, List.filter_nil]
  split_ifs
  · exact List.prefix_rfl
  · exact List.nil_prefix

theorem Before.step {e : WireEvent} (h : Before s taken before)
    (hstep : s.step strhash64 indexPage l e = some s') : Before s' (taken ++ e.accepted) before :=
  ⟨h.first.trans (List.prefix_append _ _), fun i hi => isOver_step hstep (h.isOver i hi)⟩

/-- A value is still to be seen after a step of the updates. -/
theorem Window.age {accepted js : List ℕ} (h : Window before taken js) (hb : Before s taken before)
    (hs : Sequential strhash64 l s m taken) (hages : Ages s s' m taken) :
    ∃ js', Window before (taken ++ accepted) js' ∧ s'.outcome m js' = s.outcome m js := by
  obtain ⟨js', hcases, houtcome⟩ := hages js h.2
  rcases hcases with rfl | ⟨rfl, rfl, hidle⟩
  · exact ⟨_, ⟨h.1, h.2.trans (List.prefix_append _ _)⟩, houtcome⟩
  · have hne : before ≠ js := by
      rintro rfl
      exact hidle (hb.idle hs)
    exact ⟨_, ⟨prefix_dropLast hb.first hne,
      (List.dropLast_prefix _).trans (List.prefix_append _ _)⟩, houtcome⟩

/-- The value a replica holds is one that a `GET` may see. -/
theorem Before.replica (hb : Before s taken before) (hs : Sequential strhash64 l s m taken)
    {k : CStr} {f : Addr} (hf : f ∈ l.replicas strhash64 k) :
    ∃ js, Window before taken js ∧ binding strhash64 (s.followers f).dir k = s.outcome m js k := by
  by_cases hall : before = taken
  · subst hall
    exact ⟨before, ⟨List.prefix_rfl, List.prefix_rfl⟩, hs.replica (hb.idle hs) hf⟩
  · rcases hs.reads k f hf with hread | hread
    · exact ⟨taken, ⟨hb.first, List.prefix_rfl⟩, hread⟩
    · exact ⟨_, ⟨prefix_dropLast hb.first hall, List.dropLast_prefix _⟩, hread⟩

end Over

/-- The answer to a `GET` of thread `j`, when `happened` holds of all that has happened. -/
def Answered (happened : ReadEvent → Prop) (s : ReadSystem) (m : CStr → Option CStr) (j : ℕ)
    (call : GetCall) (k : CStr) (res : KvResponse) : Prop :=
  (res = ⟨.error, some errmsgNoKey⟩ ∧ (call.asked = true → ∃ js,
      Window call.before s.taken js ∧ s.wire.outcome m js k = none)) ∨
    ∃ js v body, Window call.before s.taken js ∧ s.wire.outcome m js k = some v ∧
      res = ⟨.getresp, some body⟩ ∧ body.bytes <+: v.bytes ∧
      (body = v ∨ ∃ d, happened (.read j d) ∧ d.Cuts)

section Run

variable (strhash64 : CStr → UInt64) (l : TpcLeader)

/-- Where the thread of a `GET` stands: before the exchange with replica `n` of its key, or
answered. -/
inductive GetStands (happened : ReadEvent → Prop) (s : ReadSystem) (m : CStr → Option CStr) (j : ℕ)
    (call : GetCall) (k : CStr) : GetThread → Prop
  | loop (n : ℕ) (hn : n < l.redundancy.toNat)
      (hasked : call.asked = true → ∃ js, Window call.before s.taken js ∧
        s.wire.outcome m js k = none) :
      GetStands happened s m j call k
        (.loop (l.redundancy.toNat - n) (some (l.walk strhash64 k n)))
  | ended (res : KvResponse) (h : Answered happened s m j call k res) :
      GetStands happened s m j call k (.ended res)

structure ReadInv (happened : ReadEvent → Prop) (m : CStr → Option CStr) (s : ReadSystem) :
    Prop where
  updates : Sequential strhash64 l s.wire m s.taken
  gets : ∀ j call, s.gets j = some call → ∃ k, Asks call.req k ∧ Before s.wire s.taken call.before ∧
    GetStands strhash64 l happened s m j call k call.thread

end Run

variable {strhash64 : CStr → UInt64} {indexPage : List UInt8} {l : TpcLeader} {s s' : ReadSystem}
  {m : CStr → Option CStr} {happened : ReadEvent → Prop} {i j : ℕ} {call : GetCall} {k : CStr}

/-- What a `GET` has seen is still to be seen after steps of others. -/
theorem GetStands.mono {thread : GetThread} (h : GetStands strhash64 l happened s m j call k thread)
    (hsees : ∀ js, Window call.before s.taken js → ∃ js', Window call.before s'.taken js' ∧
      s'.wire.outcome m js' = s.wire.outcome m js) :
    GetStands strhash64 l happened s' m j call k thread := by
  have hnone : (∃ js, Window call.before s.taken js ∧ s.wire.outcome m js k = none) →
      ∃ js, Window call.before s'.taken js ∧ s'.wire.outcome m js k = none := by
    rintro ⟨js, hjs, hk⟩
    obtain ⟨js', hjs', houtcome⟩ := hsees js hjs
    exact ⟨js', hjs', by rw [houtcome, hk]⟩
  cases h with
  | loop n hn hasked => exact .loop n hn fun ha => hnone (hasked ha)
  | ended res h =>
    refine .ended res ?_
    rcases h with ⟨hres, hasked⟩ | ⟨js, v, body, hjs, hk, hrest⟩
    · exact .inl ⟨hres, fun ha => hnone (hasked ha)⟩
    · obtain ⟨js', hjs', houtcome⟩ := hsees js hjs
      exact .inr ⟨js', v, body, hjs', by rw [houtcome, hk], hrest⟩

/-! ## Values within the limits -/

/-- All values of a map are within the limits of `kvserver_put_check`. -/
def Small (m : CStr → Option CStr) : Prop := ∀ k v, m k = some v → v.strlen ≤ maxVallen

theorem Update.Allowed.small {u : Update} (hu : u.Allowed) (hm : Small m) : Small (u.apply m) := by
  intro k v hv
  rw [Update.apply, Function.update_apply] at hv
  split_ifs at hv
  · cases u with
    | put k' v' =>
      obtain rfl : v' = v := Option.some.inj hv
      exact hu.2
    | del k' => cases hv
  · exact hm k v hv

theorem Sequential.outcome_small {is : List ℕ} {s : WireSystem} (h : Sequential strhash64 l s m is)
    (hm : Small m) : ∀ js : List ℕ, Small (s.outcome m js) := by
  have hallowed : ∀ i u, s.committed i = some u → u.Allowed := by
    intro i u hu
    obtain ⟨⟨sys, hmirrors, hinv⟩, -⟩ := h
    obtain rfl := hmirrors.wire
    simp only [WireSystem.committed, Option.bind_eq_bind, Option.bind_eq_some_iff] at hu
    obtain ⟨x, hx, hu⟩ := hu
    obtain ⟨u', hu', hal, -⟩ := hinv.txn i x hx
    split_ifs at hu
    obtain rfl : u' = u := Option.some.inj (hu'.symm.trans hu)
    exact hal
  intro js
  induction js using List.reverseRecOn with
  | nil => exact hm
  | append_singleton js i ih =>
    rw [outcome_append]
    rcases hc : s.committed i with _ | u
    · exact ih
    · exact (hallowed i u hc).small ih

/-! ## The steps -/

theorem ReadInv.setGet (h : ReadInv strhash64 l happened m s) {call : GetCall}
    (hcall : ∃ k, Asks call.req k ∧ Before s.wire s.taken call.before ∧
      GetStands strhash64 l happened s m j call k call.thread) :
    ReadInv strhash64 l happened m { s with gets := Function.update s.gets j (some call) } where
  updates := h.updates
  gets := by
    intro i other hother
    replace hother : Function.update s.gets j (some call) i = some other := hother
    by_cases hi : i = j
    · subst hi
      rw [Function.update_self, Option.some.injEq] at hother
      subst hother
      obtain ⟨k, hasks, hbefore, hstands⟩ := hcall
      exact ⟨k, hasks, hbefore, hstands.mono fun js hjs => ⟨js, hjs, rfl⟩⟩
    · rw [Function.update_of_ne hi] at hother
      obtain ⟨k, hasks, hbefore, hstands⟩ := h.gets i other hother
      exact ⟨k, hasks, hbefore, hstands.mono fun js hjs => ⟨js, hjs, rfl⟩⟩

variable (indexPage) in
theorem ReadInv.update (hs : l.Serves strhash64) (h : ReadInv strhash64 l happened m s)
    {e : WireEvent} (hfits : e.Fits) (hallow : e.Allowed)
    (hone : ∀ i ∈ e.accepted, s.wire.txns i = none ∧ s.wire.Idle) :
    ∃ s', s.update strhash64 indexPage l e = some s' ∧ ReadInv strhash64 l happened m s' := by
  obtain ⟨wire, hstep, hupdates, hages⟩ := h.updates.step indexPage hs hfits hallow hone
  refine ⟨{ s with wire, taken := s.taken ++ e.accepted }, by simp [ReadSystem.update, hstep],
    hupdates, fun j call hcall => ?_⟩
  obtain ⟨k, hasks, hbefore, hstands⟩ := h.gets j call hcall
  exact ⟨k, hasks, hbefore.step hstep, hstands.mono fun js hjs => hjs.age hbefore h.updates hages⟩

theorem ReadInv.get (hs : l.Serves strhash64) (h : ReadInv strhash64 l happened m s) (j : ℕ)
    {sent : List UInt8} (hfits : ∀ req, getRequest sent = some req → UrlFits req) :
    ∃ s', s.get strhash64 l j sent = some s' ∧ ReadInv strhash64 l happened m s' ∧
      s'.wire = s.wire := by
  unfold ReadSystem.get
  rcases hreq : getRequest sent with _ | req
  · exact ⟨s, rfl, h, rfl⟩
  simp only
  split_ifs with hbusy
  · exact ⟨s, rfl, h, rfl⟩
  obtain ⟨k, hasks⟩ := getRequest_asks hreq (hfits req hreq)
  have hthread : tpcleaderHandleGet strhash64 l req
      = some (.loop (l.redundancy.toNat - (0 : ℕ)) (some (l.walk strhash64 k 0))) := by
    have hpos := hs.pos
    simp only [tpcleaderHandleGet, hasks.key, hs.primary_eq, Option.bind_eq_bind, Option.bind_some,
      Option.pure_def, getHead, hs.rVal, Nat.cast_zero, sub_zero]
    rw [if_pos (by omega)]
  rw [hthread]
  exact ⟨_, rfl, h.setGet ⟨k, hasks, h.updates.before_filter, .loop 0 hs.pos (by simp)⟩, rfl⟩

/-- Past a replica, a thread stands before the next or is over. -/
theorem getHead_stands (hs : l.Serves strhash64) {n : ℕ}
    (hasked : call.asked = true → ∃ js, Window call.before s.taken js ∧
      s.wire.outcome m js k = none) :
    GetStands strhash64 l happened s m j call k (getHead (l.redundancy.toNat - n - 1)
      (some (tpcleaderGetSuccessor l (l.walk strhash64 k n)))) := by
  rw [TpcLeader.walk_succ hs, getHead]
  split_ifs with hlast
  · have hcast : (l.redundancy.toNat : ℤ) - n - 1 = l.redundancy.toNat - (n + 1 : ℕ) := by
      rw [Nat.cast_succ, sub_sub]
    rw [hcast]
    exact .loop (n + 1) (by omega) hasked
  · exact .ended _ (.inl ⟨rfl, hasked⟩)

theorem Sequential.wellFormed {is : List ℕ} {s : WireSystem} (h : Sequential strhash64 l s m is)
    (f : Addr) : WellFormed strhash64 (s.followers f).dir := by
  obtain ⟨⟨sys, hmirrors, hinv⟩, -⟩ := h
  obtain rfl := hmirrors.wire
  exact (hinv.follower f).wellFormed

variable (indexPage) in
/-- An exchange of a `GET`. The leader reads through `NULL` only where the reply was cut off. -/
theorem ReadInv.read (hs : l.Serves strhash64) (hm : Small m)
    (h : ReadInv strhash64 l happened m s) {d : WireDelivery} (hd : happened (.read j d)) :
    (∃ s', s.read strhash64 indexPage l j d = some s' ∧ ReadInv strhash64 l happened m s' ∧
        s'.wire = s.wire) ∨
      s.read strhash64 indexPage l j d = none ∧ d.Cuts := by
  rcases hcall : s.gets j with _ | call
  · exact .inl ⟨s, by simp [ReadSystem.read, hcall], h, rfl⟩
  obtain ⟨k, hasks, hbefore, hstands⟩ := h.gets j call hcall
  obtain ⟨req, thread, before, asked⟩ := call
  cases hstands with
  | ended res hres => exact .inl ⟨s, by simp [ReadSystem.read, hcall], h, rfl⟩
  | loop n hn hasked =>
    have hf : l.addr (l.walk strhash64 k n) ∈ l.replicas strhash64 k :=
      (TpcLeader.mem_replicas hs).2 ⟨n, hn, rfl⟩
    obtain ⟨js, hjs, hread⟩ := hbefore.replica h.updates hf
    obtain ⟨con, hexchange, hcon⟩ := exchangeBytes_get indexPage hasks (h.updates.wellFormed _)
      (fun v hv => h.updates.outcome_small hm js k v (hread ▸ hv)) d
    rw [hread] at hcon
    have hsame : ∀ call', ({ s with
        wire.followers := Function.update s.wire.followers (l.addr (l.walk strhash64 k n))
          (s.wire.followers (l.addr (l.walk strhash64 k n)))
        gets := Function.update s.gets j (some call') } : ReadSystem)
          = { s with gets := Function.update s.gets j (some call') } := by
      intro call'
      rw [Function.update_eq_self]
    simp only [ReadSystem.read, hcall, Option.bind_eq_bind, Option.bind_some, hexchange, hsame,
      round_eq hasks.type, if_pos hasks.sendable.fits]
    cases con with
    | refused =>
      refine .inl ⟨_, rfl, h.setGet ⟨k, hasks, hbefore, getHead_stands hs fun ha => ?_⟩, rfl⟩
      rw [show d.sends ((kvrequestSend req).getD []) = false from hcon, Bool.or_false] at ha
      exact hasked ha
    | noReply => exact .inr ⟨rfl, hcon⟩
    | reply res =>
      rcases hcon with ⟨herror, hsends⟩ | ⟨v, body, hv, rfl, hprefix, hbody⟩
      · simp only [GetThread.receive, herror, Option.bind_eq_bind, Option.bind_some, reduceCtorEq,
          if_false, Option.pure_def]
        refine .inl ⟨_, rfl, h.setGet ⟨k, hasks, hbefore, getHead_stands hs fun ha => ?_⟩, rfl⟩
        rcases Bool.or_eq_true_iff.1 ha with ha | ha
        · exact hasked ha
        · exact ⟨js, hjs, hsends ha⟩
      · exact .inl ⟨_, rfl, h.setGet ⟨k, hasks, hbefore, .ended _ (.inr ⟨js, v, body, hjs, hv, rfl,
          hprefix, hbody.imp_right fun hcut => ⟨d, hd, hcut⟩⟩)⟩, rfl⟩

/-! ## The result -/

/-- The event of the updates that an event is, if it is one. -/
def ReadEvent.update? : ReadEvent → Option WireEvent
  | update e => some e
  | _ => none

/-- Requests fit into the buffer of `url_encode`, and updates are within the limits. -/
def ReadEvent.Allowed : ReadEvent → Prop
  | update e => e.Fits ∧ e.Allowed
  | get _ sent => ∀ req, getRequest sent = some req → UrlFits req
  | read _ _ => True

variable (indexPage) in
theorem ReadInv.run (hs : l.Serves strhash64) (hm : Small m) :
    ∀ {events : List ReadEvent} {s : ReadSystem}, ReadInv strhash64 l happened m s →
    (∀ ev ∈ events, happened ev ∧ ev.Allowed) →
    OneAtATime strhash64 indexPage l s.wire (events.filterMap ReadEvent.update?) →
    (∃ s', runOf (ReadSystem.step strhash64 indexPage l) s events = some s' ∧
      ReadInv strhash64 l happened m s') ∨
    runOf (ReadSystem.step strhash64 indexPage l) s events = none ∧
      ∃ j d, happened (.read j d) ∧ d.Cuts
  | [], s, h, _, _ => .inl ⟨s, rfl, h⟩
  | ev :: events, s, h, hal, hone => by
    obtain ⟨⟨hev, hallowed⟩, hevents⟩ := List.forall_mem_cons.1 hal
    -- The rest of the run, from a next state with the updates' part given.
    have hrest : ∀ {s'}, s.step strhash64 indexPage l ev = some s' →
        ReadInv strhash64 l happened m s' →
        OneAtATime strhash64 indexPage l s'.wire (events.filterMap ReadEvent.update?) →
        (∃ s', runOf (ReadSystem.step strhash64 indexPage l) s (ev :: events) = some s' ∧
          ReadInv strhash64 l happened m s') ∨
        runOf (ReadSystem.step strhash64 indexPage l) s (ev :: events) = none ∧
          ∃ j d, happened (.read j d) ∧ d.Cuts := by
      intro s' hstep h' hone'
      rw [runOf, hstep]
      exact h'.run hs hm hevents hone'
    cases ev with
    | update e =>
      simp only [List.filterMap_cons, ReadEvent.update?, OneAtATime] at hone
      obtain ⟨s', hstep, h'⟩ := h.update indexPage hs hallowed.1 hallowed.2 hone.1
      refine hrest hstep h' (hone.2 s'.wire ?_)
      simp only [ReadSystem.update, Option.bind_eq_bind, Option.bind_eq_some_iff, Option.pure_def,
        Option.some.injEq] at hstep
      obtain ⟨wire, hwire, rfl⟩ := hstep
      exact hwire
    | get j sent =>
      obtain ⟨s', hstep, h', hwire⟩ := h.get hs j hallowed
      exact hrest hstep h' (hwire ▸ hone)
    | read j d =>
      rcases h.read indexPage hs hm hev with ⟨s', hstep, h', hwire⟩ | ⟨hstep, hcut⟩
      · exact hrest hstep h' (hwire ▸ hone)
      · refine .inr ⟨?_, j, d, hev, hcut⟩
        rw [runOf, ReadSystem.step, hstep, Option.bind_none]

section Registered

variable {mem : TpcLeader} {capacity redundancy : UInt32} {regs : List KvRequest}

/-- While updates come one after the other, any number of `GET`s may be under way, and whatever
becomes of the bytes on the way: a `GET` that is answered is answered with what its key had when the
`GET` was taken up or since, or the first bytes of it where a reply to this `GET` was cut off. The
leader can only break down over a reply that was cut off. -/
theorem wire_reads
    (hreg : registerAll strhash64 (tpcleaderInit mem capacity redundancy) regs = some l)
    (hcap : l.followerCount = l.followerCapacity) (hpos : 1 ≤ l.redundancy.toNat)
    (hmax : l.redundancy.toNat < 2 ^ 31) {followers : Addr → KvServer}
    (hw : ∀ f, WellFormed strhash64 (followers f).dir) (hsmall : Small m)
    (hm : ∀ k, ∀ f ∈ l.replicas strhash64 k, binding strhash64 (followers f).dir k = m k)
    (indexPage : List UInt8) {events : List ReadEvent} (hal : ∀ ev ∈ events, ev.Allowed)
    (hone : OneAtATime strhash64 indexPage l (.init followers)
      (events.filterMap ReadEvent.update?)) :
    (∃ s, runOf (ReadSystem.step strhash64 indexPage l) (.init followers) events = some s ∧
      ∀ j call res, s.gets j = some call → call.thread = .ended res →
        ∃ k, call.req.key = some k ∧ Answered (· ∈ events) s m j call k res) ∨
    runOf (ReadSystem.step strhash64 indexPage l) (.init followers) events = none ∧
      ∃ j d, .read j d ∈ events ∧ d.Cuts := by
  have hstart : ReadInv strhash64 l (· ∈ events) m (.init followers) :=
    ⟨.init hw hm, fun j call hcall => by cases hcall⟩
  rcases hstart.run indexPage (TpcLeader.serves hreg hcap hpos hmax) hsmall
    (fun ev hev => ⟨hev, hal ev hev⟩) hone with ⟨s, hrun, h⟩ | hbreak
  · refine .inl ⟨s, hrun, fun j call res hcall hres => ?_⟩
    obtain ⟨k, hasks, -, hstands⟩ := h.gets j call hcall
    rw [hres] at hstands
    cases hstands with
    | ended _ hanswered => exact ⟨k, hasks.key, hanswered⟩
  · exact .inr hbreak

end Registered

/-- A `GET` for the key of a `PUT` while that is under way. -/
def getBesidePut : List ReadEvent :=
  (cutPutEvents.take 4).map .update ++
    [.get 1 (CStr.ofString "GET /?key=a HTTP/1.1\r\n").bytes, .read 1 (.connected 500 500)] ++
    (cutPutEvents.drop 4).map .update

theorem wire_reads_getBesidePut :
    (∃ s, runOf (ReadSystem.step (fun _ => 0) [] soloLeader) (.init emptyFollowers) getBesidePut
        = some s ∧
      ∀ j call res, s.gets j = some call → call.thread = .ended res →
        ∃ k, call.req.key = some k ∧ Answered (· ∈ getBesidePut) s (fun _ => none) j call k res) ∨
    runOf (ReadSystem.step (fun _ => 0) [] soloLeader) (.init emptyFollowers) getBesidePut = none ∧
      ∃ j d, .read j d ∈ getBesidePut ∧ d.Cuts := by
  refine wire_reads soloLeader_registered rfl (by decide) (by decide)
    (fun _ => wellFormed_emptyDir) (fun k v hv => by cases hv)
    (fun k f _ => by rw [binding_emptyFollowers]) [] ?_ cutPutEvents_oneAtATime
  have hupdates : ∀ e ∈ cutPutEvents, (ReadEvent.update e).Allowed := cutPutEvents_allowed
  simp only [getBesidePut, List.forall_mem_append, List.forall_mem_map, List.forall_mem_cons]
  refine ⟨⟨fun e he => hupdates e (List.take_subset _ _ he), fun req hreq => ?_, trivial, by simp⟩,
    fun e he => hupdates e (List.mem_of_mem_drop he)⟩
  obtain rfl : ⟨.getreq, some (.ofString "a"), none⟩ = req := Option.some.inj hreq
  decide

end Cs162
