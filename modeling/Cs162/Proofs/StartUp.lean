import Cs162.Lib.Simulation
import Cs162.Proofs.KvFollower
import Cs162.Proofs.TpcRegister

/-!
# Starting a leader and its followers

Followers are started one beside the other, and the threads of the leader handle their requests in
any order, of which only the section under the write lock is not interrupted. Of each message some
bytes have arrived when it is read.

While no more followers are started than the leader has places, each insertion has room: a follower
past its insertion has been answered, and there are at least as many of these as nodes on the ring
(`StartUp.Inv.count`).
-/

namespace Cs162

open CLib

/-- How far a follower has come, and the thread of the leader that handles its request: some bytes
of the request have arrived, the thread is past its test of the capacity, the response is sent, and
`server_run` is called. -/
inductive FollowerPhase
  | starting
  | sent (received : List UInt8)
  | registering
  | answered (reply : List UInt8)
  | serving (ret : ℤ)
  | exited

/-- A leader with the threads that register followers, and the followers. The thread that handles a
follower's request has its number. -/
structure StartUp where
  shared : SharedLeader
  phase : ℕ → FollowerPhase

def StartUp.init (mem : TpcLeader) (followerCapacity redundancy : UInt32) : StartUp :=
  ⟨sharedInit mem followerCapacity redundancy, fun _ => .starting⟩

def StartUp.setPhase (s : StartUp) (i : ℕ) (p : FollowerPhase) : StartUp :=
  { s with phase := Function.update s.phase i p }

@[simp] theorem StartUp.setPhase_self (s : StartUp) (i : ℕ) (p : FollowerPhase) :
    (s.setPhase i p).phase i = p := Function.update_self ..

theorem StartUp.setPhase_ne {s : StartUp} {i j : ℕ} {p : FollowerPhase} (h : j ≠ i) :
    (s.setPhase i p).phase j = s.phase j := Function.update_of_ne h _ _

/-- A step of a follower or of the thread that handles its request. `request` and `reply` bytes of
the messages have arrived when they are read. -/
inductive StartEvent
  | refuse (i : ℕ)
  | send (i request : ℕ)
  | handle (i : ℕ)
  | insert (i : ℕ)
  | receive (i reply : ℕ)

variable (strhash64 : CStr → UInt64) (followers : List Endpoint)

/-- `tpcleader_handle` of a follower's request, up to the write lock. No follower sends a request of
another type. -/
def StartUp.handle (s : StartUp) (i : ℕ) (received : List UInt8) : Option StartUp :=
  match kvrequestRecieve received with
  | none =>
    some (s.setPhase i (.answered (responseBytes ⟨.error, some errmsgInvalidRequest⟩)))
  | some req =>
    if req.type ≠ .register then none
    else if s.shared.leader.followerCount = s.shared.leader.followerCapacity then
      some (s.setPhase i (.answered (responseBytes ⟨.error, some errmsgFollowerCapacity⟩)))
    else do
      let shared ← s.shared.step strhash64 (.test i req)
      return StartUp.setPhase ⟨shared, s.phase⟩ i .registering

/-- One step. An event that a follower is not at leaves all as it is. -/
def StartUp.step (s : StartUp) : StartEvent → Option StartUp
  | .refuse i =>
    match followers[i]?, s.phase i with
    | some _, .starting => some (s.setPhase i .exited)
    | _, _ => some s
  | .send i request =>
    match followers[i]?, s.phase i with
    | some e, .starting => do
      let req ← registerRequest e
      let msg ← kvrequestSend req
      return s.setPhase i (.sent (msg.take request))
    | _, _ => some s
  | .handle i =>
    match s.phase i with
    | .sent received => s.handle strhash64 i received
    | _ => some s
  | .insert i =>
    match s.phase i with
    | .registering => do
      let shared ← s.shared.step strhash64 (.insert i)
      return StartUp.setPhase ⟨shared, s.phase⟩ i (.answered (responseBytes ⟨.success, none⟩))
    | _ => some s
  | .receive i reply =>
    match s.phase i with
    | .answered bytes => do
      let ret ← registerReturn (bytes.take reply)
      return s.setPhase i (if ret < 0 then .exited else .serving ret)
    | _ => some s

/-! ## The invariant -/

/-- The thread of the follower is over, or was never started. -/
def FollowerPhase.isPast : FollowerPhase → Bool
  | answered _ | serving _ | exited => true
  | _ => false

/-- The followers whose threads are over. -/
def StartUp.past (s : StartUp) : Finset ℕ :=
  (Finset.range followers.length).filter fun i => (s.phase i).isPast

/-- The follower's request was cut off. -/
def RequestCut (happened : StartEvent → Prop) (e : Endpoint) (i : ℕ) : Prop :=
  ∃ msg n, kvrequestSend e.request = some msg ∧ n < msg.length ∧ happened (.send i n)

/-- The reply to it was cut off. -/
def ReplyCut (happened : StartEvent → Prop) (i : ℕ) : Prop :=
  ∃ n < (responseBytes ⟨.success, none⟩).length, happened (.receive i n)

/-- How a follower can have come to a phase, and what the leader has of it then. A follower whose
messages arrive as a whole is told 1. -/
def StandsAt (happened : StartEvent → Prop) (shared : SharedLeader) (ring : List ℕ) (e : Endpoint)
    (i : ℕ) : FollowerPhase → Prop
  | .starting => shared.calls i = none
  | .sent received => shared.calls i = none ∧
      ∃ msg n, kvrequestSend e.request = some msg ∧ received = msg.take n ∧ happened (.send i n)
  | .registering => ∃ node, shared.calls i = some node ∧
      (shared.leader.nodes node).member = e.member strhash64
  | .answered reply => shared.calls i = none ∧ ∃ res : KvResponse, reply = responseBytes res ∧
      (responseBytes res).length ≤ libhttpMessageMaxSize ∧ res.type ∈ [MsgType.success, .error] ∧
      (res.type = .success → res = ⟨.success, none⟩ ∧
        (e.member strhash64).id ∈ shared.leader.ids ring) ∧
      (res.type = .error → RequestCut happened e i)
  | .serving ret => shared.calls i = none ∧ (ret = 0 ∨ ret = 1) ∧
      (ret = 1 → (e.member strhash64).id ∈ shared.leader.ids ring) ∧
      (ret = 0 → RequestCut happened e i ∨ ReplyCut happened i)
  | .exited => shared.calls i = none ∧ happened (.refuse i)

/-- The ring is one of followers, and each follower is on it that was told so. -/
structure StartUp.Inv (capacity : UInt32) (happened : StartEvent → Prop) (s : StartUp)
    (ring : List ℕ) : Prop where
  shared : s.shared.Inv
  hasRing : s.shared.leader.HasRing ring
  capacity : s.shared.leader.followerCapacity = capacity
  members : ∀ m ∈ s.shared.leader.members ring, ∃ e ∈ followers, m = e.member strhash64
  count : ring.length ≤ (s.past followers).card
  stands : ∀ i e, followers[i]? = some e → StandsAt strhash64 happened s.shared ring e i (s.phase i)
  idle : ∀ i, followers[i]? = none → s.phase i = .starting

variable {strhash64 followers} {capacity : UInt32} {happened : StartEvent → Prop} {s s' : StartUp}
  {ring : List ℕ} {i : ℕ} {e : Endpoint}

namespace TpcLeader

/-- A leader has one ring. -/
theorem HasRing.unique {l : TpcLeader} {ring ring' : List ℕ} (h : l.HasRing ring)
    (h' : l.HasRing ring') : ring = ring' := by
  have hlen : ring.length = ring'.length := h.count.symm.trans h'.count
  rcases ring with _ | ⟨first, tail⟩
  · exact (List.length_eq_zero_iff.1 hlen.symm).symm
  rcases ring' with _ | ⟨first', tail'⟩
  · exact List.length_eq_zero_iff.1 hlen
  obtain rfl : first = first' := Option.some.inj (h.head.symm.trans h'.head)
  refine List.ext_getElem hlen fun j hj hj' => ?_
  obtain ⟨_, hget⟩ := h.iterate_next (h.count.symm ▸ hj)
  obtain ⟨_, hget'⟩ := h'.iterate_next (h'.count.symm ▸ hj')
  exact hget.symm.trans hget'

end TpcLeader

theorem startUp_init_inv (mem : TpcLeader) (capacity redundancy : UInt32) :
    (StartUp.init mem capacity redundancy).Inv strhash64 followers capacity happened [] where
  shared := sharedInit_inv mem capacity redundancy
  hasRing := TpcLeader.hasRing_init mem capacity redundancy
  capacity := rfl
  members := by simp [TpcLeader.members]
  count := Nat.zero_le _
  stands := fun _ _ _ => rfl
  idle := fun _ _ => rfl

theorem StartUp.Inv.waiting (h : s.Inv strhash64 followers capacity happened ring) {node : ℕ}
    (hheld : s.shared.calls i = some node) : Waiting s.shared.leader ring node := by
  obtain ⟨ring', hring', hwaits⟩ := h.shared.ring
  rw [h.hasRing.unique hring']
  exact hwaits i node hheld

/-- A follower of another number stands as before where its thread and what it holds do. -/
theorem StandsAt.mono {shared shared' : SharedLeader} {ring' : List ℕ} {p : FollowerPhase}
    (h : StandsAt strhash64 happened shared ring e i p) (hcalls : shared'.calls i = shared.calls i)
    (hnodes : ∀ node, shared.calls i = some node →
      (shared'.leader.nodes node).member = (shared.leader.nodes node).member)
    (hids : shared.leader.ids ring ⊆ shared'.leader.ids ring') :
    StandsAt strhash64 happened shared' ring' e i p := by
  cases p with
  | starting => exact hcalls.trans h
  | sent received => exact ⟨hcalls.trans h.1, h.2⟩
  | registering =>
    obtain ⟨node, hheld, hmember⟩ := h
    exact ⟨node, hcalls.trans hheld, (hnodes node hheld).trans hmember⟩
  | answered reply =>
    obtain ⟨hfree, res, hreply, hlen, htype, hon, hcut⟩ := h
    exact ⟨hcalls.trans hfree, res, hreply, hlen, htype,
      fun hs => ⟨(hon hs).1, hids (hon hs).2⟩, hcut⟩
  | serving ret =>
    obtain ⟨hfree, hret, hon, hcut⟩ := h
    exact ⟨hcalls.trans hfree, hret, fun hs => hids (hon hs), hcut⟩
  | exited => exact ⟨hcalls.trans h.1, h.2⟩

/-- A follower that goes on does not go back. -/
theorem StartUp.past_subset {shared : SharedLeader} {p : FollowerPhase}
    (hpast : (s.phase i).isPast → p.isPast) :
    s.past followers ⊆ (StartUp.setPhase ⟨shared, s.phase⟩ i p).past followers := by
  intro j hj
  simp only [past, Finset.mem_filter] at hj ⊢
  refine ⟨hj.1, ?_⟩
  by_cases hji : j = i
  · subst hji
    rw [setPhase_self]
    exact hpast hj.2
  · rw [setPhase_ne hji]
    exact hj.2

/-- A step of one follower and its thread. -/
theorem StartUp.Inv.move (h : s.Inv strhash64 followers capacity happened ring)
    {shared : SharedLeader} {ring' : List ℕ} {p : FollowerPhase} (he : followers[i]? = some e)
    (hshared : shared.Inv)
    (hring : shared.leader.HasRing ring')
    (hcap : shared.leader.followerCapacity = s.shared.leader.followerCapacity)
    (hmembers : ∀ m ∈ shared.leader.members ring', ∃ e ∈ followers, m = e.member strhash64)
    (hothers : ∀ j ≠ i, ∀ e', StandsAt strhash64 happened s.shared ring e' j (s.phase j) →
      StandsAt strhash64 happened shared ring' e' j (s.phase j))
    (hstands : StandsAt strhash64 happened shared ring' e i p)
    (hcount : ring'.length ≤ ((StartUp.setPhase ⟨shared, s.phase⟩ i p).past followers).card) :
    (StartUp.setPhase ⟨shared, s.phase⟩ i p).Inv strhash64 followers capacity happened ring' where
  shared := hshared
  hasRing := hring
  capacity := hcap.trans h.capacity
  members := hmembers
  count := hcount
  stands := by
    intro j e' he'
    by_cases hji : j = i
    · subst hji
      obtain rfl : e = e' := Option.some.inj (he.symm.trans he')
      rw [setPhase_self]
      exact hstands
    · rw [setPhase_ne hji]
      exact hothers j hji e' (h.stands j e' he')
  idle := by
    intro j hj
    rw [setPhase_ne]
    · exact h.idle j hj
    · rintro rfl
      rw [he] at hj
      cases hj

/-- A step of a follower alone. -/
theorem StartUp.Inv.setPhase (h : s.Inv strhash64 followers capacity happened ring)
    {p : FollowerPhase} (he : followers[i]? = some e)
    (hstands : StandsAt strhash64 happened s.shared ring e i p)
    (hpast : (s.phase i).isPast → p.isPast) :
    (s.setPhase i p).Inv strhash64 followers capacity happened ring :=
  h.move he h.shared h.hasRing rfl h.members (fun _ _ _ hj => hj) hstands
    (h.count.trans (Finset.card_le_card (StartUp.past_subset hpast)))

/-! ## The steps -/

theorem StartUp.Inv.endpoint (h : s.Inv strhash64 followers capacity happened ring)
    (hphase : s.phase i ≠ .starting) : ∃ e, followers[i]? = some e ∧
      StandsAt strhash64 happened s.shared ring e i (s.phase i) := by
  rcases he : followers[i]? with _ | e
  · exact absurd (h.idle i he) hphase
  · exact ⟨e, rfl, h.stands i e he⟩

/-- A thread tests the capacity and allocates its node. -/
theorem StartUp.Inv.test (h : s.Inv strhash64 followers capacity happened ring)
    (he : followers[i]? = some e) (hfree : s.shared.calls i = none)
    (hpast : ¬ (s.phase i).isPast)
    (hroom : s.shared.leader.followerCount ≠ s.shared.leader.followerCapacity) :
    ∃ shared, s.shared.step strhash64 (.test i e.request) = some shared ∧
      (StartUp.setPhase ⟨shared, s.phase⟩ i .registering).Inv strhash64 followers capacity happened
        ring := by
  obtain ⟨id, hid⟩ : ∃ id, id = (e.member strhash64).id := ⟨_, rfl⟩
  obtain ⟨l, hl⟩ : ∃ l, l = s.shared.leader.newFollower id e.hostname (.ofInt e.port.toInt) :=
    ⟨_, rfl⟩
  have hstep : s.shared.step strhash64 (.test i e.request)
      = some ⟨l, Function.update s.shared.calls i (some s.shared.leader.allocated)⟩ := by
    simp [SharedLeader.step, hfree, hroom, Endpoint.request, atoi_signedDecimal, hl, hid,
      Endpoint.member]
  have hold : ∀ a < s.shared.leader.allocated, l.nodes a = s.shared.leader.nodes a := by
    intro a ha
    rw [hl]
    exact Function.update_of_ne ha.ne _ _
  have hmembers : l.members ring = s.shared.leader.members ring :=
    List.map_congr_left fun a ha => by rw [hold a (h.hasRing.allocated a ha)]
  refine ⟨_, hstep, h.move he (h.shared.test hstep) ?_ ?_ ?_ ?_ ?_ ?_⟩
  · exact hl ▸ h.hasRing.newFollower _ _ _
  · rw [hl]
    rfl
  · rw [hmembers]
    exact h.members
  · intro j hji e' hj
    refine hj.mono (Function.update_of_ne hji _ _) (fun node hheld => ?_) ?_
    · rw [hold node (h.waiting hheld).allocated]
    · simp only [TpcLeader.ids, hmembers]
      exact List.Subset.refl _
  · refine ⟨s.shared.leader.allocated, Function.update_self .., ?_⟩
    rw [hl, hid, TpcLeader.newFollower]
    simp [TpcFollower.member, Endpoint.member]
  · exact h.count.trans (Finset.card_le_card (StartUp.past_subset fun hp => absurd hp hpast))

/-- A follower that is answered counts from then on. -/
theorem StartUp.card_past_lt (shared : SharedLeader) {p : FollowerPhase}
    (he : followers[i]? = some e) (hphase : (s.phase i).isPast = false) (hp : p.isPast = true) :
    (s.past followers).card < ((StartUp.setPhase ⟨shared, s.phase⟩ i p).past followers).card := by
  refine Finset.card_lt_card
    ((Finset.ssubset_iff_of_subset (past_subset fun _ => hp)).2 ⟨i, ?_, ?_⟩)
  · simp [past, hp, (List.getElem?_eq_some_iff.1 he).1]
  · simp [past, hphase]

/-- Before a thread inserts its node the ring has a place left. -/
theorem StartUp.Inv.room (h : s.Inv strhash64 followers capacity happened ring)
    (hplaces : followers.length ≤ capacity.toNat) (he : followers[i]? = some e)
    (hphase : (s.phase i).isPast = false) :
    s.shared.leader.followerCount < s.shared.leader.followerCapacity := by
  have hlt := (StartUp.card_past_lt s.shared he hphase
    (show (FollowerPhase.exited).isPast = true from rfl)).trans_le (Finset.card_filter_le _ _)
  rw [Finset.card_range] at hlt
  have hcount := h.count
  rw [UInt32.lt_iff_toNat_lt, h.hasRing.count, h.capacity]
  omega

theorem length_successBytes : (responseBytes ⟨.success, none⟩).length ≤ libhttpMessageMaxSize := by
  decide +kernel

/-- A thread inserts its node, and answers. -/
theorem StartUp.Inv.insert (h : s.Inv strhash64 followers capacity happened ring)
    (hplaces : followers.length ≤ capacity.toNat) (hphase : s.phase i = .registering) :
    ∃ shared ring', s.shared.step strhash64 (.insert i) = some shared ∧
      (StartUp.setPhase ⟨shared, s.phase⟩ i (.answered (responseBytes ⟨.success, none⟩))).Inv
        strhash64 followers capacity happened ring' := by
  obtain ⟨e, he, hstands⟩ := h.endpoint (i := i) (by simp [hphase])
  have hnot : (s.phase i).isPast = false := by rw [hphase]; rfl
  rw [hphase] at hstands
  obtain ⟨node, hheld, hmember⟩ := hstands
  have hroom := h.room hplaces he hnot
  have hw := h.waiting hheld
  have hid : (s.shared.leader.nodes node).id = (e.member strhash64).id := by
    rw [← hmember]
    rfl
  have hgood : HasRoom (s.shared, .insert i) := fun _ _ _ _ _ => hroom
  have hothers : ∀ j ≠ i, Function.update s.shared.calls i none j = s.shared.calls j :=
    fun j hji => Function.update_of_ne hji _ _
  have hanswer : ∀ {l : TpcLeader} {ring' : List ℕ}, (e.member strhash64).id ∈ l.ids ring' →
      StandsAt strhash64 happened ⟨l, Function.update s.shared.calls i none⟩ ring' e i
        (.answered (responseBytes ⟨.success, none⟩)) := by
    intro l ring' hon
    exact ⟨Function.update_self .., _, rfl, length_successBytes, by simp, fun _ => ⟨rfl, hon⟩,
      fun herr => by cases herr⟩
  rcases h.hasRing.registerLocked_cases hw.apart hw.allocated hw.next hw.prev with
    ⟨hon, heq⟩ | ⟨-, l, heq, -, -, hcap, hins⟩
  · have hstep : s.shared.step strhash64 (.insert i)
        = some ⟨s.shared.leader, Function.update s.shared.calls i none⟩ := by
      simp [SharedLeader.step, hheld, heq]
    refine ⟨_, ring, hstep, h.move he (h.shared.insert hgood hstep) h.hasRing rfl h.members
      (fun j hji e' hj => ?_) (hanswer (hid ▸ hon)) ?_⟩
    · exact hj.mono (hothers j hji) (fun _ _ => rfl) (List.Subset.refl _)
    · exact h.count.trans (StartUp.card_past_lt _ he hnot rfl).le
  · obtain ⟨ring', hins⟩ := hins hroom
    have hstep : s.shared.step strhash64 (.insert i)
        = some ⟨l, Function.update s.shared.calls i none⟩ := by
      simp [SharedLeader.step, hheld, heq]
    have hmem : ∀ m, m ∈ l.members ring' ↔ m = e.member strhash64 ∨
        m ∈ s.shared.leader.members ring := by
      intro m
      rw [hins.perm.mem_iff, List.mem_cons, hmember]
    have hlen : ring'.length = ring.length + 1 := by
      simpa [TpcLeader.members] using hins.perm.length_eq
    refine ⟨_, ring', hstep, h.move he (h.shared.insert hgood hstep) hins.hasRing hcap ?_
      (fun j hji e' hj => ?_) (hanswer ?_) ?_⟩
    · intro m hm
      rcases (hmem m).1 hm with rfl | hm
      · exact ⟨e, List.mem_of_getElem? he, rfl⟩
      · exact h.members m hm
    · refine hj.mono (hothers j hji) (fun other hother => ?_) ?_
      · have hne : other ≠ node := by
          rintro rfl
          exact hji (h.shared.own j i other hother hheld)
        rw [hins.frame other (h.waiting hother).apart hne]
      · intro id hid'
        obtain ⟨m, hm, rfl⟩ := List.mem_map.1 hid'
        exact List.mem_map.2 ⟨m, (hmem m).2 (.inr hm), rfl⟩
    · exact List.mem_map.2 ⟨_, (hmem _).2 (.inl rfl), rfl⟩
    · have hlt := StartUp.card_past_lt ⟨l, Function.update s.shared.calls i none⟩ he hnot
        (show (FollowerPhase.answered (responseBytes ⟨.success, none⟩)).isPast = true from rfl)
      have hcount := h.count
      omega

theorem length_invalidBytes :
    (responseBytes ⟨.error, some errmsgInvalidRequest⟩).length ≤ libhttpMessageMaxSize := by
  decide +kernel

variable (hprint : ∀ e ∈ followers, e.Printable) (hplaces : followers.length ≤ capacity.toNat)

include hprint hplaces

/-- Whatever happens next, there is a next state, and the invariant holds of it. -/
theorem StartUp.Inv.step (h : s.Inv strhash64 followers capacity happened ring) {ev : StartEvent}
    (hev : happened ev) :
    ∃ s' ring', s.step strhash64 followers ev = some s' ∧
      s'.Inv strhash64 followers capacity happened ring' := by
  cases ev with
  | refuse i =>
    simp only [StartUp.step]
    split
    · rename_i e he hphase
      have hstands := h.stands i e he
      rw [hphase] at hstands
      exact ⟨_, ring, rfl, h.setPhase he ⟨hstands, hev⟩ fun _ => rfl⟩
    · exact ⟨s, ring, rfl, h⟩
  | send i request =>
    simp only [StartUp.step]
    split
    · rename_i e he hphase
      have hstands := h.stands i e he
      rw [hphase] at hstands
      have he' := hprint e (List.mem_of_getElem? he)
      obtain ⟨msg, hmsg, -⟩ := registerRequest_sent he'
      rw [he'.registerRequest]
      simp only [Option.bind_eq_bind, Option.bind_some, hmsg]
      exact ⟨_, ring, rfl, h.setPhase he ⟨hstands, msg, request, hmsg, rfl, hev⟩
        fun hp => by simp [hphase, FollowerPhase.isPast] at hp⟩
    · exact ⟨s, ring, rfl, h⟩
  | handle i =>
    simp only [StartUp.step]
    split
    · rename_i received hphase
      obtain ⟨e, he, hstands⟩ := h.endpoint (i := i) (by simp [hphase])
      rw [hphase] at hstands
      obtain ⟨hfree, msg, n, hmsg, rfl, hsent⟩ := hstands
      obtain ⟨msg', hmsg', hlen, hread⟩ := registerRequest_sent (hprint e (List.mem_of_getElem? he))
      obtain rfl : msg = msg' := Option.some.inj (hmsg.symm.trans hmsg')
      rcases hread n with ⟨hnone, hn⟩ | hsome
      · rw [StartUp.handle, hnone]
        exact ⟨_, ring, rfl, h.setPhase he ⟨hfree, ⟨.error, some errmsgInvalidRequest⟩, rfl,
          length_invalidBytes, by simp, by simp, fun _ => ⟨msg, n, hmsg, hn, hsent⟩⟩
          fun _ => rfl⟩
      · have hroom : s.shared.leader.followerCount ≠ s.shared.leader.followerCapacity :=
          UInt32.ne_of_lt (h.room hplaces he (by rw [hphase]; rfl))
        obtain ⟨shared, hstep, hinv⟩ :=
          h.test he hfree (by simp [hphase, FollowerPhase.isPast]) hroom
        simp only [StartUp.handle, hsome, hstep, if_neg hroom]
        exact ⟨_, ring, rfl, hinv⟩
    · exact ⟨s, ring, rfl, h⟩
  | insert i =>
    simp only [StartUp.step]
    split
    · rename_i hphase
      obtain ⟨shared, ring', hstep, hinv⟩ := h.insert hplaces hphase
      exact ⟨_, ring', by rw [hstep]; rfl, hinv⟩
    · exact ⟨s, ring, rfl, h⟩
  | receive i reply =>
    simp only [StartUp.step]
    split
    · rename_i bytes hphase
      obtain ⟨e, he, hstands⟩ := h.endpoint (i := i) (by simp [hphase])
      rw [hphase] at hstands
      obtain ⟨hfree, res, rfl, hlen, htype, hon, hcut⟩ := hstands
      obtain ⟨ret, hret, hcases, hsuccess, hwhole⟩ := registerReturn_answer htype hlen reply
      have hnonneg : ¬ ret < 0 := by omega
      rw [hret]
      simp only [Option.bind_eq_bind, Option.bind_some, if_neg hnonneg]
      refine ⟨_, ring, rfl, h.setPhase he ⟨hfree, hcases, fun hr => (hon (hsuccess hr)).2,
        fun hr => ?_⟩ fun _ => rfl⟩
      simp only [List.mem_cons, List.not_mem_nil, or_false] at htype
      rcases htype with htype | htype
      · obtain ⟨rfl, -⟩ := hon htype
        refine .inr ⟨reply, ?_, hev⟩
        by_contra hle
        have := hwhole rfl (not_lt.1 hle)
        omega
      · exact .inl (hcut htype)
    · exact ⟨s, ring, rfl, h⟩

/-- The invariant along a run. -/
theorem StartUp.Inv.run : ∀ {events : List StartEvent} {s : StartUp} {ring : List ℕ},
    s.Inv strhash64 followers capacity happened ring → (∀ ev ∈ events, happened ev) → ∃ s' ring',
      runOf (StartUp.step strhash64 followers) s events = some s' ∧
        s'.Inv strhash64 followers capacity happened ring'
  | [], s, ring, h, _ => ⟨s, ring, rfl, h⟩
  | ev :: events, s, ring, h, hevents => by
    rw [List.forall_mem_cons] at hevents
    obtain ⟨s', ring', hstep, h'⟩ := h.step hprint hplaces hevents.1
    obtain ⟨s'', ring'', hrun, h''⟩ := StartUp.Inv.run h' hevents.2
    exact ⟨s'', ring'', by rw [runOf, hstep, Option.bind_some, hrun], h''⟩

omit hprint hplaces

/-- Where the leader finds a follower. -/
def Endpoint.addr (e : Endpoint) : Addr := ⟨e.hostname, .ofInt e.port.toInt⟩

variable (strhash64 followers) in
/-- A leader and its followers after some events. -/
structure StartUp.Sound (events : List StartEvent) (s : StartUp) (ring : List ℕ) : Prop where
  hasRing : s.shared.leader.HasRing ring
  listens : ∀ a ∈ ring, ∃ e ∈ followers, s.shared.leader.addr a = e.addr ∧
    (s.shared.leader.nodes a).id = (e.member strhash64).id
  serves : ∀ i ret, s.phase i = .serving ret → ret = 0 ∨ ret = 1
  told : ∀ i e, followers[i]? = some e → s.phase i = .serving 1 →
    (e.member strhash64).id ∈ s.shared.leader.ids ring
  whole : ∀ i e, followers[i]? = some e → s.phase i = .serving 0 →
    RequestCut (· ∈ events) e i ∨ ReplyCut (· ∈ events) i
  exits : ∀ i, s.phase i = .exited → .refuse i ∈ events

theorem StartUp.Inv.sound {events : List StartEvent}
    (h : s.Inv strhash64 followers capacity (· ∈ events) ring) :
    s.Sound strhash64 followers events ring where
  hasRing := h.hasRing
  listens := by
    intro a ha
    obtain ⟨e, he, hmember⟩ := h.members _ (List.mem_map_of_mem ha)
    refine ⟨e, he, ?_, congrArg Member.id hmember⟩
    rw [TpcLeader.addr, Endpoint.addr, ← show _ = e.hostname from congrArg Member.host hmember,
      ← show _ = UInt32.ofInt e.port.toInt from congrArg Member.port hmember]
    rfl
  serves := by
    intro i ret hphase
    obtain ⟨e, -, hstands⟩ := h.endpoint (i := i) (by simp [hphase])
    rw [hphase] at hstands
    exact hstands.2.1
  told := by
    intro i e he hphase
    have hstands := h.stands i e he
    rw [hphase] at hstands
    exact hstands.2.2.1 rfl
  whole := by
    intro i e he hphase
    have hstands := h.stands i e he
    rw [hphase] at hstands
    exact hstands.2.2.2 rfl
  exits := by
    intro i hphase
    obtain ⟨e, -, hstands⟩ := h.endpoint (i := i) (by simp [hphase])
    rw [hphase] at hstands
    exact hstands.2

theorem StartUp.run_inv (strhash64 : CStr → UInt64) (mem : TpcLeader) (redundancy : UInt32)
    (hprint : ∀ e ∈ followers, e.Printable) (hplaces : followers.length ≤ capacity.toNat)
    (events : List StartEvent) : ∃ s ring,
      runOf (StartUp.step strhash64 followers) (StartUp.init mem capacity redundancy) events
          = some s ∧
        s.Inv strhash64 followers capacity (· ∈ events) ring :=
  (startUp_init_inv mem capacity redundancy).run hprint hplaces fun _ hev => hev

/-! ## Coming to an end -/

/-- How many steps of its own a follower has behind it. -/
def FollowerPhase.rank : FollowerPhase → ℕ
  | starting => 0
  | sent _ => 1
  | registering => 2
  | answered _ => 3
  | serving _ | exited => 4

/-- A step leaves all followers where they are, or one of them goes on. -/
theorem StartUp.step_phase {ev : StartEvent} (h : s.step strhash64 followers ev = some s') :
    s'.phase = s.phase ∨
      ∃ i p, s'.phase = Function.update s.phase i p ∧ (s.phase i).rank < p.rank := by
  cases ev with
  | refuse i =>
    simp only [StartUp.step] at h
    split at h
    · rename_i hphase
      rw [← Option.some.inj h]
      exact .inr ⟨i, _, rfl, by simp [hphase, FollowerPhase.rank]⟩
    · exact .inl (by rw [← Option.some.inj h])
  | send i request =>
    simp only [StartUp.step] at h
    split at h
    · rename_i hphase
      simp only [Option.bind_eq_bind, Option.bind_eq_some_iff, Option.pure_def,
        Option.some.injEq] at h
      obtain ⟨_, -, _, -, rfl⟩ := h
      exact .inr ⟨i, _, rfl, by simp [hphase, FollowerPhase.rank]⟩
    · exact .inl (by rw [← Option.some.inj h])
  | handle i =>
    simp only [StartUp.step] at h
    split at h
    · rename_i hphase
      unfold StartUp.handle at h
      split at h
      · rw [← Option.some.inj h]
        exact .inr ⟨i, _, rfl, by simp [hphase, FollowerPhase.rank]⟩
      · split_ifs at h
        · rw [← Option.some.inj h]
          exact .inr ⟨i, _, rfl, by simp [hphase, FollowerPhase.rank]⟩
        · obtain ⟨_, -, h⟩ := Option.bind_eq_some_iff.1 h
          rw [← Option.some.inj h]
          exact .inr ⟨i, _, rfl, by simp [hphase, FollowerPhase.rank]⟩
    · exact .inl (by rw [← Option.some.inj h])
  | insert i =>
    simp only [StartUp.step] at h
    split at h
    · rename_i hphase
      obtain ⟨_, -, h⟩ := Option.bind_eq_some_iff.1 h
      rw [← Option.some.inj h]
      exact .inr ⟨i, _, rfl, by simp [hphase, FollowerPhase.rank]⟩
    · exact .inl (by rw [← Option.some.inj h])
  | receive i reply =>
    simp only [StartUp.step] at h
    split at h
    · rename_i hphase
      obtain ⟨ret, -, h⟩ := Option.bind_eq_some_iff.1 h
      rw [← Option.some.inj h]
      refine .inr ⟨i, _, rfl, ?_⟩
      rw [hphase]
      split_ifs <;> simp [FollowerPhase.rank]
    · exact .inl (by rw [← Option.some.inj h])

theorem StartUp.rank_le {ev : StartEvent} (h : s.step strhash64 followers ev = some s') (i : ℕ) :
    (s.phase i).rank ≤ (s'.phase i).rank := by
  rcases step_phase h with hphase | ⟨j, p, hphase, hlt⟩
  · rw [hphase]
  · rw [hphase]
    by_cases hij : i = j
    · rw [hij, Function.update_self]
      exact hlt.le
    · rw [Function.update_of_ne hij]

/-- The steps of a follower that connects, and of its thread. -/
def registration (i request reply : ℕ) : List StartEvent :=
  [.send i request, .handle i, .insert i, .receive i reply]

/-- The next of these steps is taken, or is behind the follower already. -/
theorem StartUp.rank_registration (he : followers[i]? = some e) {request reply k : ℕ}
    {ev : StartEvent} (hev : (registration i request reply)[k]? = some ev)
    (hk : k ≤ (s.phase i).rank) (h : s.step strhash64 followers ev = some s') :
    k + 1 ≤ (s'.phase i).rank := by
  rcases hk.lt_or_eq with hlt | heq
  · exact (Nat.succ_le_of_lt hlt).trans (rank_le h i)
  match k, hev with
  | 0, hev =>
    obtain rfl := Option.some.inj hev
    rcases hphase : s.phase i <;> simp [hphase, FollowerPhase.rank] at heq
    simp only [step, he, hphase, Option.bind_eq_bind, Option.bind_eq_some_iff, Option.pure_def,
      Option.some.injEq] at h
    obtain ⟨_, -, _, -, rfl⟩ := h
    simp [FollowerPhase.rank]
  | 1, hev =>
    obtain rfl := Option.some.inj hev
    rcases hphase : s.phase i <;> simp [hphase, FollowerPhase.rank] at heq
    simp only [step, hphase, handle] at h
    split at h
    · rw [← Option.some.inj h]
      simp [FollowerPhase.rank]
    · split_ifs at h
      · rw [← Option.some.inj h]
        simp [FollowerPhase.rank]
      · obtain ⟨_, -, h⟩ := Option.bind_eq_some_iff.1 h
        rw [← Option.some.inj h]
        simp [FollowerPhase.rank]
  | 2, hev =>
    obtain rfl := Option.some.inj hev
    rcases hphase : s.phase i <;> simp [hphase, FollowerPhase.rank] at heq
    simp only [step, hphase] at h
    obtain ⟨_, -, h⟩ := Option.bind_eq_some_iff.1 h
    rw [← Option.some.inj h]
    simp [FollowerPhase.rank]
  | 3, hev =>
    obtain rfl := Option.some.inj hev
    rcases hphase : s.phase i <;> simp [hphase, FollowerPhase.rank] at heq
    simp only [step, hphase] at h
    obtain ⟨ret, -, h⟩ := Option.bind_eq_some_iff.1 h
    rw [← Option.some.inj h, setPhase_self]
    split_ifs <;> simp [FollowerPhase.rank]

/-- A follower that has gone through its steps, in a run that may do anything else between them. -/
theorem StartUp.run_registration (he : followers[i]? = some e) {request reply : ℕ}
    {events : List StartEvent} (hsub : (registration i request reply).Sublist events)
    (hrun : runOf (StartUp.step strhash64 followers) s events = some s') :
    s'.phase i = .exited ∨ ∃ ret, s'.phase i = .serving ret := by
  have hrank : 4 ≤ (s'.phase i).rank :=
    runOf_script (fun k (s : StartUp) => k ≤ (s.phase i).rank)
      (fun k s ev s' hk hs => hk.trans (rank_le hs i))
      (fun k ev hev s s' hk hs => rank_registration he hev hk hs) events
      (k := 0) hsub (Nat.zero_le _) hrun
  rcases hphase : s'.phase i with _ | received | _ | reply | ret | _ <;>
    simp [hphase, FollowerPhase.rank] at hrank
  · exact .inr ⟨ret, rfl⟩
  · exact .inl rfl

/-- The followers of a ring that has all their ids. -/
theorem StartUp.Inv.members_perm (h : s.Inv strhash64 followers capacity happened ring)
    (hids : (followers.map fun e => (e.member strhash64).id).Nodup)
    (hon : ∀ e ∈ followers, (e.member strhash64).id ∈ s.shared.leader.ids ring) :
    (s.shared.leader.members ring).Perm (followers.map (·.member strhash64)) := by
  have hfollowers : (followers.map (·.member strhash64)).Nodup := by
    refine List.Nodup.of_map Member.id ?_
    rwa [List.map_map]
  have hring : (s.shared.leader.members ring).Nodup := by
    refine (List.pairwise_map.2 h.hasRing.sorted : (s.shared.leader.members ring).Pairwise
      (·.id < ·.id)).imp ?_
    rintro a b hab rfl
    exact UInt64.lt_irrefl _ hab
  refine (List.perm_ext_iff_of_nodup hring hfollowers).2 fun m => ⟨fun hm => ?_, fun hm => ?_⟩
  · obtain ⟨e, he, rfl⟩ := h.members m hm
    exact List.mem_map_of_mem he
  · obtain ⟨e, he, rfl⟩ := List.mem_map.1 hm
    obtain ⟨m, hon, hid⟩ := List.mem_map.1 (hon e he)
    obtain ⟨e', he', rfl⟩ := h.members m hon
    obtain rfl : e' = e := List.inj_on_of_nodup_map hids he' he hid
    exact hon

/-! ## The results -/

variable (strhash64) in
/-- Whatever happens while followers are started, at most as many as the leader has places: the
leader's list is a ring of nodes that each give the place where a follower listens. A follower that
is told 1 is on it, one that is told 0 had a message cut off, and none gives up but for want of a
connection. -/
theorem startUp_sound (mem : TpcLeader) (capacity redundancy : UInt32) (followers : List Endpoint)
    (hprint : ∀ e ∈ followers, e.Printable) (hplaces : followers.length ≤ capacity.toNat)
    (events : List StartEvent) : ∃ s ring,
      runOf (StartUp.step strhash64 followers) (StartUp.init mem capacity redundancy) events
          = some s ∧
        s.Sound strhash64 followers events ring := by
  obtain ⟨s, ring, hrun, h⟩ := StartUp.run_inv strhash64 mem redundancy hprint hplaces events
  exact ⟨s, ring, hrun, h.sound⟩

/-- The sum of a string's bytes, which tells the two followers below apart. -/
def byteSum (s : CStr) : UInt64 := .ofNat (s.bytes.map UInt8.toNat).sum

def twoFollowers : List Endpoint :=
  [⟨.ofString "127.0.0.1", 16201⟩, ⟨.ofString "127.0.0.1", 16202⟩]

theorem twoFollowers_printable : ∀ e ∈ twoFollowers, e.Printable := by
  simp only [twoFollowers, List.forall_mem_cons, List.not_mem_nil, false_implies, implies_true,
    and_true]
  exact ⟨printable_local (by decide) (by decide), printable_local (by decide) (by decide)⟩

/-- The second follower's reply is cut off. -/
theorem startUp_sound_cut : ∃ s ring,
    runOf (StartUp.step byteSum twoFollowers) (StartUp.init blankLeader 2 1)
        [.send 0 200, .send 1 200, .handle 1, .handle 0, .insert 0, .insert 1, .receive 1 5]
      = some s ∧
      s.Sound byteSum twoFollowers
        [.send 0 200, .send 1 200, .handle 1, .handle 0, .insert 0, .insert 1, .receive 1 5] ring :=
  startUp_sound byteSum blankLeader 2 1 twoFollowers twoFollowers_printable (by decide) _

variable (strhash64) in
/-- As many followers as the leader has places, of different ids, are all registered in the end, in
whatever order their steps and those of their threads come, if all messages arrive whole. The leader
then has a follower for every key. -/
theorem startUp_complete (mem : TpcLeader) (capacity redundancy : UInt32)
    (followers : List Endpoint) (hprint : ∀ e ∈ followers, e.Printable)
    (hplaces : followers.length = capacity.toNat)
    (hids : (followers.map fun e => (e.member strhash64).id).Nodup) (events : List StartEvent)
    (hsteps : ∀ i < followers.length, ∃ request reply,
      (registration i request reply).Sublist events)
    (hrefuse : ∀ i, .refuse i ∉ events)
    (hwhole : ∀ i n, .send i n ∈ events ∨ .receive i n ∈ events → libhttpMessageMaxSize ≤ n) :
    ∃ s ring,
      runOf (StartUp.step strhash64 followers) (StartUp.init mem capacity redundancy) events
          = some s ∧
        s.shared.leader.HasRing ring ∧ (∀ i < followers.length, s.phase i = .serving 1) ∧
        (s.shared.leader.members ring).Perm (followers.map (·.member strhash64)) ∧
        s.shared.leader.followerCount = capacity ∧
        (followers ≠ [] → ∀ key, ∃ a ∈ ring,
          tpcleaderGetPrimary strhash64 s.shared.leader key = some (some a)) := by
  obtain ⟨s, ring, hrun, h⟩ := StartUp.run_inv strhash64 mem redundancy hprint hplaces.le events
  have hserving : ∀ i < followers.length, s.phase i = .serving 1 := by
    intro i hi
    obtain ⟨request, reply, hsub⟩ := hsteps i hi
    rcases StartUp.run_registration (List.getElem?_eq_getElem hi) hsub hrun with
      hphase | ⟨ret, hphase⟩
    · exact absurd (h.sound.exits i hphase) (hrefuse i)
    rcases h.sound.serves i ret hphase with rfl | rfl
    · rcases h.sound.whole i _ (List.getElem?_eq_getElem hi) hphase with
        ⟨msg, n, hmsg, hn, hcut⟩ | ⟨n, hn, hcut⟩
      · obtain ⟨msg', hmsg', hlen, -⟩ := registerRequest_sent (hprint _ (List.getElem_mem hi))
        obtain rfl : msg = msg' := Option.some.inj (hmsg.symm.trans hmsg')
        exact absurd (hwhole i n (.inl hcut)) (not_le.2 (hn.trans_le hlen))
      · exact absurd (hwhole i n (.inr hcut)) (not_le.2 (hn.trans_le length_successBytes))
    · exact hphase
  have hperm := h.members_perm hids fun e he => by
    obtain ⟨i, hi, rfl⟩ := List.mem_iff_getElem.1 he
    exact h.sound.told i _ (List.getElem?_eq_getElem hi) (hserving i hi)
  have hlen : ring.length = followers.length := by
    simpa [TpcLeader.members] using hperm.length_eq
  have hcount : s.shared.leader.followerCount = capacity :=
    UInt32.toNat_inj.1 (by rw [h.hasRing.count, hlen, hplaces])
  refine ⟨s, ring, hrun, h.hasRing, hserving, hperm, hcount, fun hne key => ?_⟩
  have hring : ring ≠ [] := by
    rintro rfl
    exact hne (List.length_eq_zero_iff.1 hlen.symm)
  obtain ⟨pre, post, p, rfl, -, -, hp, hprimary⟩ :=
    h.hasRing.primary hring (hcount.trans h.capacity.symm) strhash64 key
  have hmem := List.mem_of_mem_head? hp
  rw [List.mem_append, or_comm, ← List.mem_append] at hmem
  exact ⟨p, hmem, hprimary⟩

/-- The two followers take turns. -/
theorem startUp_complete_turns : ∃ s ring,
    runOf (StartUp.step byteSum twoFollowers) (StartUp.init blankLeader 2 1)
        [.send 0 10000, .send 1 10000, .handle 0, .handle 1, .insert 1, .insert 0,
          .receive 1 10000, .receive 0 10000] = some s ∧
      s.shared.leader.HasRing ring ∧ (∀ i < 2, s.phase i = .serving 1) ∧
      (s.shared.leader.members ring).Perm (twoFollowers.map (·.member byteSum)) ∧
      s.shared.leader.followerCount = 2 ∧
      (twoFollowers ≠ [] → ∀ key, ∃ a ∈ ring,
        tpcleaderGetPrimary byteSum s.shared.leader key = some (some a)) := by
  refine startUp_complete byteSum blankLeader 2 1 twoFollowers twoFollowers_printable rfl
    (by decide +kernel) _ (fun i hi => ⟨10000, 10000, ?_⟩) (by simp) ?_
  · have hi : i < 2 := hi
    interval_cases i
    · exact .cons_cons _ (.cons _ (.cons_cons _ (.cons _ (.cons _ (.cons_cons _ (.cons _
        (.refl _)))))))
    · exact .cons _ (.cons_cons _ (.cons _ (.cons_cons _ (.cons_cons _ (.cons _ (.cons_cons _
        (.cons _ (.refl _))))))))
  · intro i n hn
    simp only [List.mem_cons, StartEvent.send.injEq, StartEvent.receive.injEq, reduceCtorEq,
      false_or, or_false, List.not_mem_nil] at hn
    simp only [libhttpMessageMaxSize]
    omega

end Cs162
