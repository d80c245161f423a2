import Cs162.Proofs.KvMessage
import Cs162.Proofs.TpcRegister

/-!
# The leader's requests

What `kvrequest_recieve` returns has the fields its type needs, with two exceptions: a `COMMIT` or
an `ABORT` may come without a key, and `tpcleader_handle` takes either for an update. It also takes
a `GET` on before all followers are there, and then there is no primary to connect to. So the leader
survives a request exactly if none of this comes together (`leader_survives_iff`).

A follower that registers again is found on the ring, but only after the test for a full leader
(`register_again_iff`).
-/

namespace Cs162

open CLib

variable (strhash64 : CStr → UInt64)

/-- The request is handled without a read through `NULL` up to the first connection, and a client's
request that comes before the leader is full is answered with an error. -/
def Survives (l : TpcLeader) (req : KvRequest) : Prop :=
  ∃ l' act, tpcleaderHandle strhash64 l (some req) = some (l', act) ∧
    (req.type ∈ [MsgType.getreq, .putreq, .delreq] → l.followerCount < l.followerCapacity →
      ∃ res, act = .respond res ∧ res.type = .error)

/-- The follower that a request names is registered again: the answer is `SUCCESS`, and the ring and
the count stay. -/
def RegistersAgain (l : TpcLeader) (req : KvRequest) : Prop :=
  ∃ l', tpcleaderRegister strhash64 l req = some (l', ⟨.success, none⟩) ∧
    l'.followersHead = l.followersHead ∧ l'.followerCount = l.followerCount ∧
    ∀ head, l.followersHead = some head → ∀ i < l.followerCount.toNat,
      l'.nodes ((tpcleaderGetSuccessor l)^[i] head) = l.nodes ((tpcleaderGetSuccessor l)^[i] head)

/-- What the leader needs of a request, and of itself. -/
def Answerable (l : TpcLeader) (req : KvRequest) : Prop :=
  req.type = .index ∨ req.type = .register ∨
    l.followerCount < l.followerCapacity ∧
      (req.type = .getreq → l.redundancy = 0 ∨ 2 ^ 31 ≤ l.redundancy.toNat) ∨
    l.followerCount = l.followerCapacity ∧ l.followerCapacity ≠ 0 ∧ req.key ≠ none

variable {strhash64} {l : TpcLeader} {ring : List ℕ} {req : KvRequest} {sent : List UInt8}

/-- The fields that a type of request comes with. -/
theorem requestType_fields {method : CStr} {path key val : Option CStr} {type : MsgType}
    (h : requestType method ⟨path, key, val⟩ = some type) :
    (type ∈ [MsgType.getreq, .putreq, .delreq, .register] → key ≠ none) ∧
      (type ∈ [MsgType.putreq, .register] → val ≠ none) := by
  unfold requestType at h
  dsimp only at h
  split_ifs at h with h1 h2 h3 h4 h5 h6 h7 h8 h9 h10 h11 <;> cases h <;> simp_all

theorem kvrequestRecieve_fields (h : kvrequestRecieve sent = some req) :
    (req.type ∈ [MsgType.getreq, .putreq, .delreq, .register] → req.key ≠ none) ∧
      (req.type ∈ [MsgType.putreq, .register] → req.val ≠ none) := by
  obtain ⟨-, method, path, htype⟩ := kvrequestRecieve_spec h
  exact requestType_fields htype

namespace TpcLeader

theorem HasRing.lt_or_eq (h : l.HasRing ring) :
    l.followerCount < l.followerCapacity ∨ l.followerCount = l.followerCapacity := by
  have hle := h.capacity
  rw [UInt32.le_iff_toNat_le] at hle
  rw [UInt32.lt_iff_toNat_lt]
  exact (Nat.lt_or_eq_of_le hle).imp id UInt32.toNat_inj.1

theorem HasRing.exists_primary (h : l.HasRing ring) (hcap : l.followerCount = l.followerCapacity)
    (hne : l.followerCapacity ≠ 0) (strhash64 : CStr → UInt64) (key : CStr) :
    ∃ p, tpcleaderGetPrimary strhash64 l key = some (some p) := by
  refine h.getPrimary ?_ hcap strhash64 key
  rintro rfl
  exact hne (hcap ▸ UInt32.toNat_inj.1 h.count)

/-- A leader for no followers is full from the start, and has no primary. -/
theorem HasRing.no_primary (h : l.HasRing ring) (hcap : l.followerCount = l.followerCapacity)
    (hzero : l.followerCapacity = 0) (strhash64 : CStr → UInt64) (key : CStr) :
    tpcleaderGetPrimary strhash64 l key = none := by
  have hring : ring = [] := by
    rw [← List.length_eq_zero_iff, ← h.count, hcap, hzero]
    rfl
  have hhead : l.followersHead = none := h.head.trans (by rw [hring]; rfl)
  simp [tpcleaderGetPrimary, hcap, hzero, hhead]

end TpcLeader

theorem rVal_nonpos : l.rVal ≤ 0 ↔ l.redundancy = 0 ∨ 2 ^ 31 ≤ l.redundancy.toNat := by
  have hlt := l.redundancy.toNat_lt
  have hzero : l.redundancy = 0 ↔ l.redundancy.toNat = 0 :=
    ⟨fun h => by rw [h]; rfl, fun h => UInt32.toNat_inj.1 h⟩
  rw [l.rVal_eq, hzero]
  split_ifs <;> omega

variable (strhash64) in
theorem handleTpc_isSome_iff (h : l.HasRing ring) :
    (∃ t, tpcleaderHandleTpc strhash64 l req = some t)
      ↔ l.followerCount < l.followerCapacity ∨
        l.followerCount = l.followerCapacity ∧ l.followerCapacity ≠ 0 ∧ req.key ≠ none := by
  rcases h.lt_or_eq with hlt | hcap
  · have hne := UInt32.ne_of_lt hlt
    simp [tpcleaderHandleTpc, hne, hlt]
  · rcases hkey : req.key with _ | key
    · simp [tpcleaderHandleTpc, hcap, hkey]
    · by_cases hzero : l.followerCapacity = 0
      · have hnone := h.no_primary hcap hzero strhash64 key
        simp [tpcleaderHandleTpc, hcap, hkey, hnone, hzero]
      · obtain ⟨p, hp⟩ := h.exists_primary hcap hzero strhash64 key
        refine iff_of_true ?_ (.inr ⟨hcap, hzero, by simp⟩)
        simp only [tpcleaderHandleTpc, hcap, ne_eq, not_true_eq_false, if_false, hkey,
          Option.bind_eq_bind, Option.bind_some, hp, phase1Head, endPhase1, Option.pure_def]
        split_ifs <;> exact ⟨_, rfl⟩

variable (strhash64) in
theorem handleGet_act_iff (h : l.HasRing ring) {key : CStr} (hkey : req.key = some key) :
    (∃ t act, tpcleaderHandleGet strhash64 l req = some t ∧ t.act = some act)
      ↔ l.followerCount < l.followerCapacity ∧ l.rVal ≤ 0 ∨
        l.followerCount = l.followerCapacity ∧ l.followerCapacity ≠ 0 := by
  rcases h.lt_or_eq with hlt | hcap
  · have hne := UInt32.ne_of_lt hlt
    have hget : tpcleaderHandleGet strhash64 l req = some (getHead l.rVal none) := by
      simp [tpcleaderHandleGet, hkey, tpcleaderGetPrimary, hlt]
    by_cases hr : 0 < l.rVal
    · simp [hget, getHead, hr, GetThread.act, hne, not_le.2 hr]
    · simp [hget, getHead, hr, GetThread.act, hlt, not_lt.1 hr]
  · by_cases hzero : l.followerCapacity = 0
    · have hnone := h.no_primary hcap hzero strhash64 key
      simp [tpcleaderHandleGet, hkey, hnone, hcap, hzero]
    · obtain ⟨p, hp⟩ := h.exists_primary hcap hzero strhash64 key
      refine iff_of_true ?_ (.inr ⟨hcap, hzero⟩)
      have hget : tpcleaderHandleGet strhash64 l req = some (getHead l.rVal (some p)) := by
        simp [tpcleaderHandleGet, hkey, hp]
      rw [hget, getHead]
      split_ifs <;> exact ⟨_, _, rfl, rfl⟩

variable (strhash64) in
theorem register_isSome (h : l.HasRing ring) (hkey : req.key ≠ none) (hval : req.val ≠ none) :
    ∃ r, tpcleaderRegister strhash64 l req = some r := by
  by_cases hfull : l.followerCount = l.followerCapacity
  · exact ⟨_, by rw [tpcleaderRegister, if_pos hfull]⟩
  · obtain ⟨host, hhost⟩ := Option.ne_none_iff_exists'.1 hkey
    obtain ⟨port, hport⟩ := Option.ne_none_iff_exists'.1 hval
    obtain ⟨l', -, hreg, -⟩ := h.register_room strhash64 req hfull hhost hport
    exact ⟨_, hreg⟩

theorem survives_get_iff (h : l.HasRing ring) (htype : req.type = .getreq) {key : CStr}
    (hkey : req.key = some key) : Survives strhash64 l req ↔
      l.followerCount < l.followerCapacity ∧ l.rVal ≤ 0 ∨
        l.followerCount = l.followerCapacity ∧ l.followerCapacity ≠ 0 := by
  have hhandle : tpcleaderHandle strhash64 l (some req) = (do
      let t ← tpcleaderHandleGet strhash64 l req
      let act ← t.act
      return (l, act)) := by
    simp [tpcleaderHandle, htype]
  rw [← handleGet_act_iff strhash64 h hkey, Survives, hhandle]
  simp only [Option.bind_eq_bind, Option.pure_def, Option.bind_eq_some_iff, Option.some.injEq,
    Prod.mk.injEq]
  constructor
  · rintro ⟨l', act, ⟨t, ht, act', hact, -⟩, -⟩
    exact ⟨t, act', ht, hact⟩
  · rintro ⟨t, act, ht, hact⟩
    refine ⟨l, act, ⟨t, ht, act, hact, rfl, rfl⟩, fun _ hlt => ?_⟩
    have hget : tpcleaderHandleGet strhash64 l req = some (getHead l.rVal none) := by
      simp [tpcleaderHandleGet, hkey, tpcleaderGetPrimary, hlt]
    obtain rfl : getHead l.rVal none = t := Option.some.inj (hget.symm.trans ht)
    rw [getHead] at hact
    split_ifs at hact
    · cases hact
    · exact ⟨_, (Option.some.inj hact).symm, rfl⟩

theorem survives_tpc_iff (h : l.HasRing ring) (hindex : req.type ≠ .index)
    (hregister : req.type ≠ .register) (hget : req.type ≠ .getreq) : Survives strhash64 l req ↔
      l.followerCount < l.followerCapacity ∨
        l.followerCount = l.followerCapacity ∧ l.followerCapacity ≠ 0 ∧ req.key ≠ none := by
  have hhandle : tpcleaderHandle strhash64 l (some req) = (do
      let t ← tpcleaderHandleTpc strhash64 l req
      return (l, t.act)) := by
    simp [tpcleaderHandle, hindex, hregister, hget]
  rw [← handleTpc_isSome_iff strhash64 h, Survives, hhandle]
  simp only [Option.bind_eq_bind, Option.pure_def, Option.bind_eq_some_iff, Option.some.injEq,
    Prod.mk.injEq]
  constructor
  · rintro ⟨l', act, ⟨t, ht, -⟩, -⟩
    exact ⟨t, ht⟩
  · rintro ⟨t, ht⟩
    refine ⟨l, t.act, ⟨t, ht, rfl, rfl⟩, fun _ hlt => ?_⟩
    rw [tpcleaderHandleTpc, if_pos (UInt32.ne_of_lt hlt), Option.some.injEq] at ht
    exact ⟨_, by rw [← ht, TpcThread.act], rfl⟩

section Registered

variable {mem : TpcLeader} {capacity redundancy : UInt32} {reqs : List KvRequest}

/-- A leader survives a request that was received, if and only if it is for the index page or a
registration, or comes before the leader is full and is no `GET`, or a `GET` without replicas, or
comes with a key to a full leader that has followers. -/
theorem leader_survives_iff
    (hreg : registerAll strhash64 (tpcleaderInit mem capacity redundancy) reqs = some l)
    (hreq : kvrequestRecieve sent = some req) : Survives strhash64 l req ↔ Answerable l req := by
  obtain ⟨ring, h, -, -⟩ := (TpcLeader.hasRing_init mem capacity redundancy).registerAll hreg
  obtain ⟨hkey, hval⟩ := kvrequestRecieve_fields hreq
  by_cases hindex : req.type = .index
  · refine iff_of_true ⟨l, .index, ?_, ?_⟩ (.inl hindex)
    · simp [tpcleaderHandle, hindex]
    · simp [hindex]
  by_cases hregister : req.type = .register
  · refine iff_of_true ?_ (.inr (.inl hregister))
    obtain ⟨⟨l', res⟩, hr⟩ := register_isSome strhash64 h
      (hkey (by simp [hregister])) (hval (by simp [hregister]))
    refine ⟨l', .respond res, ?_, ?_⟩
    · simp [tpcleaderHandle, hregister, hr]
    · simp [hregister]
  by_cases hget : req.type = .getreq
  · obtain ⟨key, hk⟩ := Option.ne_none_iff_exists'.1 (hkey (by simp [hget]))
    rw [survives_get_iff h hget hk, rVal_nonpos]
    simp [Answerable, hget, hk]
  · rw [survives_tpc_iff h hindex hregister hget]
    simp [Answerable, hindex, hregister, hget]

/-- A put comes to the leader of one follower. -/
theorem leader_survives_iff_put :
    Survives (fun _ => 0) soloLeader ⟨.putreq, some (.ofString "k"), some (.ofString "v")⟩ :=
  (leader_survives_iff soloLeader_registered
    (show kvrequestRecieve ((CStr.ofString "PUT /?key=k&val=v HTTP/1.1\r\n\r\n").bytes) = _
      by decide)).2 (.inr (.inr (.inr ⟨rfl, by decide, by decide⟩)))

/-- A `GET` comes before the follower has registered. -/
theorem earlyGet_not_survives :
    ¬ ∀ (strhash64 : CStr → UInt64) (mem : TpcLeader) (capacity redundancy : UInt32)
        (reqs : List KvRequest) (l : TpcLeader) (sent : List UInt8) (req : KvRequest),
      registerAll strhash64 (tpcleaderInit mem capacity redundancy) reqs = some l →
      kvrequestRecieve sent = some req → Survives strhash64 l req := by
  intro hall
  obtain ⟨l', act, hhandle, -⟩ := hall (fun _ => 0) blankLeader 1 1 [] _
    (CStr.ofString "GET /?key=k HTTP/1.1\r\n\r\n").bytes ⟨.getreq, some (.ofString "k"), none⟩
    rfl (by decide)
  cases hhandle

/-! ## Registering again -/

/-- A follower whose id is on the ring registers again as it should, if and only if the leader is not
full. -/
theorem register_again_iff
    (hreg : registerAll strhash64 (tpcleaderInit mem capacity redundancy) reqs = some l)
    {host port : CStr} (hhost : req.key = some host) (hport : req.val = some port)
    (hold : ¬ l.IsNewId (strhash64 (followerAddress port host))) :
    RegistersAgain strhash64 l req ↔ l.followerCount ≠ l.followerCapacity := by
  obtain ⟨ring, h, -, -⟩ := (TpcLeader.hasRing_init mem capacity redundancy).registerAll hreg
  constructor
  · rintro ⟨l', hr, -⟩ hfull
    rw [tpcleaderRegister, if_pos hfull] at hr
    cases hr
  · intro hroom
    set n := l.newFollower (strhash64 (followerAddress port host)) host (.ofInt (atoi port))
    have hn : n.HasRing ring := h.newFollower _ _ _
    have hnode : n.nodes l.allocated
        = ⟨strhash64 (followerAddress port host), host, .ofInt (atoi port), l.allocated,
            l.allocated⟩ := Function.update_self ..
    have hframe : ∀ a < l.allocated, n.nodes a = l.nodes a := fun a ha =>
      Function.update_of_ne ha.ne _ _
    have hid : (n.nodes l.allocated).id ∈ n.ids ring := by
      rw [h.isNewId_iff, not_not, TpcLeader.mem_ids] at hold
      obtain ⟨a, ha, hid⟩ := hold
      exact TpcLeader.mem_ids.2 ⟨a, ha, by rw [hframe a (h.allocated a ha), hid, hnode]⟩
    rcases hn.registerLocked_cases (fun hmem => lt_irrefl _ (h.allocated _ hmem))
      (Nat.lt_succ_self _) (by rw [hnode]) (by rw [hnode]) with ⟨-, hsame⟩ | ⟨hnew, -⟩
    · refine ⟨n, by simp [tpcleaderRegister, hroom, hhost, hport, n, hsame], rfl, rfl,
        fun head hhead i hi => hframe _ ?_⟩
      obtain ⟨tail, rfl⟩ : ∃ tail, ring = head :: tail := by
        have hring := h.head
        rw [hhead] at hring
        rcases ring with _ | ⟨c, tail⟩
        · cases hring
        · exact ⟨tail, by rw [Option.some.inj hring]⟩
      obtain ⟨hi', hget⟩ := h.iterate_next hi
      rw [hget]
      exact h.allocated _ (List.getElem_mem hi')
    · exact absurd hid hnew

end Registered

/-- A follower restarts while there is room for another one. -/
theorem register_again_iff_room : ∃ l,
    registerAll (fun _ => 0) (tpcleaderInit blankLeader 2 1) [soloRegister] = some l ∧
      RegistersAgain (fun _ => 0) l soloRegister := by
  obtain ⟨l, hreg, hhead, hid, hcount, hcap⟩ :
      ∃ l, registerAll (fun _ => 0) (tpcleaderInit blankLeader 2 1) [soloRegister] = some l ∧
        l.followersHead = some 0 ∧ (l.nodes 0).id = 0 ∧ l.followerCount = 1 ∧
        l.followerCapacity = 2 := ⟨_, rfl, rfl, rfl, rfl, rfl⟩
  refine ⟨l, hreg, (register_again_iff hreg rfl rfl fun hnew => ?_).2 ?_⟩
  · exact hnew 0 hhead 0 (by rw [hcount]; decide) hid
  · rw [hcount, hcap]
    decide

/-- The only follower of a full leader restarts. -/
theorem fullLeader_not_registersAgain :
    ¬ ∀ (strhash64 : CStr → UInt64) (mem : TpcLeader) (capacity redundancy : UInt32)
        (reqs : List KvRequest) (l : TpcLeader) (req : KvRequest) (host port : CStr),
      registerAll strhash64 (tpcleaderInit mem capacity redundancy) reqs = some l →
      req.key = some host → req.val = some port →
      ¬ l.IsNewId (strhash64 (followerAddress port host)) → RegistersAgain strhash64 l req := by
  intro hall
  obtain ⟨l', hr, -⟩ := hall (fun _ => 0) blankLeader 1 1 [soloRegister] soloLeader soloRegister
    (.ofString "h") (.ofString "16201") soloLeader_registered rfl rfl
    fun hnew => hnew 0 rfl 0 (by decide) rfl
  cases hr

end Cs162
