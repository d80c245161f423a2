import Cs162.Proofs.Sprintf
import Cs162.Proofs.TpcWalk

/-!
# A `GET` and its replicas

`tpcleader_handle_get` goes from replica to replica until one replies with a value. A replica that
cannot be connected to, or replies with an error, is passed over. A replica that gives no reply is
not: its missing reply is read. A long key does not fit into the buffer its URL is printed into, and
a redundancy beyond `INT_MAX` leaves no round for the loop. So a `GET` fails over exactly if none of
these comes in the way (`handleGet_failsOver_iff`).
-/

namespace Cs162

open CLib

/-- The nodes a key is stored on, in ring order from its primary. -/
def TpcLeader.replicaNodes (strhash64 : CStr → UInt64) (l : TpcLeader) (key : CStr) : List ℕ :=
  match tpcleaderGetPrimary strhash64 l key with
  | some (some primary) => List.iterate (tpcleaderGetSuccessor l) primary l.redundancy.toNat
  | _ => []

/-- The reply that a `GET` is after. -/
def Contact.value : Contact → Option KvResponse
  | .reply res => if res.type = .getresp then some ⟨.getresp, res.body⟩ else none
  | _ => none

/-- The value of the first replica that replies with one, or else an error. -/
def firstValue (contact : ℕ → Contact) (nodes : List ℕ) : KvResponse :=
  (nodes.findSome? fun a => (contact a).value).getD ⟨.error, some errmsgNoKey⟩

/-- The replicas up to the first that replies with a value, without it. -/
def passedOver (contact : ℕ → Contact) (nodes : List ℕ) : List ℕ :=
  nodes.takeWhile fun a => (contact a).value.isNone

/-- A `GET` connects to replicas of its key in ring order, and responds with the first value there
is. -/
def FailsOver (strhash64 : CStr → UInt64) (l : TpcLeader) (req : KvRequest) (key : CStr)
    (contact : ℕ → Contact) : Prop :=
  ∃ connected res, runHandleGet strhash64 l req contact = some (connected, res) ∧
    connected <+: l.replicaNodes strhash64 key ∧
    res = firstValue contact (l.replicaNodes strhash64 key)

variable {strhash64 : CStr → UInt64} {l : TpcLeader} {contact : ℕ → Contact} {req : KvRequest}

theorem passedOver_cons_of_none {a : ℕ} (h : (contact a).value = none) (nodes : List ℕ) :
    passedOver contact (a :: nodes) = a :: passedOver contact nodes ∧
      firstValue contact (a :: nodes) = firstValue contact nodes := by
  simp [passedOver, firstValue, h]

theorem receive_pass {rVal : ℤ} {curr : ℕ} (h : (contact curr).value = none)
    (hreply : contact curr ≠ .noReply) :
    GetThread.receive l (contact curr) (.loop rVal (some curr))
      = some (getHead (rVal - 1) (some (tpcleaderGetSuccessor l curr))) := by
  rcases hc : contact curr with _ | _ | res
  · rfl
  · exact absurd hc hreply
  · have hres : res.type ≠ .getresp := by
      intro htype
      simp [hc, Contact.value, htype] at h
    simp [GetThread.receive, hres]

theorem receive_value {rVal : ℤ} {curr : ℕ} {res : KvResponse}
    (h : (contact curr).value = some res) :
    GetThread.receive l (contact curr) (.loop rVal (some curr)) = some (.ended res) := by
  rcases hc : contact curr with _ | _ | reply
  · simp [hc, Contact.value] at h
  · simp [hc, Contact.value] at h
  · rw [hc] at h
    simp only [Contact.value, Option.ite_none_right_eq_some, Option.some.injEq] at h
    simp [GetThread.receive, h.1, h.2]

/-- A `GET` is sent inside the buffers if its URL fits into one. -/
theorem round_eq (hget : req.type = .getreq) (c : Contact) (rVal : ℤ) (curr : Option ℕ) :
    GetThread.round l req c (.loop rVal curr)
      = if UrlFits req then GetThread.receive l c (.loop rVal curr) else none := by
  have hmethod : httpMethodForRequestType req.type ≠ none := by
    rw [hget]
    nofun
  have hsent : (kvrequestSendPrinted req).isSome = true := by
    obtain ⟨method, hmethod⟩ := Option.ne_none_iff_exists'.1 hmethod
    simp [kvrequestSendPrinted, hmethod, httpStartRequestPrinted, (method_valid hmethod).1]
  simp only [GetThread.round, sendInside_iff hmethod, hsent, if_true]

theorem getHead_pos (n : ℕ) (curr : ℕ) :
    getHead ((n : ℤ) + 1) (some curr) = .loop ((n : ℤ) + 1) (some curr) := by
  rw [getHead, if_pos (by omega)]

/-- The loop with `n` rounds to go. -/
theorem run_replicas (hget : req.type = .getreq) (hfits : UrlFits req) (n curr : ℕ) :
    (∀ a ∈ passedOver contact (List.iterate (tpcleaderGetSuccessor l) curr n),
      contact a ≠ .noReply) →
    ∃ connected, GetThread.run l req contact n (getHead n (some curr))
        = some (connected, firstValue contact (List.iterate (tpcleaderGetSuccessor l) curr n)) ∧
      connected <+: List.iterate (tpcleaderGetSuccessor l) curr n := by
  induction n generalizing curr with
  | zero =>
    intro _
    exact ⟨[], rfl, List.nil_prefix⟩
  | succ n ih =>
    intro hreply
    rw [List.iterate] at hreply ⊢
    rw [Nat.cast_succ, getHead_pos, GetThread.run]
    simp only [Option.bind_eq_bind, Option.bind_some, Option.pure_def, round_eq hget, if_pos hfits]
    rcases hv : (contact curr).value with _ | res
    · obtain ⟨hpass, hfirst⟩ := passedOver_cons_of_none hv
        (List.iterate (tpcleaderGetSuccessor l) (tpcleaderGetSuccessor l curr) n)
      rw [hpass, List.forall_mem_cons] at hreply
      obtain ⟨connected, hrun, hprefix⟩ := ih (tpcleaderGetSuccessor l curr) hreply.2
      rw [receive_pass hv hreply.1, add_sub_cancel_right, Option.bind_some, hrun, hfirst]
      exact ⟨curr :: connected, rfl, List.cons_prefix_cons.2 ⟨rfl, hprefix⟩⟩
    · rw [receive_value hv]
      refine ⟨[curr], ?_, List.cons_prefix_cons.2 ⟨rfl, List.nil_prefix⟩⟩
      simp [GetThread.run, firstValue, hv]

theorem run_noReply (hget : req.type = .getreq) (n curr : ℕ) :
    (∃ a ∈ passedOver contact (List.iterate (tpcleaderGetSuccessor l) curr n),
      contact a = .noReply) → GetThread.run l req contact n (getHead n (some curr)) = none := by
  induction n generalizing curr with
  | zero => simp [passedOver, List.iterate]
  | succ n ih =>
    rintro ⟨a, ha, hno⟩
    rw [List.iterate] at ha
    rw [Nat.cast_succ, getHead_pos, GetThread.run]
    simp only [Option.bind_eq_bind, Option.bind_some, Option.pure_def, round_eq hget]
    by_cases hfits : UrlFits req
    swap
    · rw [if_neg hfits, Option.bind_none]
    rw [if_pos hfits]
    rcases hv : (contact curr).value with _ | res
    · rw [(passedOver_cons_of_none hv _).1] at ha
      by_cases hcurr : contact curr = .noReply
      · simp [hcurr, GetThread.receive]
      · have hrest := ih (tpcleaderGetSuccessor l curr)
          ⟨a, (List.mem_cons.1 ha).resolve_left fun e => hcurr (e ▸ hno), hno⟩
        rw [receive_pass hv hcurr, add_sub_cancel_right, Option.bind_some, hrest, Option.bind_none]
    · simp [passedOver, hv] at ha

/-- The first round already writes behind the buffer. -/
theorem run_notFits (hget : req.type = .getreq) (hfits : ¬ UrlFits req) (n curr : ℕ) :
    GetThread.run l req contact (n + 1) (getHead (n + 1 : ℕ) (some curr)) = none := by
  rw [Nat.cast_succ, getHead_pos, GetThread.run]
  simp only [Option.bind_eq_bind, Option.bind_some, round_eq hget, if_neg hfits, Option.bind_none]

theorem firstValue_eq_error {nodes : List ℕ} :
    (⟨.error, some errmsgNoKey⟩ : KvResponse) = firstValue contact nodes
      ↔ ∀ a ∈ nodes, (contact a).value = none := by
  constructor
  · intro h
    rw [← List.findSome?_eq_none_iff]
    rcases hv : nodes.findSome? fun a => (contact a).value with _ | res
    · rfl
    · obtain ⟨a, -, ha⟩ := List.exists_of_findSome?_eq_some hv
      have htype : res.type = .getresp := by
        rcases hc : contact a with _ | _ | reply
        · simp [hc, Contact.value] at ha
        · simp [hc, Contact.value] at ha
        · rw [hc] at ha
          simp only [Contact.value, Option.ite_none_right_eq_some, Option.some.injEq] at ha
          rw [← ha.2]
      rw [firstValue, hv, Option.getD_some] at h
      rw [← h] at htype
      cases htype
  · intro h
    rw [firstValue, List.findSome?_eq_none_iff.2 h, Option.getD_none]

variable {mem : TpcLeader} {capacity redundancy : UInt32} {reqs : List KvRequest}

/-- A leader at capacity fails over if and only if its redundancy fits an `int`, the URL fits into its
buffer and every replica before the first value replies or cannot be connected to; if the redundancy
does not fit, only a `GET` that no replica has a value for is answered right. -/
theorem handleGet_failsOver_iff
    (hreg : registerAll strhash64 (tpcleaderInit mem capacity redundancy) reqs = some l)
    (hcap : l.followerCount = l.followerCapacity) (hpos : 1 ≤ l.redundancy.toNat)
    (hget : req.type = .getreq) {key : CStr} (hkey : req.key = some key) (contact : ℕ → Contact) :
    FailsOver strhash64 l req key contact ↔
      if l.redundancy.toNat < 2 ^ 31 then UrlFits req ∧
        ∀ a ∈ passedOver contact (l.replicaNodes strhash64 key), contact a ≠ .noReply
      else ∀ a ∈ l.replicaNodes strhash64 key, (contact a).value = none := by
  obtain ⟨p, hp⟩ := TpcLeader.primary hreg hcap hpos key
  have hnodes : l.replicaNodes strhash64 key
      = List.iterate (tpcleaderGetSuccessor l) p l.redundancy.toNat := by
    simp only [TpcLeader.replicaNodes, hp]
  have hrun : runHandleGet strhash64 l req contact
      = GetThread.run l req contact l.redundancy.toNat (getHead l.rVal (some p)) := by
    simp [runHandleGet, tpcleaderHandleGet, hkey, hp]
  unfold FailsOver
  rw [hrun, hnodes, l.rVal_eq]
  split_ifs with hmax
  · constructor
    · rintro ⟨connected, res, hsome, -⟩
      refine ⟨?_, fun a ha hno => ?_⟩
      · by_contra hfits
        obtain ⟨n, hn⟩ := Nat.exists_eq_add_of_le' hpos
        rw [hn, run_notFits hget hfits] at hsome
        cases hsome
      · rw [run_noReply hget _ _ ⟨a, ha, hno⟩] at hsome
        cases hsome
    · rintro ⟨hfits, hreply⟩
      obtain ⟨connected, hsome, hprefix⟩ := run_replicas hget hfits _ _ hreply
      exact ⟨connected, _, hsome, hprefix, rfl⟩
  · have hover : GetThread.run l req contact l.redundancy.toNat
        (getHead (l.redundancy.toNat - 2 ^ 32) (some p))
        = some ([], ⟨.error, some errmsgNoKey⟩) := by
      have := l.redundancy.toNat_lt
      rw [getHead, if_neg (by omega), GetThread.run]
    rw [hover, ← firstValue_eq_error]
    constructor
    · rintro ⟨connected, res, hsome, -, hres⟩
      obtain ⟨-, rfl⟩ := Prod.mk.inj (Option.some.inj hsome)
      exact hres
    · intro hres
      exact ⟨[], _, rfl, List.nil_prefix, hres⟩

/-- What three followers do: the one of port 3 has the value, the one of port 2 answers with an
error, and there is no connection to the one of port 1. -/
def trioContact (node : ℕ) : Contact :=
  if node = 0 then .reply ⟨.getresp, some (.ofString "x")⟩
  else if node = 1 then .refused
  else .reply ⟨.error, some errmsgNoKey⟩

/-- All three are asked in turn. -/
theorem handleGet_failsOver_iff_lastHas :
    FailsOver firstByte (trioLeader 3) ⟨.getreq, some (.ofString "a"), none⟩ (.ofString "a")
        trioContact ∧
      passedOver trioContact ((trioLeader 3).replicaNodes firstByte (.ofString "a")) = [1, 2] ∧
      firstValue trioContact ((trioLeader 3).replicaNodes firstByte (.ofString "a"))
        = ⟨.getresp, some (.ofString "x")⟩ := by
  have hnodes : (trioLeader 3).replicaNodes firstByte (.ofString "a") = [1, 2, 0] := by
    decide +kernel
  have hpassed : passedOver trioContact [1, 2, 0] = [1, 2] := by decide +kernel
  refine ⟨(handleGet_failsOver_iff (trioLeader_registered 3) (by decide +kernel)
    (by decide +kernel) rfl rfl _).2 ?_, by rw [hnodes, hpassed], ?_⟩
  · rw [if_pos (by decide +kernel), hnodes, hpassed]
    refine ⟨by decide +kernel, ?_⟩
    simp [trioContact]
  · rw [hnodes]
    rfl

/-- The follower accepts the connection and closes it without a reply. -/
theorem noReply_not_failsOver :
    ¬ ∀ (strhash64 : CStr → UInt64) (mem : TpcLeader) (capacity redundancy : UInt32)
        (reqs : List KvRequest) (l : TpcLeader) (req : KvRequest) (key : CStr)
        (contact : ℕ → Contact),
      registerAll strhash64 (tpcleaderInit mem capacity redundancy) reqs = some l →
      l.followerCount = l.followerCapacity → 1 ≤ l.redundancy.toNat → req.type = .getreq →
      req.key = some key → FailsOver strhash64 l req key contact := by
  intro hall
  obtain ⟨connected, res, hrun, -⟩ := hall (fun _ => 0) blankLeader 1 1 [soloRegister] soloLeader
    ⟨.getreq, some (.ofString "k"), none⟩ (.ofString "k") (fun _ => .noReply)
    soloLeader_registered rfl (by decide) rfl rfl
  cases hrun

end Cs162
