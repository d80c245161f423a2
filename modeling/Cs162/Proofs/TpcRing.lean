import Mathlib.Data.List.Sort
import Cs162.Proofs.TpcWalk

/-!
# Registration and placement

After any registrations the leader's list is a ring of the accepted ids in ascending order
(`registerAll_ring`). A key is placed on the followers that come after its hash on that ring: the
walk of `tpcleader_get_primary` and `tpcleader_get_successor` depends on who is registered, and not
on the order (`walk_placement`).
-/

namespace Cs162

open CLib

variable (strhash64 : CStr → UInt64)

/-- The requests of a run that are answered `SUCCESS`. -/
def accepted (l : TpcLeader) : List KvRequest → List KvRequest
  | [] => []
  | req :: reqs =>
    match tpcleaderRegister strhash64 l req with
    | none => []
    | some (l', res) =>
      if res.type = .success then req :: accepted l' reqs else accepted l' reqs

/-- What the pointers of the list come to. -/
structure RingInv (l : TpcLeader) (reqs : List KvRequest) : Prop where
  head : l.followersHead = none ↔ l.followerCount = 0
  count : l.followerCount ≤ l.followerCapacity
  closed : ∀ head, l.followersHead = some head →
    (tpcleaderGetSuccessor l)^[l.followerCount.toNat] head = head
  ascending : ∀ head, l.followersHead = some head → ∀ i j, i < j → j < l.followerCount.toNat →
    (l.nodes ((tpcleaderGetSuccessor l)^[i] head)).id
      < (l.nodes ((tpcleaderGetSuccessor l)^[j] head)).id
  inverse : ∀ head, l.followersHead = some head → ∀ i < l.followerCount.toNat,
    let node := (tpcleaderGetSuccessor l)^[i] head
    (l.nodes (l.nodes node).next).prev = node ∧ (l.nodes (l.nodes node).prev).next = node
  ids : ∀ id, (∃ head, l.followersHead = some head ∧ ∃ i < l.followerCount.toNat,
      (l.nodes ((tpcleaderGetSuccessor l)^[i] head)).id = id) ↔
    ∃ req ∈ reqs, ∃ m, memberOf strhash64 req = some m ∧ m.id = id

variable {strhash64} {l l' : TpcLeader} {ring : List ℕ} {req : KvRequest} {reqs : List KvRequest}

namespace TpcLeader

/-- The nodes of a ring, from its head on. -/
theorem HasRing.iterate_next {first : ℕ} {tail : List ℕ} (h : l.HasRing (first :: tail)) {i : ℕ}
    (hi : i < l.followerCount.toNat) : ∃ hi' : i < (first :: tail).length,
      (tpcleaderGetSuccessor l)^[i] first = (first :: tail)[i] :=
  ⟨h.count ▸ hi, h.linked.iterate_next i (h.count ▸ hi)⟩

theorem HasRing.ringInv (h : l.HasRing ring)
    (hids : ∀ id, id ∈ l.ids ring ↔ ∃ req ∈ reqs, ∃ m, memberOf strhash64 req = some m ∧ m.id = id) :
    RingInv strhash64 l reqs := by
  have hcount := h.count
  rcases ring with _ | ⟨first, tail⟩
  · have hnone : l.followersHead = none := h.head
    have hzero : l.followerCount = 0 := UInt32.toNat_inj.1 hcount
    refine ⟨by simp [hnone, hzero], h.capacity, ?_, ?_, ?_, fun id => ?_⟩
    · simp [hnone]
    · simp [hnone]
    · simp [hnone]
    · rw [← hids id]
      simp [hnone, ids, members]
  have hhead : l.followersHead = some first := h.head
  have hpos : l.followerCount ≠ 0 := fun e => by simp [e] at hcount
  refine ⟨by simp [hhead, hpos], h.capacity, ?_, ?_, ?_, fun id => ?_⟩
  · intro head e
    obtain rfl : first = head := Option.some.inj (hhead.symm.trans e)
    rw [hcount]
    exact h.linked.iterate_length
  · intro head e i j hij hj
    obtain rfl : first = head := Option.some.inj (hhead.symm.trans e)
    obtain ⟨hi', hi⟩ := h.iterate_next (hij.trans hj)
    obtain ⟨hj', hj⟩ := h.iterate_next hj
    rw [hi, hj]
    exact List.pairwise_iff_getElem.1 h.sorted i j hi' hj' hij
  · intro head e i hi
    obtain rfl : first = head := Option.some.inj (hhead.symm.trans e)
    obtain ⟨hi', hi⟩ := h.iterate_next hi
    simp only [hi]
    exact h.linked.inverse (List.getElem_mem hi')
  · rw [← hids id, mem_ids]
    constructor
    · rintro ⟨head, e, i, hi, rfl⟩
      obtain rfl : first = head := Option.some.inj (hhead.symm.trans e)
      obtain ⟨hi', hi⟩ := h.iterate_next hi
      rw [hi]
      exact ⟨_, List.getElem_mem hi', rfl⟩
    · rintro ⟨a, ha, rfl⟩
      obtain ⟨i, hi, rfl⟩ := List.mem_iff_getElem.1 ha
      obtain ⟨hi', hi⟩ := h.iterate_next (hcount.symm ▸ hi)
      exact ⟨first, hhead, i, hcount.symm ▸ hi', by rw [hi]⟩

theorem memberOf_some {m : Member} (h : memberOf strhash64 req = some m) :
    ∃ host port, req.key = some host ∧ req.val = some port ∧
      m = ⟨strhash64 (followerAddress port host), host, .ofInt (atoi port)⟩ := by
  simp only [memberOf, Option.pure_def, Option.bind_eq_bind, Option.bind_eq_some_iff,
    Option.some.injEq] at h
  obtain ⟨host, hhost, port, hport, rfl⟩ := h
  exact ⟨host, port, hhost, hport, rfl⟩

theorem Joins.mem_ids {before after : List Member} {m : Member} (h : Joins before after m)
    (id : UInt64) : id ∈ after.map (·.id) ↔ id = m.id ∨ id ∈ before.map (·.id) := by
  rcases h with ⟨-, hperm⟩ | ⟨hmem, rfl⟩
  · rw [(hperm.map _).mem_iff, List.map_cons, List.mem_cons]
  · constructor
    · exact .inr
    · rintro (rfl | h)
      · exact hmem
      · exact h

theorem Joins.subset {before after : List Member} {m : Member} (h : Joins before after m) :
    ∀ x ∈ after, x = m ∨ x ∈ before := by
  rcases h with ⟨-, hperm⟩ | ⟨-, rfl⟩
  · exact fun x hx => List.mem_cons.1 (hperm.mem_iff.1 hx)
  · exact fun x hx => .inr hx

/-- A run of registrations takes in the followers it accepts. -/
theorem HasRing.registerAll_accepted : ∀ {reqs : List KvRequest} {l : TpcLeader} {ring : List ℕ},
    l.HasRing ring → (∀ req ∈ reqs, memberOf strhash64 req ≠ none) →
    ∃ l' ring', Cs162.registerAll strhash64 l reqs = some l' ∧ l'.HasRing ring' ∧
      l'.followerCapacity = l.followerCapacity ∧ l'.redundancy = l.redundancy ∧
      (∀ m ∈ l'.members ring', m ∈ l.members ring ∨
        ∃ req ∈ accepted strhash64 l reqs, memberOf strhash64 req = some m) ∧
      ∀ id, id ∈ l'.ids ring' ↔ id ∈ l.ids ring ∨
        ∃ req ∈ accepted strhash64 l reqs, ∃ m, memberOf strhash64 req = some m ∧ m.id = id
  | [], l, ring, h, _ => ⟨l, ring, rfl, h, rfl, rfl, fun m hm => .inl hm, by simp [accepted]⟩
  | req :: reqs, l, ring, h, hreqs => by
    have hrest : ∀ req ∈ reqs, memberOf strhash64 req ≠ none :=
      fun r hr => hreqs r (List.mem_cons_of_mem _ hr)
    by_cases hfull : l.followerCount = l.followerCapacity
    · have hreg : tpcleaderRegister strhash64 l req
          = some (l, ⟨.error, some errmsgFollowerCapacity⟩) := by
        simp [tpcleaderRegister, hfull]
      obtain ⟨l', ring', hall, hr, hcap, hred, hmem, hids⟩ := h.registerAll_accepted hrest
      have hacc : accepted strhash64 l (req :: reqs) = accepted strhash64 l reqs := by
        simp [accepted, hreg]
      exact ⟨l', ring', by simp [Cs162.registerAll, hreg, hall], hr, hcap, hred, hacc ▸ hmem,
        hacc ▸ hids⟩
    · obtain ⟨m, hm⟩ := Option.ne_none_iff_exists'.1 (hreqs req List.mem_cons_self)
      obtain ⟨host, port, hhost, hport, hmember⟩ := memberOf_some hm
      obtain ⟨l₁, ring₁, hreg, h₁, hcap₁, hred₁, hjoins⟩ :=
        h.register_room strhash64 req hfull hhost hport
      rw [← hmember] at hjoins
      obtain ⟨l', ring', hall, hr, hcap, hred, hmem, hids⟩ := h₁.registerAll_accepted hrest
      have hacc : accepted strhash64 l (req :: reqs) = req :: accepted strhash64 l₁ reqs := by
        simp [accepted, hreg]
      refine ⟨l', ring', by simp [Cs162.registerAll, hreg, hall], hr, hcap.trans hcap₁,
        hred.trans hred₁, fun x hx => ?_, fun id => ?_⟩
      · rw [hacc]
        rcases hmem x hx with hx | ⟨r, hr, hrx⟩
        · rcases hjoins.subset x hx with rfl | hx
          · exact .inr ⟨req, List.mem_cons_self, hm⟩
          · exact .inl hx
        · exact .inr ⟨r, List.mem_cons_of_mem _ hr, hrx⟩
      · rw [hids id, hacc, List.exists_mem_cons_iff, ids, hjoins.mem_ids id]
        simp only [hm, Option.some.injEq, exists_eq_left', ids]
        tauto

end TpcLeader

/-- Whatever is registered in whatever order, the list is a ring of the ids that were accepted,
ascending from its head. -/
theorem registerAll_ring (mem : TpcLeader) (capacity redundancy : UInt32)
    (hreqs : ∀ req ∈ reqs, memberOf strhash64 req ≠ none) :
    ∃ l, registerAll strhash64 (tpcleaderInit mem capacity redundancy) reqs = some l ∧
      RingInv strhash64 l (accepted strhash64 (tpcleaderInit mem capacity redundancy) reqs) := by
  obtain ⟨l, ring, hall, h, -, -, -, hids⟩ :=
    (TpcLeader.hasRing_init mem capacity redundancy).registerAll_accepted hreqs
  exact ⟨l, hall, h.ringInv fun id => by
    rw [hids id]
    simp [TpcLeader.ids, TpcLeader.members]⟩

/-- A follower registers twice. -/
theorem registerAll_ring_twice :
    ∃ l, registerAll (fun _ => 0) (tpcleaderInit blankLeader 2 1) [soloRegister, soloRegister]
        = some l ∧
      RingInv (fun _ => 0) l
        (accepted (fun _ => 0) (tpcleaderInit blankLeader 2 1) [soloRegister, soloRegister]) :=
  registerAll_ring blankLeader 2 1 (by decide)

/-! ## Placement -/

section Placement

variable (strhash64)

/-- The followers that the walk for a key visits. -/
def TpcLeader.placement (l : TpcLeader) (key : CStr) : List Member :=
  match tpcleaderGetPrimary strhash64 l key with
  | some (some primary) =>
    (List.iterate (tpcleaderGetSuccessor l) primary l.redundancy.toNat).map fun a => (l.nodes a).member
  | _ => []

/-- Followers in ascending order, listed from beyond a hash on and around. -/
def fromHash (hash : UInt64) (followers : List Member) : List Member :=
  followers.filter (hash < ·.id) ++ followers.filter (¬ hash < ·.id)

/-- A leader that registrations have filled with followers of distinct ids. -/
structure Filled (mem : TpcLeader) (capacity redundancy : UInt32) (reqs : List KvRequest)
    (l : TpcLeader) : Prop where
  requests : ∀ req ∈ reqs, memberOf strhash64 req ≠ none
  registered : registerAll strhash64 (tpcleaderInit mem capacity redundancy) reqs = some l
  full : l.followerCount = l.followerCapacity
  distinct : ∀ r₁ ∈ accepted strhash64 (tpcleaderInit mem capacity redundancy) reqs,
    ∀ r₂ ∈ accepted strhash64 (tpcleaderInit mem capacity redundancy) reqs, ∀ m₁ m₂,
    memberOf strhash64 r₁ = some m₁ → memberOf strhash64 r₂ = some m₂ → m₁.id = m₂.id → m₁ = m₂

/-- The follower was registered. -/
def Registered (mem : TpcLeader) (capacity redundancy : UInt32) (reqs : List KvRequest)
    (m : Member) : Prop :=
  ∃ req ∈ accepted strhash64 (tpcleaderInit mem capacity redundancy) reqs,
    memberOf strhash64 req = some m

variable {strhash64} {mem mem' : TpcLeader} {capacity redundancy : UInt32} {reqs' : List KvRequest}

theorem fromHash_append {hash : UInt64} {pre post : List Member}
    (hpre : ∀ m ∈ pre, ¬ hash < m.id) (hpost : ∀ m ∈ post, hash < m.id) :
    fromHash hash (pre ++ post) = post ++ pre := by
  have h₁ : pre.filter (hash < ·.id) = [] :=
    List.filter_eq_nil_iff.2 fun m hm => by simpa using hpre m hm
  have h₂ : post.filter (hash < ·.id) = post :=
    List.filter_eq_self.2 fun m hm => by simpa using hpost m hm
  have h₃ : pre.filter (¬ hash < ·.id) = pre :=
    List.filter_eq_self.2 fun m hm => by simpa using hpre m hm
  have h₄ : post.filter (¬ hash < ·.id) = [] :=
    List.filter_eq_nil_iff.2 fun m hm => by simpa using hpost m hm
  rw [fromHash, List.filter_append, List.filter_append, h₁, h₂, h₃, h₄, List.nil_append,
    List.append_nil]

theorem fromHash_perm (hash : UInt64) (followers : List Member) :
    (fromHash hash followers).Perm followers := by
  simpa only [fromHash, decide_not] using List.filter_append_perm (hash < ·.id) followers

/-- The walk lists the ring from the key's hash on. -/
theorem TpcLeader.HasRing.placement (h : l.HasRing ring) (hne : ring ≠ [])
    (hfull : l.followerCount = l.followerCapacity) (hr : l.redundancy.toNat ≤ ring.length)
    (key : CStr) : l.placement strhash64 key
      = (fromHash (strhash64 key) (l.members ring)).take l.redundancy.toNat := by
  obtain ⟨pre, post, p, rfl, hpre, hpost, hp, hprimary⟩ := h.primary hne hfull strhash64 key
  obtain ⟨rest, hrest⟩ := List.head?_eq_some_iff.1 hp
  have hring := h.linked.rotate
  rw [hrest] at hring
  have hlen : l.redundancy.toNat ≤ (p :: rest).length := by
    rwa [← hrest, List.length_append, add_comm, ← List.length_append]
  have hmembers : fromHash (strhash64 key) (l.members (pre ++ post)) = l.members (post ++ pre) := by
    simp only [members, List.map_append]
    refine fromHash_append (fun m hm => ?_) fun m hm => ?_
    · obtain ⟨a, ha, rfl⟩ := List.mem_map.1 hm
      exact hpre a ha
    · obtain ⟨a, ha, rfl⟩ := List.mem_map.1 hm
      exact hpost a ha
  simp only [TpcLeader.placement, hprimary]
  have hwalk : List.iterate (tpcleaderGetSuccessor l) p l.redundancy.toNat
      = (p :: rest).take l.redundancy.toNat := hring.iterate_take hlen
  rw [hwalk, hmembers, hrest, members, List.map_take]

/-- The ring of a filled leader. -/
theorem Filled.exists_ring (h : Filled strhash64 mem capacity redundancy reqs l) (hcap : capacity ≠ 0) :
    ∃ ring, l.HasRing ring ∧ ring ≠ [] ∧ ring.length = capacity.toNat ∧
      l.redundancy = (if capacity < redundancy then capacity else redundancy) ∧
      l.redundancy.toNat ≤ ring.length ∧
      ∀ m, m ∈ l.members ring ↔ Registered strhash64 mem capacity redundancy reqs m := by
  obtain ⟨l', ring, hall, hr, hc, hred, hmem, hids⟩ :=
    (TpcLeader.hasRing_init mem capacity redundancy).registerAll_accepted h.requests
  obtain rfl : l = l' := Option.some.inj (h.registered.symm.trans hall)
  have hlen : ring.length = capacity.toNat := by rw [← hr.count, h.full, hc]; rfl
  have hsub : ∀ m ∈ l.members ring, Registered strhash64 mem capacity redundancy reqs m :=
    fun m hm => (hmem m hm).resolve_left (by simp [TpcLeader.members])
  refine ⟨ring, hr, ?_, hlen, hred, ?_, fun m => ⟨hsub m, fun hm => ?_⟩⟩
  · rintro rfl
    exact hcap (UInt32.toNat_inj.1 hlen.symm)
  · rw [hlen, hred]
    simp only [tpcleaderInit]
    split_ifs with hlt
    · exact le_rfl
    · rw [UInt32.lt_iff_toNat_lt] at hlt
      omega
  · obtain ⟨r₁, hr₁, hm₁⟩ := hm
    have hid : m.id ∈ l.ids ring := (hids m.id).2 (.inr ⟨r₁, hr₁, m, hm₁, rfl⟩)
    obtain ⟨m₂, hm₂, heq⟩ := List.mem_map.1 hid
    obtain ⟨r₂, hr₂, hm₂'⟩ := hsub m₂ hm₂
    exact h.distinct r₂ hr₂ r₁ hr₁ m₂ m hm₂' hm₁ heq ▸ hm₂

theorem ascending_ext {as bs : List Member} (ha : as.Pairwise (·.id < ·.id))
    (hb : bs.Pairwise (·.id < ·.id)) (h : ∀ m, m ∈ as ↔ m ∈ bs) : as = bs := by
  have : Std.Antisymm fun a b : Member => a.id < b.id :=
    ⟨fun a b hab hba => absurd (UInt64.lt_trans hab hba) (UInt64.lt_irrefl _)⟩
  have : Std.Irrefl fun a b : Member => a.id < b.id := ⟨fun a => UInt64.lt_irrefl a.id⟩
  exact ha.eq_of_mem_iff hb h

/-- A key is placed on the followers beyond its hash, as many as the redundancy says, whatever order
they were registered in. -/
theorem walk_placement (h : Filled strhash64 mem capacity redundancy reqs l)
    (hcap : capacity ≠ 0) :
    (∃ followers : List Member, followers.Pairwise (·.id < ·.id) ∧
      followers.length = capacity.toNat ∧
      (∀ m, m ∈ followers ↔ Registered strhash64 mem capacity redundancy reqs m) ∧
      ∀ key, l.placement strhash64 key
          = (fromHash (strhash64 key) followers).take l.redundancy.toNat ∧
        (l.placement strhash64 key).length = l.redundancy.toNat ∧
        (l.placement strhash64 key).Nodup) ∧
    ∀ mem' reqs' l', Filled strhash64 mem' capacity redundancy reqs' l' →
      (∀ m, Registered strhash64 mem' capacity redundancy reqs' m ↔
        Registered strhash64 mem capacity redundancy reqs m) →
      ∀ key, l'.placement strhash64 key = l.placement strhash64 key := by
  obtain ⟨ring, hr, hne, hlen, hred, hle, hmem⟩ := h.exists_ring hcap
  have hsorted : (l.members ring).Pairwise (·.id < ·.id) := List.pairwise_map.2 hr.sorted
  have hplace : ∀ key, l.placement strhash64 key
      = (fromHash (strhash64 key) (l.members ring)).take l.redundancy.toNat :=
    hr.placement hne h.full hle
  refine ⟨⟨l.members ring, hsorted, by simp [TpcLeader.members, hlen], hmem, fun key =>
    ⟨hplace key, ?_, ?_⟩⟩, fun mem' reqs' l' h' hsame key => ?_⟩
  · rw [hplace key, List.length_take, min_eq_left]
    rwa [(fromHash_perm _ _).length_eq, TpcLeader.members, List.length_map]
  · rw [hplace key]
    have hnodup : (l.members ring).Nodup := by
      refine hsorted.imp ?_
      rintro a b hab rfl
      exact UInt64.lt_irrefl _ hab
    exact ((fromHash_perm _ _).nodup_iff.2 hnodup).sublist (List.take_sublist _ _)
  · obtain ⟨ring', hr', hne', -, hred', hle', hmem'⟩ := h'.exists_ring hcap
    have hsorted' : (l'.members ring').Pairwise (·.id < ·.id) := List.pairwise_map.2 hr'.sorted
    rw [hplace key, hr'.placement hne' h'.full hle' key, hred', ← hred,
      ascending_ext hsorted' hsorted fun m => (hmem' m).trans ((hsame m).trans (hmem m).symm)]

/-- Three followers of different ids, two of which hold each key. -/
theorem walk_placement_trio :
    (∃ followers : List Member, followers.Pairwise (·.id < ·.id) ∧ followers.length = 3 ∧
      (∀ m, m ∈ followers ↔ Registered firstByte blankLeader 3 2 trioRegisters m) ∧
      ∀ key, (trioLeader 2).placement firstByte key
          = (fromHash (firstByte key) followers).take 2 ∧
        ((trioLeader 2).placement firstByte key).length = 2 ∧
        ((trioLeader 2).placement firstByte key).Nodup) ∧
    ∀ mem' reqs' l', Filled firstByte mem' 3 2 reqs' l' →
      (∀ m, Registered firstByte mem' 3 2 reqs' m ↔
        Registered firstByte blankLeader 3 2 trioRegisters m) →
      ∀ key, l'.placement firstByte key = (trioLeader 2).placement firstByte key := by
  refine walk_placement ⟨by decide, trioLeader_registered 2, by decide +kernel, ?_⟩ (by decide)
  have hacc : accepted firstByte (tpcleaderInit blankLeader 3 2) trioRegisters = trioRegisters := rfl
  have hdistinct : ∀ r₁ ∈ trioRegisters, ∀ r₂ ∈ trioRegisters, ∀ m₁ ∈ memberOf firstByte r₁,
      ∀ m₂ ∈ memberOf firstByte r₂, m₁.id = m₂.id → m₁ = m₂ := by decide +kernel
  rw [hacc]
  exact fun r₁ hr₁ r₂ hr₂ m₁ m₂ hm₁ hm₂ => hdistinct r₁ hr₁ r₂ hr₂ m₁ hm₁ m₂ hm₂

end Placement

end Cs162
