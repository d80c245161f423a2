import Cs162.TpcLeader
import Cs162.Lib.Ring

/-!
# The leader's ring

Whatever is registered, the followers stand in one ring, sorted by id from the head on (`HasRing`).
So both loops over the ring end, and a leader at capacity has a primary for every key.
-/

namespace Cs162

open CLib

/-- What identifies a follower, wherever its node is. -/
structure Member where
  id : UInt64
  host : CStr
  port : UInt32
deriving DecidableEq

def TpcFollower.member (f : TpcFollower) : Member := ⟨f.id, f.host, f.port⟩

/-- The follower a registration request names. -/
def memberOf (strhash64 : CStr → UInt64) (req : KvRequest) : Option Member := do
  let host ← req.key
  let port ← req.val
  return ⟨strhash64 (followerAddress port host), host, .ofInt (atoi port)⟩

namespace TpcLeader

variable {l : TpcLeader} {node curr : ℕ}

/-! ## Linking a node in -/

@[simp] theorem setNext_next (n a : ℕ) : ((l.setNext node n).nodes a).next
    = Function.update (fun a => (l.nodes a).next) node n a := by
  simp only [setNext, Function.update_apply]
  split_ifs <;> rfl

@[simp] theorem setNext_prev (n a : ℕ) :
    ((l.setNext node n).nodes a).prev = (l.nodes a).prev := by
  simp only [setNext, Function.update_apply]
  split_ifs with h
  · rw [h]
  · rfl

@[simp] theorem setNext_member (n a : ℕ) :
    ((l.setNext node n).nodes a).member = (l.nodes a).member := by
  simp only [setNext, Function.update_apply]
  split_ifs with h
  · rw [h]
    rfl
  · rfl

@[simp] theorem setPrev_prev (n a : ℕ) : ((l.setPrev node n).nodes a).prev
    = Function.update (fun a => (l.nodes a).prev) node n a := by
  simp only [setPrev, Function.update_apply]
  split_ifs <;> rfl

@[simp] theorem setPrev_next (n a : ℕ) :
    ((l.setPrev node n).nodes a).next = (l.nodes a).next := by
  simp only [setPrev, Function.update_apply]
  split_ifs with h
  · rw [h]
  · rfl

@[simp] theorem setPrev_member (n a : ℕ) :
    ((l.setPrev node n).nodes a).member = (l.nodes a).member := by
  simp only [setPrev, Function.update_apply]
  split_ifs with h
  · rw [h]
    rfl
  · rfl

theorem linkBefore_next (h : curr ≠ node) :
    (fun a => ((l.linkBefore node curr).nodes a).next)
      = Function.update (Function.update (fun a => (l.nodes a).next) node curr)
          (l.nodes curr).prev node := by
  funext a
  simp [linkBefore, Function.update_apply, h.symm]

theorem linkBefore_prev :
    (fun a => ((l.linkBefore node curr).nodes a).prev)
      = Function.update (Function.update (fun a => (l.nodes a).prev) node (l.nodes curr).prev)
          curr node := by
  funext a
  simp [linkBefore, Function.update_apply]

@[simp] theorem linkBefore_member (a : ℕ) :
    ((l.linkBefore node curr).nodes a).member = (l.nodes a).member := by
  simp [linkBefore]

@[simp] theorem linkBefore_id (a : ℕ) :
    ((l.linkBefore node curr).nodes a).id = (l.nodes a).id :=
  congrArg Member.id (linkBefore_member a)

@[simp] theorem linkBefore_followersHead :
    (l.linkBefore node curr).followersHead = l.followersHead := rfl

@[simp] theorem linkBefore_followerCount :
    (l.linkBefore node curr).followerCount = l.followerCount := rfl

/-- The ring of a leader, listed from its head. -/
structure HasRing (l : TpcLeader) (ring : List ℕ) : Prop where
  head : l.followersHead = ring.head?
  count : l.followerCount.toNat = ring.length
  capacity : l.followerCount ≤ l.followerCapacity
  linked : Circular (fun a => (l.nodes a).next) (fun a => (l.nodes a).prev) ring
  sorted : ring.Pairwise fun a b => (l.nodes a).id < (l.nodes b).id
  allocated : ∀ a ∈ ring, a < l.allocated

theorem hasRing_init (mem : TpcLeader) (capacity redundancy : UInt32) :
    (tpcleaderInit mem capacity redundancy).HasRing [] where
  head := rfl
  count := rfl
  capacity := by simp [tpcleaderInit, UInt32.le_iff_toNat_le]
  linked := ⟨by simp, Cycle.Chain.nil _⟩
  sorted := .nil
  allocated := by simp

/-- A count below the capacity does not wrap. -/
theorem toNat_succ_of_lt {count capacity : UInt32} (h : count < capacity) :
    (count + 1).toNat = count.toNat + 1 ∧ count + 1 ≤ capacity := by
  rw [UInt32.lt_iff_toNat_lt] at h
  have hcap := capacity.toNat_lt
  have hsucc : (count + 1).toNat = count.toNat + 1 := by
    rw [UInt32.toNat_add]
    exact Nat.mod_eq_of_lt (by simp; omega)
  rw [UInt32.le_iff_toNat_le, hsucc]
  exact ⟨rfl, h⟩

/-- Linking a node in between those of smaller and those of larger id. -/
theorem HasRing.link {pre post : List ℕ} (h : l.HasRing (pre ++ post))
    (hroom : l.followerCount < l.followerCapacity) (hnew : node ∉ pre ++ post)
    (halloc : node < l.allocated) (hpre : ∀ a ∈ pre, (l.nodes a).id < (l.nodes node).id)
    (hpost : ∀ a ∈ post, (l.nodes node).id < (l.nodes a).id)
    (hcurr : (post ++ pre).head? = some curr) :
    HasRing { l.linkBefore node curr with
      followersHead := (pre ++ node :: post).head?
      followerCount := l.followerCount + 1 } (pre ++ node :: post) where
  head := rfl
  count := by
    have hcount := h.count
    simp only [(toNat_succ_of_lt hroom).1, List.length_append, List.length_cons] at hcount ⊢
    omega
  capacity := (toNat_succ_of_lt hroom).2
  linked := by
    obtain ⟨rest, hrest⟩ := List.head?_eq_some_iff.1 hcurr
    have hmem : curr ∈ pre ++ post := by
      have : curr ∈ post ++ pre := hrest ▸ List.mem_cons_self
      simp only [List.mem_append] at this ⊢
      exact this.symm
    have hcn : curr ≠ node := fun e => hnew (e ▸ hmem)
    have hl := h.linked.rotate
    rw [hrest] at hl
    have hins := hl.insert (n := node) (by
      rw [← hrest]
      simp only [List.mem_append] at hnew ⊢
      exact fun e => hnew e.symm) (linkBefore_next hcn) linkBefore_prev
    rw [← hrest, ← List.cons_append] at hins
    exact hins.rotate
  sorted := by
    have hs := h.sorted
    rw [List.pairwise_append] at hs
    show (pre ++ node :: post).Pairwise
      fun a b => ((l.linkBefore node curr).nodes a).id < ((l.linkBefore node curr).nodes b).id
    simp only [linkBefore_id]
    rw [List.pairwise_append, List.pairwise_cons]
    refine ⟨hs.1, ⟨hpost, hs.2.1⟩, fun a ha b hb => ?_⟩
    rcases List.mem_cons.1 hb with rfl | hb
    · exact hpre a ha
    · exact hs.2.2 a ha b hb
  allocated := by
    intro a ha
    simp only [List.mem_append, List.mem_cons] at ha
    rcases ha with ha | rfl | ha
    · exact h.allocated a (List.mem_append_left _ ha)
    · exact halloc
    · exact h.allocated a (List.mem_append_right _ ha)

/-- The ids rise from a node on. -/
theorem HasRing.lt_of_lt {done rest : List ℕ} (h : l.HasRing (done ++ curr :: rest)) {id : UInt64}
    (hid : id < (l.nodes curr).id) : ∀ a ∈ curr :: rest, id < (l.nodes a).id := by
  have hs := (List.pairwise_append.1 h.sorted).2.1
  rw [List.pairwise_cons] at hs
  exact List.forall_mem_cons.2 ⟨hid, fun a ha => UInt64.lt_trans hid (hs.1 a ha)⟩

/-! ## Registration -/

/-- What the loop of `tpcleader_register` finds: a follower of the new id, or the place the new node
is linked in at. -/
theorem HasRing.registerLoop_cases {ring : List ℕ} {first : ℕ} (h : l.HasRing ring)
    (hfirst : ring.head? = some first) (node : ℕ) : ∀ {done rest : List ℕ} {fuel curr : ℕ},
    ring = done ++ curr :: rest → rest.length < fuel →
    (∀ a ∈ done, (l.nodes a).id < (l.nodes node).id) →
    (∃ a ∈ ring, (l.nodes a).id = (l.nodes node).id ∧
      registerLoop l node first fuel curr = some l) ∨
    ∃ pre post c, ring = pre ++ post ∧ (∀ a ∈ pre, (l.nodes a).id < (l.nodes node).id) ∧
      (∀ a ∈ post, (l.nodes node).id < (l.nodes a).id) ∧ (post ++ pre).head? = some c ∧
      registerLoop l node first fuel curr = some { l.linkBefore node c with
        followersHead := (pre ++ node :: post).head?
        followerCount := l.followerCount + 1 }
  | done, rest, 0, curr, _, hfuel, _ => by omega
  | done, rest, fuel + 1, curr, hring, hfuel, hdone => by
    have hlink : Circular (fun a => (l.nodes a).next) _ (done ++ curr :: rest : List ℕ) :=
      hring ▸ h.linked
    have hhead : (done ++ curr :: rest).head? = some first := hring ▸ hfirst
    simp only [registerLoop]
    by_cases hlt : (l.nodes node).id < (l.nodes curr).id
    · refine .inr ⟨done, curr :: rest, curr, hring, hdone, (hring ▸ h).lt_of_lt hlt, rfl, ?_⟩
      rw [if_pos hlt, linkBefore_followersHead, linkBefore_followerCount, h.head, hfirst]
      rcases done with _ | ⟨a, done⟩
      · obtain rfl : curr = first := Option.some.inj hhead
        rw [if_pos rfl]
        rfl
      · obtain rfl : a = first := Option.some.inj hhead
        rw [if_neg (ne_first hlink.nodup hhead (List.cons_ne_nil _ _))]
        rfl
    rw [if_neg hlt]
    by_cases heq : (l.nodes curr).id = (l.nodes node).id
    · rw [if_pos heq]
      exact .inl ⟨curr, hring ▸ List.mem_append_right _ List.mem_cons_self, heq, rfl⟩
    have hgt := (UInt64.lt_or_lt_of_ne heq).resolve_right hlt
    rw [if_neg heq]
    have hdone' : ∀ a ∈ done ++ [curr], (l.nodes a).id < (l.nodes node).id :=
      List.forall_mem_append.2 ⟨hdone, List.forall_mem_singleton.2 hgt⟩
    rcases rest with _ | ⟨b, rest⟩
    · rw [if_pos (hlink.next_eq_first hhead)]
      refine .inr ⟨ring, [], first, by simp, by rwa [hring], by simp, by simpa using hfirst, ?_⟩
      obtain ⟨tail, rfl⟩ := List.head?_eq_some_iff.1 hfirst
      rw [linkBefore_followerCount, linkBefore_followersHead, h.head]
      rfl
    · obtain ⟨hnext, hne⟩ := hlink.next_ne_first hhead
      rw [hnext, if_neg hne]
      exact h.registerLoop_cases hfirst node (hring.trans (List.append_cons _ _ _))
        (by simpa using hfuel) hdone'

theorem HasRing.newFollower {ring : List ℕ} (h : l.HasRing ring) (id : UInt64) (host : CStr)
    (port : UInt32) : (l.newFollower id host port).HasRing ring := by
  have hold : ∀ a ∈ ring, (l.newFollower id host port).nodes a = l.nodes a := fun a ha =>
    Function.update_of_ne (h.allocated a ha).ne _ _
  exact {
    head := h.head
    count := h.count
    capacity := h.capacity
    linked := h.linked.congr (fun a ha => by rw [hold a ha]) (fun a ha => by rw [hold a ha])
    sorted := h.sorted.imp_of_mem fun ha hb hab => by rwa [hold _ ha, hold _ hb]
    allocated := fun a ha => (h.allocated a ha).trans (Nat.lt_succ_self _) }

theorem HasRing.first (h : l.HasRing []) (hroom : l.followerCount < l.followerCapacity)
    (halloc : node < l.allocated) (hnext : (l.nodes node).next = node)
    (hprev : (l.nodes node).prev = node) :
    HasRing { l with followersHead := some node, followerCount := l.followerCount + 1 } [node] where
  head := rfl
  count := by rw [(toNat_succ_of_lt hroom).1, h.count, List.length_nil, List.length_singleton]
  capacity := (toNat_succ_of_lt hroom).2
  linked := circular_singleton hnext hprev
  sorted := List.pairwise_singleton _ _
  allocated := by simpa using halloc

/-- The followers of a ring, and their ids. -/
def members (l : TpcLeader) (ring : List ℕ) : List Member := ring.map fun a => (l.nodes a).member

def ids (l : TpcLeader) (ring : List ℕ) : List UInt64 := (l.members ring).map (·.id)

theorem mem_ids {ring : List ℕ} {id : UInt64} :
    id ∈ l.ids ring ↔ ∃ a ∈ ring, (l.nodes a).id = id := by
  simp [ids, members, TpcFollower.member]

/-- A follower joins a ring, unless there is one of its id on it already. -/
def Joins (before after : List Member) (m : Member) : Prop :=
  m.id ∉ before.map (·.id) ∧ after.Perm (m :: before) ∨ m.id ∈ before.map (·.id) ∧ after = before

/-- The section under the lock has linked `node` into `ring`. -/
structure Inserted (l l' : TpcLeader) (ring ring' : List ℕ) (node : ℕ) : Prop where
  hasRing : l'.HasRing ring'
  redundancy : l'.redundancy = l.redundancy
  allocated : l'.allocated = l.allocated
  frame : ∀ a, a ∉ ring → a ≠ node → l'.nodes a = l.nodes a
  subset : ∀ a ∈ ring', a = node ∨ a ∈ ring
  perm : (l'.members ring').Perm ((l.nodes node).member :: l.members ring)

theorem setNext_frame {n a : ℕ} (h : a ≠ node) : (l.setNext node n).nodes a = l.nodes a :=
  Function.update_of_ne h _ _

theorem setPrev_frame {n a : ℕ} (h : a ≠ node) : (l.setPrev node n).nodes a = l.nodes a :=
  Function.update_of_ne h _ _

theorem linkBefore_frame {a : ℕ} (hne : curr ≠ node) (hnode : a ≠ node) (hcurr : a ≠ curr)
    (hprev : a ≠ (l.nodes curr).prev) : (l.linkBefore node curr).nodes a = l.nodes a := by
  have hlast : ((((l.setNext node curr).setPrev node ((l.setNext node curr).nodes curr).prev).setPrev
      curr node).nodes node).prev = (l.nodes curr).prev := by
    simp [Function.update_apply, hne.symm]
  simp only [linkBefore]
  rw [hlast, setNext_frame hprev, setPrev_frame hcurr, setPrev_frame hnode, setNext_frame hnode]

/-- A node whose id is on the ring is dropped; one of a new id is linked in and counted, whether or
not there is room. -/
theorem HasRing.registerLocked_cases {ring : List ℕ} (h : l.HasRing ring) (hnew : node ∉ ring)
    (halloc : node < l.allocated) (hnext : (l.nodes node).next = node)
    (hprev : (l.nodes node).prev = node) :
    (l.nodes node).id ∈ l.ids ring ∧ registerLocked l node = some l ∨
    (l.nodes node).id ∉ l.ids ring ∧ ∃ l', registerLocked l node = some l' ∧
      l'.followersHead ≠ none ∧ l'.followerCount = l.followerCount + 1 ∧
      l'.followerCapacity = l.followerCapacity ∧
      (l.followerCount < l.followerCapacity → ∃ ring', Inserted l l' ring ring' node) := by
  have hhead := h.head
  rcases ring with _ | ⟨first, tail⟩
  · refine .inr ⟨by simp [ids, members], { l with
      followersHead := some node
      followerCount := l.followerCount + 1 }, ?_, by simp, rfl, rfl, fun hroom =>
      ⟨[node], h.first hroom halloc hnext hprev, rfl, rfl, fun _ _ _ => rfl, by simp, .refl _⟩⟩
    simp only [Cs162.registerLocked, hhead, List.head?_nil]
  · have hlen : tail.length < l.followerCount.toNat := by
      rw [h.count]
      simp
    simp only [Cs162.registerLocked, hhead, List.head?_cons]
    rcases h.registerLoop_cases rfl node (List.nil_append _).symm hlen (by simp) with
      ⟨a, ha, hid, heq⟩ | ⟨pre, post, c, hring, hpre, hpost, hc, heq⟩
    · exact .inl ⟨mem_ids.2 ⟨a, ha, hid⟩, heq⟩
    · obtain ⟨rest, hrest⟩ := List.head?_eq_some_iff.1 hc
      have hlinked := h.linked
      rw [hring] at h hnew hlinked ⊢
      have hmem : ∀ a ∈ c :: rest, a ∈ pre ++ post := fun a ha => by
        rw [← hrest, List.mem_append] at ha
        exact List.mem_append.2 ha.symm
      have hrotated := hlinked.rotate
      rw [hrest] at hrotated
      refine .inr ⟨fun hid => ?_, _, heq, ?_, rfl, rfl, fun hroom =>
        ⟨_, h.link hroom hnew halloc hpre hpost hc, rfl, rfl, fun a ha hne => ?_, fun a ha => ?_, ?_⟩⟩
      · obtain ⟨a, ha, hid⟩ := mem_ids.1 hid
        rcases List.mem_append.1 ha with ha | ha
        · exact (UInt64.ne_of_lt (hpre a ha)) hid
        · exact (UInt64.ne_of_lt (hpost a ha)) hid.symm
      · cases pre <;> simp
      · refine linkBefore_frame ?_ hne ?_ ?_
        · rintro rfl
          exact hnew (hmem _ List.mem_cons_self)
        · rintro rfl
          exact ha (hmem _ List.mem_cons_self)
        · rintro rfl
          exact ha (hmem _ hrotated.prev_mem)
      · simp only [List.mem_append, List.mem_cons] at ha ⊢
        tauto
      · show ((pre ++ node :: post).map fun a => ((l.linkBefore node c).nodes a).member).Perm _
        simp only [linkBefore_member]
        exact List.perm_middle.map _

theorem HasRing.registerLocked {ring : List ℕ} (h : l.HasRing ring)
    (hroom : l.followerCount < l.followerCapacity) (node : ℕ) (hnew : node ∉ ring)
    (halloc : node < l.allocated) (hnext : (l.nodes node).next = node)
    (hprev : (l.nodes node).prev = node) :
    ∃ l' ring', registerLocked l node = some l' ∧ l'.HasRing ring' ∧
      l'.followerCapacity = l.followerCapacity ∧ l'.redundancy = l.redundancy ∧
      Joins (l.members ring) (l'.members ring') (l.nodes node).member := by
  rcases h.registerLocked_cases hnew halloc hnext hprev with
    ⟨hid, heq⟩ | ⟨hid, l', heq, -, -, hcap, hins⟩
  · exact ⟨l, ring, heq, h, rfl, rfl, .inr ⟨hid, rfl⟩⟩
  · obtain ⟨ring', hins⟩ := hins hroom
    exact ⟨l', ring', heq, hins.hasRing, hcap, hins.redundancy, .inl ⟨hid, hins.perm⟩⟩

section Register

variable {strhash64 : CStr → UInt64} {ring : List ℕ} {req : KvRequest}

variable (strhash64 req) in
/-- A leader that is not full takes a follower in, unless it has one of the same id. -/
theorem HasRing.register_room (h : l.HasRing ring) (hroom : l.followerCount ≠ l.followerCapacity)
    {host port : CStr} (hhost : req.key = some host) (hport : req.val = some port) :
    ∃ l' ring', tpcleaderRegister strhash64 l req = some (l', ⟨.success, none⟩) ∧
      l'.HasRing ring' ∧ l'.followerCapacity = l.followerCapacity ∧
      l'.redundancy = l.redundancy ∧
      Joins (l.members ring) (l'.members ring')
        ⟨strhash64 (followerAddress port host), host, .ofInt (atoi port)⟩ := by
  set n := l.newFollower (strhash64 (followerAddress port host)) host (.ofInt (atoi port))
  have hn : n.HasRing ring := h.newFollower _ _ _
  have hlt : n.followerCount < n.followerCapacity := by
    have := h.capacity
    rw [UInt32.le_iff_toNat_le] at this
    show l.followerCount < l.followerCapacity
    rw [UInt32.lt_iff_toNat_lt]
    exact lt_of_le_of_ne this fun e => hroom (UInt32.toNat_inj.1 e)
  have hmembers : n.members ring = l.members ring :=
    List.map_congr_left fun a ha => by
      rw [show n.nodes a = l.nodes a from Function.update_of_ne (h.allocated a ha).ne _ _]
  have hnode : n.nodes l.allocated
      = ⟨strhash64 (followerAddress port host), host, .ofInt (atoi port), l.allocated,
          l.allocated⟩ := Function.update_self ..
  obtain ⟨l', ring', hl', hr, hcap, hred, hjoins⟩ := hn.registerLocked hlt l.allocated
    (fun hmem => lt_irrefl _ (h.allocated _ hmem)) (Nat.lt_succ_self _)
    (by rw [hnode]) (by rw [hnode])
  rw [hnode, hmembers] at hjoins
  exact ⟨l', ring', by simp [tpcleaderRegister, hroom, hhost, hport, n, hl'], hr, hcap, hred,
    hjoins⟩

theorem HasRing.register {l' : TpcLeader} {res : KvResponse} (h : l.HasRing ring)
    (hreg : tpcleaderRegister strhash64 l req = some (l', res)) :
    ∃ ring', l'.HasRing ring' ∧ l'.followerCapacity = l.followerCapacity ∧
      l'.redundancy = l.redundancy := by
  by_cases hfull : l.followerCount = l.followerCapacity
  · simp only [tpcleaderRegister, if_pos hfull, Option.some.injEq, Prod.mk.injEq] at hreg
    exact ⟨ring, hreg.1 ▸ h, by rw [hreg.1], by rw [hreg.1]⟩
  · obtain ⟨host, hhost⟩ : ∃ host, req.key = some host := by
      rcases hk : req.key with _ | host
      · simp [tpcleaderRegister, hfull, hk] at hreg
      · exact ⟨host, rfl⟩
    obtain ⟨port, hport⟩ : ∃ port, req.val = some port := by
      rcases hv : req.val with _ | port
      · simp [tpcleaderRegister, hfull, hv] at hreg
      · exact ⟨port, rfl⟩
    obtain ⟨l₂, ring', hl₂, hr, hcap, hred, -⟩ :=
      h.register_room strhash64 req hfull hhost hport
    rw [hreg, Option.some.injEq, Prod.mk.injEq] at hl₂
    exact ⟨ring', hl₂.1 ▸ hr, by rw [hl₂.1, hcap], by rw [hl₂.1, hred]⟩

/-- Whatever is registered, the followers stand in one ring. -/
theorem HasRing.registerAll : ∀ {reqs : List KvRequest} {l l' : TpcLeader} {ring : List ℕ},
    l.HasRing ring → registerAll strhash64 l reqs = some l' →
    ∃ ring', l'.HasRing ring' ∧ l'.followerCapacity = l.followerCapacity ∧
      l'.redundancy = l.redundancy
  | [], l, l', ring, h, hall => by
    rw [Cs162.registerAll, Option.some.injEq] at hall
    exact ⟨ring, hall ▸ h, by rw [hall], by rw [hall]⟩
  | req :: reqs, l, l', ring, h, hall => by
    simp only [Cs162.registerAll, Option.bind_eq_bind, Option.bind_eq_some_iff] at hall
    obtain ⟨⟨l₁, res⟩, hreg, hrest⟩ := hall
    obtain ⟨ring₁, h₁, hcap, hred⟩ := h.register hreg
    obtain ⟨ring', h', hcap', hred'⟩ := h₁.registerAll hrest
    exact ⟨ring', h', hcap'.trans hcap, hred'.trans hred⟩

/-- Followers of different ids are all taken in, up to the capacity. -/
theorem HasRing.registerAll_fresh (addr : ℕ → CStr × CStr) :
    ∀ {ns : List ℕ} {l : TpcLeader} {ring : List ℕ}, l.HasRing ring →
    ring.length + ns.length ≤ l.followerCapacity.toNat →
    (ns.map (fun n => strhash64 (followerAddress (addr n).2 (addr n).1)) ++ l.ids ring).Nodup →
    ∃ l', Cs162.registerAll strhash64 l
        (ns.map fun n => ⟨.register, some (addr n).1, some (addr n).2⟩) = some l' ∧
      l'.followerCount.toNat = ring.length + ns.length
  | [], l, ring, h, _, _ => ⟨l, rfl, h.count⟩
  | n :: ns, l, ring, h, hcap, hnodup => by
    rw [List.length_cons] at hcap
    have hroom : l.followerCount ≠ l.followerCapacity := fun e => by
      have := h.count
      rw [e] at this
      omega
    rw [List.map_cons, List.cons_append, List.nodup_cons, List.mem_append, not_or] at hnodup
    obtain ⟨l₁, ring₁, hreg, h₁, hcap₁, -, hjoins⟩ := h.register_room strhash64
      ⟨.register, some (addr n).1, some (addr n).2⟩ hroom rfl rfl
    have hperm : (l₁.ids ring₁).Perm (_ :: l.ids ring) :=
      ((hjoins.resolve_right fun hj => hnodup.1.2 hj.1).2).map _
    have hlen : ring₁.length = ring.length + 1 := by
      simpa [ids, members] using hperm.length_eq
    have hnodup₁ : (ns.map (fun n => strhash64 (followerAddress (addr n).2 (addr n).1))
        ++ l₁.ids ring₁).Nodup := by
      rw [((List.Perm.append_left _ hperm).trans List.perm_middle).nodup_iff, List.nodup_cons,
        List.mem_append, not_or]
      exact hnodup
    obtain ⟨l', hall, hcount⟩ := h₁.registerAll_fresh addr (by rw [hcap₁]; omega) hnodup₁
    refine ⟨l', by simp only [List.map_cons, Cs162.registerAll, hreg, hall, Option.bind_eq_bind,
      Option.bind_some], ?_⟩
    rw [hcount, hlen, List.length_cons]
    omega

end Register

/-! ## The primary -/

/-- The loop of `tpcleader_get_primary` finds the first node beyond the hash, and else the head. -/
theorem HasRing.getPrimaryLoop {ring : List ℕ} {first : ℕ} (h : l.HasRing ring)
    (hfirst : ring.head? = some first) (hash : UInt64) : ∀ {done rest : List ℕ} {fuel curr : ℕ},
    ring = done ++ curr :: rest → rest.length < fuel →
    (∀ a ∈ done, ¬ hash < (l.nodes a).id) →
    ∃ pre post p, ring = pre ++ post ∧ (∀ a ∈ pre, ¬ hash < (l.nodes a).id) ∧
      (∀ a ∈ post, hash < (l.nodes a).id) ∧ (post ++ pre).head? = some p ∧
      getPrimaryLoop l hash first fuel curr = some p
  | done, rest, 0, curr, _, hfuel, _ => by omega
  | done, rest, fuel + 1, curr, hring, hfuel, hdone => by
    have hlink : Circular (fun a => (l.nodes a).next) _ (done ++ curr :: rest : List ℕ) :=
      hring ▸ h.linked
    have hhead : (done ++ curr :: rest).head? = some first := hring ▸ hfirst
    simp only [Cs162.getPrimaryLoop]
    by_cases hgt : hash < (l.nodes curr).id
    · rw [if_pos hgt]
      exact ⟨done, curr :: rest, curr, hring, hdone, (hring ▸ h).lt_of_lt hgt, rfl, rfl⟩
    have hdone' : ∀ a ∈ done ++ [curr], ¬ hash < (l.nodes a).id :=
      List.forall_mem_append.2 ⟨hdone, List.forall_mem_singleton.2 hgt⟩
    rw [if_neg hgt]
    rcases rest with _ | ⟨b, rest⟩
    · rw [if_pos (hlink.next_eq_first hhead)]
      exact ⟨ring, [], first, by simp, by rwa [hring], by simp, by simpa using hfirst, rfl⟩
    · obtain ⟨hnext, hne⟩ := hlink.next_ne_first hhead
      rw [hnext, if_neg hne]
      exact h.getPrimaryLoop hfirst hash (hring.trans (List.append_cons _ _ _))
        (by simpa using hfuel) hdone'

/-- The primary of a key, at capacity: the first node beyond the key's hash, and else the head. -/
theorem HasRing.primary {ring : List ℕ} (h : l.HasRing ring) (hne : ring ≠ [])
    (hcap : l.followerCount = l.followerCapacity) (strhash64 : CStr → UInt64) (key : CStr) :
    ∃ pre post p, ring = pre ++ post ∧ (∀ a ∈ pre, ¬ strhash64 key < (l.nodes a).id) ∧
      (∀ a ∈ post, strhash64 key < (l.nodes a).id) ∧ (post ++ pre).head? = some p ∧
      tpcleaderGetPrimary strhash64 l key = some (some p) := by
  obtain ⟨first, tail, rfl⟩ := List.exists_cons_of_ne_nil hne
  have hlen : tail.length < l.followerCount.toNat := by
    rw [h.count]
    simp
  obtain ⟨pre, post, p, hring, hpre, hpost, hp, hloop⟩ :=
    h.getPrimaryLoop rfl (strhash64 key) (List.nil_append _).symm hlen (by simp)
  refine ⟨pre, post, p, hring, hpre, hpost, hp, ?_⟩
  unfold tpcleaderGetPrimary
  rw [if_neg (by rw [hcap]; exact UInt32.lt_irrefl _), h.head]
  simp [hloop]

/-- A leader at capacity, with at least one follower, has a primary for every key. -/
theorem HasRing.getPrimary {ring : List ℕ} (h : l.HasRing ring) (hne : ring ≠ [])
    (hcap : l.followerCount = l.followerCapacity) (strhash64 : CStr → UInt64) (key : CStr) :
    ∃ p, tpcleaderGetPrimary strhash64 l key = some (some p) := by
  obtain ⟨-, -, p, -, -, -, -, hp⟩ := h.primary hne hcap strhash64 key
  exact ⟨p, hp⟩

end TpcLeader

end Cs162
