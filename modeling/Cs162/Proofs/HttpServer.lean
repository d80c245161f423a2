import Cs162.HttpServer
import Mathlib.Data.List.Basic
import Mathlib.Tactic.SplitIfs

/-!
# What the relay loop passes on

The loop does not look at how much `write` accepts, beyond asking whether it is anything. What it
does not accept is overwritten by the next `read`. So the streams stay in order just if each `write`
accepts all that was offered, unless it is the last one in its direction (`relay_inOrder_iff`).
-/

namespace Cs162

variable {stream : Side → ℕ → UInt8} {s : Relay} {t : Turn} {side : Side}

/-- What was written to a side is the start of what was read from the other. -/
def InOrder (s : Relay) : Prop := ∀ side : Side, s.written side.other <+: s.read side

/-- The turns, until the loop ends, in which something is written, each with the side it was read
from. -/
def transfers : List Turn → List (Side × Turn)
  | [] => []
  | t :: turns => match t.source with
    | none => transfers turns
    | some side =>
      if t.nread > 0 ∧ t.nwritten > 0 then (side, t) :: transfers turns else []

@[simp] theorem other_inj {a b : Side} : a.other = b.other ↔ a = b := by
  cases a <;> cases b <;> simp [Side.other]

/-! ## A round -/

@[simp] theorem length_chunk (stream : Side → ℕ → UInt8) (s : Relay) :
    (chunk stream s t side).length = t.nread.toNat := by simp [chunk]

theorem relayRound_stopped (h : s.running = false) : relayRound stream s t = s := by
  simp [relayRound, h]

theorem relayRun_stopped (h : s.running = false) : ∀ turns, relayRun stream s turns = s
  | [] => rfl
  | t :: turns => by
    rw [relayRun, List.foldl_cons, relayRound_stopped h]
    exact relayRun_stopped h turns

theorem relayRound_none (h : t.source = none) : relayRound stream s t = s := by
  simp [relayRound, h]

variable (stream) in
/-- A round that ends the loop writes nothing. -/
theorem relayRound_ends (hrun : s.running = true) (h : t.source = some side)
    (hends : ¬ (t.nread > 0 ∧ t.nwritten > 0)) :
    (relayRound stream s t).running = false ∧ (relayRound stream s t).written = s.written ∧
      ∀ x, s.read x <+: (relayRound stream s t).read x := by
  simp only [relayRound, hrun, if_true, h, relayFrom]
  split_ifs with hread hwritten
  · exact absurd ⟨hread, hwritten⟩ hends
  · refine ⟨rfl, rfl, fun x => ?_⟩
    rcases eq_or_ne x side with rfl | hx
    · simp
    · simp [hx]
  · exact ⟨rfl, rfl, fun _ => List.prefix_rfl⟩

variable (stream) in
/-- A round that writes something: the first bytes of what was read. -/
theorem relayRound_transfer (hrun : s.running = true) (h : t.source = some side)
    (hread : t.nread > 0) (hwritten : t.nwritten > 0) :
    (relayRound stream s t).running = true ∧
    (relayRound stream s t).read
      = Function.update s.read side (s.read side ++ chunk stream s t side) ∧
    (relayRound stream s t).written = Function.update s.written side.other
      (s.written side.other ++ (chunk stream s t side).take t.nwritten.toNat) := by
  have hle := t.nwritten_le hread
  simp only [relayRound, hrun, if_true, h, relayFrom, hread, hwritten]
  refine ⟨trivial, trivial, ?_⟩
  rw [List.take_append_of_le_length (by simp; omega)]

/-! ## Runs -/

/-- If two transfers are in one direction, the first was accepted as a whole. -/
def FullBefore (a b : Side × Turn) : Prop := a.1 = b.1 → a.2.nwritten = a.2.nread

theorem transfers_mono : ∀ {pre turns : List Turn}, pre <+: turns →
    transfers pre <+: transfers turns
  | [], _, _ => List.nil_prefix
  | t :: pre, [], h => absurd h (by simp)
  | t :: pre, t' :: turns, h => by
    obtain ⟨rfl, htail⟩ := List.cons_prefix_cons.1 h
    have ih := transfers_mono htail
    simp only [transfers]
    split
    · exact ih
    · split_ifs
      · exact List.cons_prefix_cons.2 ⟨rfl, ih⟩
      · exact List.prefix_rfl

/-- A direction that is behind must not go on. -/
theorem inOrder_relayRun : ∀ (turns : List Turn) (s : Relay), s.running = true → InOrder s →
    (∀ side : Side, s.written side.other = s.read side ∨ ∀ x ∈ transfers turns, x.1 ≠ side) →
    (transfers turns).Pairwise FullBefore → InOrder (relayRun stream s turns) := by
  intro turns
  induction turns with
  | nil => exact fun s _ hs _ _ => hs
  | cons t turns ih =>
    intro s hrun hs hbehind hfull
    rw [relayRun, List.foldl_cons, ← relayRun]
    rcases hsource : t.source with _ | side
    · rw [relayRound_none hsource]
      simp only [transfers, hsource] at hbehind hfull
      exact ih s hrun hs hbehind hfull
    · by_cases htransfer : t.nread > 0 ∧ t.nwritten > 0
      · obtain ⟨hread, hwritten⟩ := htransfer
        obtain ⟨hrun', hread', hwritten'⟩ :=
          relayRound_transfer stream hrun hsource hread hwritten
        simp only [transfers, hsource, hread, hwritten, and_self, if_true, List.mem_cons,
          List.pairwise_cons] at hbehind hfull
        have hcaught : s.written side.other = s.read side :=
          (hbehind side).resolve_right fun h => h _ (.inl rfl) rfl
        refine ih _ hrun' (fun x => ?_) (fun x => ?_) hfull.2
        · rw [hread', hwritten']
          rcases eq_or_ne x side with rfl | hx
          · rw [Function.update_self, Function.update_self, hcaught, List.prefix_append_right_inj]
            exact List.take_prefix _ _
          · rw [Function.update_of_ne hx, Function.update_of_ne (mt other_inj.1 hx)]
            exact hs x
        · rw [hread', hwritten']
          rcases eq_or_ne x side with rfl | hx
          · rw [Function.update_self, Function.update_self, hcaught]
            by_cases hall : t.nwritten = t.nread
            · exact .inl (by rw [hall, ← length_chunk stream s, List.take_length])
            · exact .inr fun y hy heq => hall (hfull.1 y hy heq.symm)
          · rw [Function.update_of_ne hx, Function.update_of_ne (mt other_inj.1 hx)]
            exact (hbehind x).imp_right fun h y hy => h y (.inr hy)
      · obtain ⟨hrun', hwritten', hread'⟩ :=
          relayRound_ends stream hrun hsource htransfer
        rw [relayRun_stopped hrun']
        intro x
        rw [hwritten']
        exact (hs x).trans (hread' x)

/-- States one for each pair of streams, which have read and written as many bytes. -/
structure Uniform (R W : Side → ℕ) (S : (Side → ℕ → UInt8) → Relay) : Prop where
  running : ∀ stream, (S stream).running = true
  read : ∀ stream side, (S stream).read side = (List.range (R side)).map (stream side)
  written : ∀ stream side, ((S stream).written side.other).length = W side
  le : ∀ side, W side ≤ R side

/-- Bytes that are all zero, but for one. -/
def oneAt (n : ℕ) : Side → ℕ → UInt8 := fun _ i => if i = n then 1 else 0

/-- A direction that is behind passes on the wrong byte if it goes on. -/
theorem Uniform.le_of_inOrder {R W : Side → ℕ} {S : (Side → ℕ → UInt8) → Relay}
    (hS : Uniform R W S) (hsource : t.source = some side) (hread : t.nread > 0)
    (hwritten : t.nwritten > 0)
    (horder : ∀ stream, InOrder (relayRound stream (S stream) t)) : R side ≤ W side := by
  by_contra hlt
  have hle := t.nwritten_le hread
  obtain ⟨-, hread', hwritten'⟩ := relayRound_transfer (oneAt (W side))
    (hS.running _) hsource hread hwritten
  have h := horder (oneAt (W side)) side
  rw [hread', hwritten', Function.update_self, Function.update_self] at h
  have hbyte := h.getElem (i := W side) (by
    rw [List.length_append, hS.written, List.length_take, length_chunk]
    omega)
  rw [List.getElem_append_right (Nat.le_of_eq (hS.written _ _)),
    List.getElem_append_left (by rw [hS.read]; simpa using hlt)] at hbyte
  simp [chunk, hS.read, hS.written, oneAt] at hbyte
  omega

/-- A transfer keeps the states alike. -/
theorem Uniform.transfer {R W : Side → ℕ} {S : (Side → ℕ → UInt8) → Relay}
    (hS : Uniform R W S) (hsource : t.source = some side) (hread : t.nread > 0)
    (hwritten : t.nwritten > 0) :
    Uniform (Function.update R side (R side + t.nread.toNat))
      (Function.update W side (W side + t.nwritten.toNat))
      fun stream => relayRound stream (S stream) t := by
  have hle := t.nwritten_le hread
  refine ⟨fun stream => ?_, fun stream x => ?_, fun stream x => ?_, fun x => ?_⟩
  · exact (relayRound_transfer stream (hS.running stream) hsource hread hwritten).1
  · rw [(relayRound_transfer stream (hS.running stream) hsource hread hwritten).2.1]
    rcases eq_or_ne x side with rfl | hx
    · rw [Function.update_self, Function.update_self, hS.read, List.range_add, List.map_append,
        List.map_map, chunk, hS.read]
      simp
    · rw [Function.update_of_ne hx, Function.update_of_ne hx, hS.read]
  · rw [(relayRound_transfer stream (hS.running stream) hsource hread hwritten).2.2]
    rcases eq_or_ne x side with rfl | hx
    · rw [Function.update_self, Function.update_self, List.length_append, hS.written,
        List.length_take, length_chunk]
      omega
    · rw [Function.update_of_ne hx, Function.update_of_ne (mt other_inj.1 hx), hS.written]
  · rcases eq_or_ne x side with rfl | hx
    · have := hS.le x
      rw [Function.update_self, Function.update_self]
      omega
    · rw [Function.update_of_ne hx, Function.update_of_ne hx]
      exact hS.le x

theorem pairwise_of_inOrder : ∀ (turns : List Turn) (R W : Side → ℕ)
    (S : (Side → ℕ → UInt8) → Relay), Uniform R W S →
    (∀ stream pre, pre <+: turns → InOrder (relayRun stream (S stream) pre)) →
    (transfers turns).Pairwise FullBefore ∧
      ∀ side, W side < R side → ∀ x ∈ transfers turns, x.1 ≠ side := by
  intro turns
  induction turns with
  | nil => exact fun _ _ _ _ _ => ⟨.nil, fun _ _ _ hx => absurd hx List.not_mem_nil⟩
  | cons t turns ih =>
    intro R W S hS horder
    have horder' : ∀ stream pre, pre <+: turns →
        InOrder (relayRun stream (relayRound stream (S stream) t) pre) := fun stream pre hpre =>
      horder stream (t :: pre) (List.cons_prefix_cons.2 ⟨rfl, hpre⟩)
    rcases hsource : t.source with _ | side
    · simp only [transfers, hsource]
      simp only [relayRound_none hsource] at horder'
      exact ih R W S hS horder'
    · by_cases htransfer : t.nread > 0 ∧ t.nwritten > 0
      · obtain ⟨hread, hwritten⟩ := htransfer
        have hle := t.nwritten_le hread
        have hcaught := hS.le_of_inOrder hsource hread hwritten fun stream =>
          horder stream [t] (List.cons_prefix_cons.2 ⟨rfl, List.nil_prefix⟩)
        obtain ⟨hfull, hbehind⟩ := ih _ _ _ (hS.transfer hsource hread hwritten) horder'
        simp only [transfers, hsource, hread, hwritten, and_self, if_true, List.pairwise_cons,
          List.mem_cons]
        refine ⟨⟨fun y hy heq => ?_, hfull⟩, fun x hx => ?_⟩
        · by_contra hshort
          simp only at heq hshort
          refine hbehind side ?_ y hy heq.symm
          rw [Function.update_self, Function.update_self]
          have := hS.le side
          omega
        · have hne : x ≠ side := fun h => absurd (h ▸ hx) (by omega)
          rintro y (rfl | hy)
          · exact hne.symm
          · refine hbehind x ?_ y hy
            rwa [Function.update_of_ne hne, Function.update_of_ne hne]
      · simp only [transfers, hsource, if_neg htransfer]
        exact ⟨.nil, fun _ _ _ hx => absurd hx List.not_mem_nil⟩

/-- Whatever the peers send, the streams stay in order in every state reached, just if each write
but the last in its direction accepts all that was read. -/
theorem relay_inOrder_iff (bufferr : List UInt8) (turns : List Turn) :
    (∀ stream pre, pre <+: turns → InOrder (relayRun stream (relayStart bufferr) pre)) ↔
      (transfers turns).Pairwise FullBefore := by
  constructor
  · intro h
    refine (pairwise_of_inOrder turns (fun _ => 0) (fun _ => 0) (fun _ => relayStart bufferr)
      ⟨fun _ => rfl, fun _ _ => rfl, fun _ _ => rfl, fun _ => Nat.le_refl _⟩ h).1
  · intro h stream pre hpre
    refine inOrder_relayRun pre _ rfl (fun _ => List.prefix_rfl) (fun _ => .inl rfl) (h.sublist ?_)
    exact (transfers_mono hpre).sublist

/-- Two bytes are read from the target and one is accepted; then both bytes of the next two. -/
def shortWrite : List Turn :=
  [⟨1, fun side => side = .target, 2, 1, by decide, by decide, by decide, by decide⟩,
    ⟨1, fun side => side = .target, 2, 2, by decide, by decide, by decide, by decide⟩]

theorem shortWrite_not_inOrder : ¬ InOrder (relayRun (fun _ i => UInt8.ofNat i)
    (relayStart (List.replicate bufferrSize 0)) shortWrite) := fun h =>
  absurd (h .target) (by decide +kernel)

end Cs162
