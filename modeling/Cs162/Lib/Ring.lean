import Mathlib.Data.List.Cycle
import Mathlib.Data.List.Iterate

/-!
# Circular doubly linked lists

The nodes of a ring point at each other through `next` and `prev`. `Circular next prev c` says the
nodes of the cycle `c` are linked up in its order. A cycle has no first node, so a ring that is
entered at one of its nodes may be listed from there (`Circular.rotate`).
-/

namespace CLib

variable {α : Type*} {next prev next' prev' : α → α}

/-- The nodes of a cycle are linked up in its order. -/
structure Circular (next prev : α → α) (c : Cycle α) : Prop where
  nodup : c.Nodup
  chain : c.Chain fun a b => next a = b ∧ prev b = a

theorem circular_singleton {a : α} (hn : next a = a) (hp : prev a = a) :
    Circular next prev ([a] : List α) where
  nodup := by simp
  chain := (Cycle.chain_singleton _ a).2 ⟨hn, hp⟩

theorem Circular.rotate {l l' : List α} (h : Circular next prev (l ++ l' : List α)) :
    Circular next prev (l' ++ l : List α) := by
  have : ((l ++ l' : List α) : Cycle α) = (l' ++ l : List α) :=
    Cycle.coe_eq_coe.2 List.isRotated_append
  rwa [← this]

/-- The links of a ring listed from the node `a`. -/
theorem circular_cons {a : α} {l : List α} : Circular next prev (a :: l : List α) ↔
    (a :: l).Nodup ∧ (a :: l).IsChain (fun x y => next x = y ∧ prev y = x) ∧
      next ((a :: l).getLast (by simp)) = a ∧ prev a = (a :: l).getLast (by simp) := by
  constructor
  · rintro ⟨hd, hc⟩
    rw [Cycle.chain_coe_cons, ← List.cons_append, List.isChain_append] at hc
    obtain ⟨hc, -, hlast⟩ := hc
    obtain ⟨hn, hp⟩ := hlast _ (List.getLast_mem_getLast? (by simp)) a rfl
    exact ⟨by simpa using hd, hc, hn, hp⟩
  · rintro ⟨hd, hc, hn, hp⟩
    refine ⟨by simpa using hd, ?_⟩
    rw [Cycle.chain_coe_cons, ← List.cons_append, List.isChain_append]
    refine ⟨hc, List.isChain_singleton a, ?_⟩
    rintro x hx y hy
    rw [List.getLast?_eq_getLast_of_ne_nil (by simp), Option.mem_def, Option.some.injEq] at hx
    simp only [List.head?_cons, Option.mem_def, Option.some.injEq] at hy
    subst hx hy
    exact ⟨hn, hp⟩

/-- A ring depends on the links of its own nodes only. -/
theorem Circular.congr {l : List α} (h : Circular next prev l)
    (hn : ∀ a ∈ l, next' a = next a) (hp : ∀ a ∈ l, prev' a = prev a) : Circular next' prev' l := by
  rcases l with _ | ⟨a, l⟩
  · exact ⟨h.nodup, Cycle.Chain.nil _⟩
  obtain ⟨hd, hc, hlast⟩ := circular_cons.1 h
  refine circular_cons.2 ⟨hd, hc.imp_of_mem_imp fun x y hx hy hxy => ?_, ?_⟩
  · rwa [hn x hx, hp y hy]
  · rwa [hn _ (List.getLast_mem _), hp a List.mem_cons_self]

theorem Circular.next_of_append {a b : α} {l l' : List α}
    (h : Circular next prev (l ++ a :: b :: l' : List α)) : next a = b :=
  (List.isChain_cons_cons.1 (circular_cons.1 h.rotate).2.1).1.1

theorem Circular.next_last {a b : α} {l : List α} (h : Circular next prev (a :: l : List α))
    (hb : (a :: l).getLast (by simp) = b) : next b = a := hb ▸ (circular_cons.1 h).2.2.1

/-- A node with others in front of it is not the first one. -/
theorem ne_first {curr first : α} {done rest : List α} (hd : (done ++ curr :: rest).Nodup)
    (hfirst : (done ++ curr :: rest).head? = some first) (hne : done ≠ []) : curr ≠ first := by
  obtain ⟨a, done, rfl⟩ := List.exists_cons_of_ne_nil hne
  obtain rfl : a = first := Option.some.inj hfirst
  rw [List.cons_append, List.nodup_cons] at hd
  exact fun e => hd.1 (e ▸ List.mem_append_right _ List.mem_cons_self)

/-- A walk along `next` is back at the first node behind the last one, and not before. -/
theorem Circular.next_eq_first {curr first : α} {done : List α}
    (h : Circular next prev (done ++ [curr] : List α))
    (hfirst : (done ++ [curr]).head? = some first) : next curr = first := by
  rcases done with _ | ⟨a, done⟩
  · obtain rfl : curr = first := Option.some.inj hfirst
    exact h.next_last rfl
  · obtain rfl : a = first := Option.some.inj hfirst
    exact h.next_last (List.getLast_append_singleton (a :: done))

theorem Circular.next_ne_first {curr b first : α} {done rest : List α}
    (h : Circular next prev (done ++ curr :: b :: rest : List α))
    (hfirst : (done ++ curr :: b :: rest).head? = some first) : next curr = b ∧ b ≠ first := by
  have hd : (done ++ curr :: b :: rest).Nodup := h.nodup
  rw [List.append_cons] at hd hfirst
  exact ⟨h.next_of_append, ne_first hd hfirst (by simp)⟩

/-- Following `next` from a node lists the ring. -/
theorem Circular.iterate_next {a : α} {l : List α} (h : Circular next prev (a :: l : List α)) :
    ∀ (i : ℕ) (hi : i < (a :: l).length), next^[i] a = (a :: l)[i]
  | 0, _ => rfl
  | i + 1, hi => by
    have hc := (circular_cons.1 h).2.1
    rw [List.isChain_iff_getElem] at hc
    rw [Function.iterate_succ_apply', h.iterate_next i (Nat.lt_of_succ_lt hi)]
    exact (hc i hi).1

theorem Circular.iterate_take {a : α} {l : List α} (h : Circular next prev (a :: l : List α))
    {k : ℕ} (hk : k ≤ (a :: l).length) : List.iterate next a k = (a :: l).take k := by
  refine List.ext_getElem (by simpa using hk) fun i hi _ => ?_
  rw [List.length_iterate] at hi
  rw [List.getElem_iterate, List.getElem_take, h.iterate_next i (by omega)]

theorem Circular.iterate_length {a : α} {l : List α} (h : Circular next prev (a :: l : List α)) :
    next^[(a :: l).length] a = a := by
  rw [List.length_cons, Function.iterate_succ_apply', h.iterate_next l.length (by simp)]
  exact h.next_last (by rw [List.getLast_eq_getElem]; rfl)

/-- `prev` undoes `next`, and `next` undoes `prev`. -/
theorem Circular.inverse {a : α} {l : List α} (h : Circular next prev l) (ha : a ∈ l) :
    prev (next a) = a ∧ next (prev a) = a := by
  obtain ⟨pre, post, rfl⟩ := List.append_of_mem ha
  have h' := h.rotate
  rw [List.cons_append] at h'
  obtain ⟨-, hc, hn, hp⟩ := circular_cons.1 h'
  constructor
  · rcases hpp : post ++ pre with _ | ⟨b, rest⟩
    · simp only [hpp, List.getLast_singleton] at hn hp
      rw [hn, hp]
    · simp only [hpp, List.isChain_cons_cons] at hc
      rw [hc.1.1, hc.1.2]
  · rw [hp, hn]

theorem Circular.prev_mem {a : α} {l : List α} (h : Circular next prev (a :: l : List α)) :
    prev a ∈ a :: l := (circular_cons.1 h).2.2.2 ▸ List.getLast_mem _

theorem Circular.insert [DecidableEq α] {a n : α} {l : List α}
    (h : Circular next prev (a :: l : List α)) (hn : n ∉ a :: l)
    (hnext : next' = Function.update (Function.update next n a) (prev a) n)
    (hprev : prev' = Function.update (Function.update prev n (prev a)) a n) :
    Circular next' prev' (n :: a :: l : List α) := by
  obtain ⟨hd, hc, -, hp⟩ := circular_cons.1 h
  have hlast : (n :: a :: l).getLast (by simp) = prev a := by
    rw [List.getLast_cons (by simp), hp]
  have hmem : prev a ∈ a :: l := hp ▸ List.getLast_mem _
  have hne : n ≠ prev a := fun e => hn (e ▸ hmem)
  have hna : n ≠ a := fun e => hn (e ▸ List.mem_cons_self)
  rw [circular_cons]
  refine ⟨List.nodup_cons.2 ⟨hn, hd⟩, List.isChain_cons_cons.2 ⟨⟨?_, ?_⟩, ?_⟩, ?_, ?_⟩
  · rw [hnext, Function.update_of_ne hne, Function.update_self]
  · rw [hprev, Function.update_self]
  · rw [List.isChain_iff_getElem] at hc ⊢
    intro i hi
    obtain ⟨h1, h2⟩ := hc i hi
    have hi1 : (a :: l)[i] ≠ n := fun e => hn (e ▸ List.getElem_mem _)
    have hi2 : (a :: l)[i + 1] ≠ n := fun e => hn (e ▸ List.getElem_mem _)
    have hi3 : (a :: l)[i] ≠ prev a := by
      rw [hp, List.getLast_eq_getElem, Ne, hd.getElem_inj_iff]
      simp only [List.length_cons] at hi ⊢
      omega
    have hi4 : (a :: l)[i + 1] ≠ a := fun e => (List.nodup_cons.1 hd).1 (e ▸ List.getElem_mem _)
    rw [hnext, hprev, Function.update_of_ne hi3, Function.update_of_ne hi1,
      Function.update_of_ne hi4, Function.update_of_ne hi2]
    exact ⟨h1, h2⟩
  · rw [hlast, hnext, Function.update_self]
  · rw [hlast, hprev, Function.update_of_ne hna, Function.update_self]

end CLib
