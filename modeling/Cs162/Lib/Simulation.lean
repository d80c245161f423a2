import Mathlib.Data.List.Basic
import Mathlib.Data.Option.Basic

/-!
# Simulations

Two step functions are related when every step of the first is matched by some steps of the second,
of the same labels, which end in related states or give none as well. Then a whole run of the first
is matched by a run of the second (`run_simulates`), and what holds of every run of the second can
be read back from it.

Where what a step has to be matched by is only decided later, the runs are related from their end
back: what is foreseen of the rest of a run says how the state before it is matched
(`run_foreseen`).

What every step keeps, every run keeps (`runOf_inv`), and what is done in an order that always leads
on is done at the end (`runOf_script`).
-/

namespace CLib

variable {S T A B L : Type*}

/-- The state after some actions, if every step on the way gives one. -/
def runOf (step : S → A → Option S) : S → List A → Option S
  | s, [] => some s
  | s, a :: as => (step s a).bind fun s' => runOf step s' as

variable {step : S → A → Option S} {step' : T → B → Option T}

theorem runOf_append : ∀ (as as' : List A) (s : S),
    runOf step s (as ++ as') = (runOf step s as).bind fun s' => runOf step s' as'
  | [], as', s => rfl
  | a :: as, as', s => by
    rw [List.cons_append, runOf, runOf]
    rcases step s a with _ | s'
    · rfl
    · exact runOf_append as as' s'

/-- What every step keeps, a run keeps. -/
theorem runOf_inv (Inv : S → Prop) (h : ∀ s a s', Inv s → step s a = some s' → Inv s') :
    ∀ (as : List A) {s s' : S}, Inv s → runOf step s as = some s' → Inv s'
  | [], s, s', hs, hrun => by
    cases hrun
    exact hs
  | a :: as, s, s', hs, hrun => by
    obtain ⟨t, hstep, hrun⟩ := Option.bind_eq_some_iff.1 hrun
    exact runOf_inv Inv h as (h s a t hs hstep) hrun

/-- Where no step goes back, and each action of a script leads on from where the one before it led,
any run in which they come in this order gets to the end of the script, whatever else is done. -/
theorem runOf_script (Reached : ℕ → S → Prop) {script : List A}
    (hkeep : ∀ k s a s', Reached k s → step s a = some s' → Reached k s')
    (hscript : ∀ k a, script[k]? = some a → ∀ s s', Reached k s → step s a = some s' →
      Reached (k + 1) s') :
    ∀ (as : List A) {k : ℕ} {s s' : S}, (script.drop k).Sublist as → Reached k s →
      runOf step s as = some s' → Reached (max k script.length) s'
  | [], k, s, s', hsub, hs, hrun => by
    cases hrun
    rwa [Nat.max_eq_left (List.drop_eq_nil_iff.1 (List.sublist_nil.1 hsub))]
  | a :: as, k, s, s', hsub, hs, hrun => by
    obtain ⟨t, hstep, hrun⟩ := Option.bind_eq_some_iff.1 hrun
    rcases List.sublist_cons_iff.1 hsub with hsub | ⟨rest, hdrop, hsub⟩
    · exact runOf_script Reached hkeep hscript as hsub (hkeep k s a t hs hstep) hrun
    · have hk : script[k]? = some a := by
        rw [← List.head?_drop, hdrop, List.head?_cons]
      have hrest : script.drop (k + 1) = rest := by
        rw [← List.tail_drop, hdrop, List.tail_cons]
      have hlt : k + 1 ≤ script.length := (List.getElem?_eq_some_iff.1 hk).1
      have hmax : max k script.length = max (k + 1) script.length := by omega
      rw [hmax]
      exact runOf_script Reached hkeep hscript as (hrest ▸ hsub) (hscript k a hk s t hs hstep) hrun

section Labels

variable {R : S → T → Prop} {P : A → Prop} {label : A → List L} {label' : B → List L}
  (h : ∀ s t a, R s t → P a → ∃ bs, bs.flatMap label' = label a ∧
    Option.Rel R (step s a) (runOf step' t bs))

include h

/-- Actions with the labels of others. -/
theorem exists_labels {s : S} {t : T} (hR : R s t) : ∀ (as : List A), (∀ a ∈ as, P a) →
    ∃ bs : List B, bs.flatMap label' = as.flatMap label
  | [], _ => ⟨[], rfl⟩
  | a :: as, hP => by
    obtain ⟨ha, has⟩ := List.forall_mem_cons.1 hP
    obtain ⟨bs, hlabel, -⟩ := h s t a hR ha
    obtain ⟨bs', hlabel'⟩ := exists_labels hR as has
    exact ⟨bs ++ bs', by rw [List.flatMap_append, List.flatMap_cons, hlabel, hlabel']⟩

/-- A run is matched by a run with the same labels. -/
theorem run_simulates : ∀ (as : List A) {s : S} {t : T}, (∀ a ∈ as, P a) → R s t → ∃ bs,
      bs.flatMap label' = as.flatMap label ∧ Option.Rel R (runOf step s as) (runOf step' t bs)
  | [], s, t, _, hR => ⟨[], rfl, .some hR⟩
  | a :: as, s, t, hP, hR => by
    obtain ⟨ha, has⟩ := List.forall_mem_cons.1 hP
    obtain ⟨bs, hlabel, hrel⟩ := h s t a hR ha
    rw [runOf]
    generalize step s a = next at hrel
    generalize hnext' : runOf step' t bs = next' at hrel
    rcases hrel with @⟨s', t', hR'⟩ | _
    · obtain ⟨bs', hlabel', hrel'⟩ := run_simulates as has hR'
      refine ⟨bs ++ bs', ?_, ?_⟩
      · rw [List.flatMap_append, List.flatMap_cons, hlabel, hlabel']
      · rw [runOf_append, hnext']
        exact hrel'
    · -- Neither run goes on, whatever else is to be done.
      obtain ⟨bs', hlabel'⟩ := exists_labels h hR as has
      refine ⟨bs ++ bs', ?_, ?_⟩
      · rw [List.flatMap_append, List.flatMap_cons, hlabel, hlabel']
      · rw [runOf_append, hnext']
        exact .none

end Labels

section Foreseen

variable {P : Type*} {label : A → List L} {label' : B → List L} {Inv : S → Prop}
  {F : S → P → Option T → Prop} {Q : S → T → Prop}

/-- `F s p t` relates `s` to `t` where `p` is foreseen of the rest of the run. A step may choose
what is foreseen before it, given what is foreseen after it. The state `t` may be gone already if
the first run is bound to stop. -/
theorem run_foreseen (hlabel : ∀ a, ∃ bs : List B, bs.flatMap label' = label a)
    (hinv : ∀ s a s', Inv s → step s a = some s' → Inv s')
    (hstep : ∀ s a s' p', Inv s → step s a = some s' → ∃ p bs, bs.flatMap label' = label a ∧
      ∀ t, F s p t → F s' p' (t.bind fun t => runOf step' t bs))
    (hstop : ∀ s a, Inv s → step s a = none → ∃ p bs, bs.flatMap label' = label a ∧
      ∀ t, F s p t → (t.bind fun t => runOf step' t bs) = none)
    (hend : ∀ s, Inv s → ∃ p, ∀ t, F s p t → ∃ t', t = some t' ∧ Q s t') :
    ∀ (as : List A) {s : S}, Inv s → ∃ p bs, bs.flatMap label' = as.flatMap label ∧
      ∀ t, F s p t → Option.Rel Q (runOf step s as) (t.bind fun t => runOf step' t bs)
  | [], s, hs => by
    obtain ⟨p, hp⟩ := hend s hs
    refine ⟨p, [], rfl, fun t ht => ?_⟩
    obtain ⟨t', rfl, hQ⟩ := hp t ht
    exact .some hQ
  | a :: as, s, hs => by
    rcases hnext : step s a with _ | s'
    · obtain ⟨p, bs, hbs, hnone⟩ := hstop s a hs hnext
      choose rest hrest using hlabel
      refine ⟨p, bs ++ as.flatMap rest, ?_, fun t ht => ?_⟩
      · rw [List.flatMap_append, List.flatMap_cons, hbs, List.flatMap_assoc]
        exact congrArg _ (List.flatMap_congr fun b _ => hrest b)
      · have hgone := hnone t ht
        simp only [runOf_append, runOf, hnext, Option.bind_none, ← Option.bind_assoc, hgone]
        exact .none
    · obtain ⟨p', bs', hbs', hrel⟩ :=
        run_foreseen hlabel hinv hstep hstop hend as (hinv s a s' hs hnext)
      obtain ⟨p, bs, hbs, hF⟩ := hstep s a s' p' hs hnext
      refine ⟨p, bs ++ bs', ?_, fun t ht => ?_⟩
      · rw [List.flatMap_append, List.flatMap_cons, hbs, hbs']
      · have hnext' := hrel _ (hF t ht)
        rw [Option.bind_assoc] at hnext'
        simpa only [runOf, hnext, Option.bind_some, runOf_append] using hnext'

end Foreseen

end CLib
