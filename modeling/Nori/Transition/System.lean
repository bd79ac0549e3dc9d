import Mathlib.Data.Set.Insert

/-!
# Transition systems

A transition system has initial states and labelled steps. A run is a finite sequence of steps;
a state is reachable when a run leads to it from an initial state. A system can be restricted to
the steps that meet a condition on the state before the step and the label.

## Main results

* `System.Run.invariant`, `System.Reachable.invariant`: what every step keeps, every run keeps
* `System.Run.preorder`: a preorder that every step respects relates the ends of a run
* `System.Reachable.simulate`: a system whose steps are runs of another reaches what the other does
-/

namespace Transition

open Option Relation

/-- Initial states, and steps with labels. -/
structure System (σ ε : Type) where
  init : σ → Prop
  step : σ → ε → σ → Prop

namespace System

variable {σ ε : Type} {S : System σ ε} {s s' : σ}

/-- The system of a step function that refuses a label with `none`. -/
def ofStep (init : σ) (step : σ → ε → Option σ) : System σ ε where
  init s := s = init
  step s e s' := step s e = some s'

/-- The system whose steps all meet a condition. -/
def restrict (S : System σ ε) (C : σ → ε → Prop) : System σ ε where
  init := S.init
  step s e s' := C s e ∧ S.step s e s'

/-- Some labelled step. -/
def Step (S : System σ ε) (s s' : σ) : Prop := ∃ e, S.step s e s'

/-- Finitely many steps. -/
def Run (S : System σ ε) : σ → σ → Prop := ReflTransGen S.Step

/-- The end of a run from an initial state. -/
def Reachable (S : System σ ε) (s : σ) : Prop := ∃ s₀, S.init s₀ ∧ S.Run s₀ s

theorem Run.refl (s : σ) : S.Run s s := ReflTransGen.refl

theorem Run.tail {t : σ} {e : ε} (h : S.Run s t) (hstep : S.step t e s') : S.Run s s' :=
  ReflTransGen.tail h ⟨e, hstep⟩

theorem Run.head {t : σ} {e : ε} (hstep : S.step s e t) (h : S.Run t s') : S.Run s s' :=
  ReflTransGen.head ⟨e, hstep⟩ h

theorem Run.trans {t : σ} (h : S.Run s t) (h' : S.Run t s') : S.Run s s' :=
  ReflTransGen.trans h h'

theorem Reachable.start (h : S.init s) : S.Reachable s := ⟨s, h, Run.refl s⟩

theorem Reachable.run (h : S.Reachable s) (hrun : S.Run s s') : S.Reachable s' := by
  obtain ⟨s₀, hinit, h₀⟩ := h
  exact ⟨s₀, hinit, h₀.trans hrun⟩

theorem Reachable.step {e : ε} (h : S.Reachable s) (hstep : S.step s e s') : S.Reachable s' :=
  h.run (Run.tail (Run.refl s) hstep)

variable {C : σ → ε → Prop} {P : σ → Prop}

/-- A property that every step keeps is kept along a run. -/
theorem Run.invariant (hstep : ∀ s e s', S.step s e s' → P s → P s')
    (h : S.Run s s') (hs : P s) : P s' := by
  induction h with
  | refl => exact hs
  | tail _ hlast ih =>
    obtain ⟨e, he⟩ := hlast
    exact hstep _ e _ he ih

/-- A property of the initial states that every step keeps holds in every reachable state. -/
theorem Reachable.invariant (hinit : ∀ s, S.init s → P s)
    (hstep : ∀ s e s', S.step s e s' → P s → P s') (h : S.Reachable s) : P s := by
  obtain ⟨s₀, h₀, hrun⟩ := h
  exact hrun.invariant hstep (hinit s₀ h₀)

/-- Where an invariant holds, a reflexive and transitive relation that every step respects holds
between the ends of a run. -/
theorem Run.preorder {R : σ → σ → Prop} (hrefl : ∀ s, R s s)
    (htrans : ∀ s t u, R s t → R t u → R s u)
    (hstep : ∀ s e s', S.step s e s' → P s → P s' ∧ R s s')
    (h : S.Run s s') (hs : P s) : P s' ∧ R s s' := by
  induction h with
  | refl => exact ⟨hs, hrefl s⟩
  | tail _ hlast ih =>
    obtain ⟨e, he⟩ := hlast
    obtain ⟨hP, hR⟩ := hstep _ e _ he ih.1
    exact ⟨hP, htrans _ _ _ ih.2 hR⟩

/-- Where every step is matched by a run of another system, every reachable state is related to a
reachable state of the other. -/
theorem Reachable.simulate {τ δ : Type} {T : System τ δ} {R : σ → τ → Prop}
    (hinit : ∀ s, S.init s → ∃ t, T.init t ∧ R s t)
    (hstep : ∀ s e s' t, S.step s e s' → T.Reachable t → R s t → ∃ t', T.Run t t' ∧ R s' t')
    (h : S.Reachable s) : ∃ t, T.Reachable t ∧ R s t := by
  refine h.invariant (P := fun s => ∃ t, T.Reachable t ∧ R s t) ?_ ?_
  · intro s hs
    obtain ⟨t, ht, hR⟩ := hinit s hs
    exact ⟨t, .start ht, hR⟩
  · rintro s e s' he ⟨t, ht, hR⟩
    obtain ⟨t', hrun, hR'⟩ := hstep s e s' t he ht hR
    exact ⟨t', ht.run hrun, hR'⟩

theorem restrict_step {e : ε} (h : S.step s e s') (hC : C s e) :
    (S.restrict C).step s e s' := ⟨hC, h⟩

theorem Run.of_restrict (h : (S.restrict C).Run s s') : S.Run s s' :=
  ReflTransGen.mono (fun _ _ ⟨e, _, he⟩ => ⟨e, he⟩) _ _ h

theorem Reachable.of_restrict (h : (S.restrict C).Reachable s) : S.Reachable s := by
  obtain ⟨s₀, h₀, hrun⟩ := h
  exact ⟨s₀, h₀, hrun.of_restrict⟩

variable {es : List ε} {step : σ → ε → Option σ} {init : σ}

theorem run_of_labels (hstep : ∀ s e t, step s e = some t → S.step s e t)
    (h : es.foldlM step s = some s') : S.Run s s' := by
  induction es generalizing s with
  | nil =>
    cases h
    exact Run.refl _
  | cons e es ih =>
    rw [List.foldlM_cons] at h
    obtain ⟨t, ht, hrest⟩ := bind_eq_some_iff.mp h
    exact Run.head (hstep s e t ht) (ih hrest)

theorem run_of_foldlM (h : es.foldlM step s = some s') : (ofStep init step).Run s s' :=
  run_of_labels (fun _ _ _ ht => ht) h

/-- Every label of a list meets a condition at the state the labels before it lead to. -/
def Admits (C : σ → ε → Prop) (step : σ → ε → Option σ) : σ → List ε → Prop
  | _, [] => True
  | s, e :: es => C s e ∧ ∀ t ∈ step s e, Admits C step t es

theorem Admits.cons {t : σ} {e : ε}
    (hC : C s e) (hstep : step s e = some t) (h : Admits C step t es) :
    Admits C step s (e :: es) := by
  refine ⟨hC, fun t' ht' => ?_⟩
  rw [hstep, mem_some_iff] at ht'
  exact ht' ▸ h

theorem run_restrict_of_admits (hC : Admits C step s es) (h : es.foldlM step s = some s') :
    ((ofStep init step).restrict C).Run s s' := by
  induction es generalizing s with
  | nil =>
    cases h
    exact Run.refl _
  | cons e es ih =>
    rw [List.foldlM_cons] at h
    obtain ⟨t, ht, hrest⟩ := bind_eq_some_iff.mp h
    exact Run.head (e := e) ⟨hC.1, ht⟩ (ih (hC.2 t ht) hrest)

/-- A step function that also refuses labels that do not meet a condition. -/
def guardStep (C : σ → ε → Prop) [∀ s e, Decidable (C s e)] (step : σ → ε → Option σ) (s : σ)
    (e : ε) : Option σ := if C s e then step s e else none

/-- A list of labels that a step function accepts, each under a condition, is a run of the
restricted system. -/
theorem run_restrict_of_foldlM [∀ s e, Decidable (C s e)]
    (h : es.foldlM (guardStep C step) s = some s') :
    ((ofStep init step).restrict C).Run s s' :=
  run_of_labels (fun _ _ _ ht => ite_none_right_eq_some.mp ht) h

end System

/-- States that a system went through, where every step respects `R`: they lie below the last one,
and any two of them are comparable. -/
structure Trail {σ : Type} (R : σ → σ → Prop) (past : Set σ) (s : σ) : Prop where
  last : s ∈ past
  below : ∀ t ∈ past, R t s
  total : ∀ t ∈ past, ∀ u ∈ past, R t u ∨ R u t

namespace Trail

variable {σ : Type} {R : σ → σ → Prop} {past : Set σ} {s s' : σ}

theorem start (hrefl : ∀ s, R s s) (s : σ) : Trail R {s} s where
  last := rfl
  below := by
    rintro t rfl
    exact hrefl t
  total := by
    rintro t rfl u rfl
    exact .inl (hrefl _)

theorem extend (hrefl : ∀ s, R s s) (htrans : ∀ s t u, R s t → R t u → R s u)
    (h : Trail R past s) (hR : R s s') : Trail R (insert s' past) s' := by
  have hbelow : ∀ t ∈ insert s' past, R t s' := by
    rintro t (rfl | ht)
    · exact hrefl t
    · exact htrans t s s' (h.below t ht) hR
  refine ⟨Set.mem_insert s' past, hbelow, ?_⟩
  -- the new state lies above all others, and those were comparable before
  rintro t (rfl | ht) u (rfl | hu)
  · exact .inl (hrefl _)
  · exact .inr (hbelow u (Set.mem_insert_of_mem _ hu))
  · exact .inl (hbelow t (Set.mem_insert_of_mem _ ht))
  · exact h.total t ht u hu

end Trail

end Transition
