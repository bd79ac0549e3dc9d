import Nori.Transition.System

/-!
# Writing to backups before the primary

A primary handles requests at the same time, without any lock held across the steps of one. It
forwards a request to all backups, each of which applies it when it arrives, and applies it itself
once all of them have. Nothing orders the steps of different requests, so two writes may reach a
backup in one order and the primary in the other.
-/

namespace Transition.PrimaryBackup

open Option Function

/-- Stores that are observed key by key. A write sets what is observed under some keys and leaves
the others as they are. -/
structure Store (σ ω τ κ α : Type) where
  run : ω → τ → σ → σ
  obs : σ → κ → α
  effect : ω → κ → Option α
  obs_run : ∀ w t c k, obs (run w t c) k = (effect w k).getD (obs c k)

inductive Phase
  | pending
  | forwarded
  | acknowledged
deriving DecidableEq

/-- The stores, how far each request is, and which backups have applied it. -/
structure State (ρ ν σ : Type) where
  primary : σ
  backups : ν → σ
  phase : ρ → Phase
  applied : ρ → ν → Bool

inductive Label (ρ ν τ : Type)
  | forward (r : ρ)
  | apply (r : ρ) (v : ν) (t : τ)
  | commit (r : ρ) (t : τ)

variable {ρ ν σ ω τ κ α : Type} [DecidableEq ρ] [DecidableEq ν]

namespace State

/-- Nothing is in flight. -/
def Quiet (c : State ρ ν σ) : Prop := ∀ r, c.phase r ≠ .forwarded

def forward (r : ρ) (c : State ρ ν σ) : State ρ ν σ :=
  { c with phase := update c.phase r .forwarded }

def apply (S : Store σ ω τ κ α) (w : ω) (r : ρ) (v : ν) (t : τ) (c : State ρ ν σ) : State ρ ν σ :=
  { c with
    backups := update c.backups v (S.run w t (c.backups v))
    applied := update c.applied r (update (c.applied r) v true) }

def commit (S : Store σ ω τ κ α) (w : ω) (r : ρ) (t : τ) (c : State ρ ν σ) : State ρ ν σ :=
  { c with
    primary := S.run w t c.primary
    phase := update c.phase r .acknowledged }

end State

/-- The interleavings of the requests `writes`, from stores that agree. -/
def system (S : Store σ ω τ κ α) (writes : ρ → ω) : System (State ρ ν σ) (Label ρ ν τ) where
  init c := (∀ v k, S.obs (c.backups v) k = S.obs c.primary k) ∧ (∀ r, c.phase r = .pending) ∧
    ∀ r v, c.applied r v = false
  step c l c' :=
    match l with
    | .forward r => c.phase r = .pending ∧ c' = c.forward r
    | .apply r v t => c.phase r = .forwarded ∧ c.applied r v = false ∧
        c' = c.apply S (writes r) r v t
    | .commit r t => c.phase r = .forwarded ∧ (∀ v, c.applied r v = true) ∧
        c' = c.commit S (writes r) r t

section Steps

variable {S : Store σ ω τ κ α} {writes : ρ → ω} {c : State ρ ν σ} {r : ρ}

theorem step_forward (h : c.phase r = .pending) :
    (system S writes).step c (.forward r) (c.forward r) := ⟨h, rfl⟩

theorem step_apply {v : ν} (t : τ) (h : c.phase r = .forwarded) (hv : c.applied r v = false) :
    (system S writes).step c (.apply r v t) (c.apply S (writes r) r v t) := ⟨h, hv, rfl⟩

theorem step_commit (t : τ) (h : c.phase r = .forwarded) (hall : ∀ v, c.applied r v = true) :
    (system S writes).step c (.commit r t) (c.commit S (writes r) r t) := ⟨h, hall, rfl⟩

end Steps

/-- A request is forwarded only while every request in flight sets the keys they share to the
same. -/
def Compatible (S : Store σ ω τ κ α) (writes : ρ → ω) (c : State ρ ν σ) : Label ρ ν τ → Prop
  | .forward r => ∀ r', c.phase r' = .forwarded → ∀ k x y,
      S.effect (writes r) k = some x → S.effect (writes r') k = some y → x = y
  | _ => True

/-- The invariant. A backup that applied a request in flight observes what the request sets, and
differs from the primary only under keys of such a request. -/
structure Inv (S : Store σ ω τ κ α) (writes : ρ → ω) (c : State ρ ν σ) : Prop where
  compatible : ∀ r r', c.phase r = .forwarded → c.phase r' = .forwarded → ∀ k x y,
    S.effect (writes r) k = some x → S.effect (writes r') k = some y → x = y
  fresh : ∀ r v, c.phase r = .pending → c.applied r v = false
  set : ∀ r v k x, c.phase r = .forwarded → c.applied r v = true →
    S.effect (writes r) k = some x → S.obs (c.backups v) k = x
  agree : ∀ v k, S.obs (c.backups v) k = S.obs c.primary k ∨
    ∃ r, c.phase r = .forwarded ∧ c.applied r v = true ∧ (S.effect (writes r) k).isSome = true

namespace Inv

variable {S : Store σ ω τ κ α} {writes : ρ → ω} {c : State ρ ν σ}

theorem of_init (h : (system S writes).init c) : Inv S writes c := by
  obtain ⟨hobs, hpending, hfresh⟩ := h
  have hnot : ∀ r, c.phase r ≠ .forwarded := by
    intro r hr
    rw [hpending r] at hr
    cases hr
  exact ⟨fun r _ hr => absurd hr (hnot r), fun r v _ => hfresh r v,
    fun r _ _ _ hr => absurd hr (hnot r), fun v k => .inl (hobs v k)⟩

omit [DecidableEq ν] in
theorem forward {r : ρ} (hpending : c.phase r = .pending)
    (hcompatible : ∀ r', c.phase r' = .forwarded → ∀ k x y,
      S.effect (writes r) k = some x → S.effect (writes r') k = some y → x = y)
    (h : Inv S writes c) : Inv S writes (c.forward r) := by
  have hphase : ∀ r', (c.forward r).phase r' = .forwarded → r' = r ∨ c.phase r' = .forwarded := by
    intro r' hr'
    by_cases heq : r' = r
    · exact .inl heq
    · simp only [State.forward, update_of_ne heq] at hr'
      exact .inr hr'
  constructor
  · intro r₁ r₂ h₁ h₂ k x y hx hy
    -- only the request that starts now has to be compared with the others
    rcases hphase r₁ h₁ with rfl | hold₁ <;> rcases hphase r₂ h₂ with rfl | hold₂
    · exact some.inj (hx.symm.trans hy)
    · exact hcompatible r₂ hold₂ k x y hx hy
    · exact (hcompatible r₁ hold₁ k y x hy hx).symm
    · exact h.compatible r₁ r₂ hold₁ hold₂ k x y hx hy
  · intro r' v hr'
    by_cases heq : r' = r
    · subst heq
      simp [State.forward] at hr'
    · simp only [State.forward, update_of_ne heq] at hr'
      exact h.fresh r' v hr'
  · intro r' v k x hr' happlied hx
    rcases hphase r' hr' with rfl | hr'
    · -- nobody has applied the request yet
      have hfresh : c.applied r' v = true := happlied
      rw [h.fresh r' v hpending] at hfresh
      cases hfresh
    · exact h.set r' v k x hr' happlied hx
  · intro v k
    rcases h.agree v k with heq | ⟨r', hr', happlied, hsome⟩
    · exact .inl heq
    · have hne : r' ≠ r := by
        rintro rfl
        rw [hpending] at hr'
        cases hr'
      -- the witness was in flight before, and is not the request that starts now
      refine .inr ⟨r', ?_, happlied, hsome⟩
      simpa only [State.forward, update_of_ne hne] using hr'

theorem applied_apply {r r' : ρ} {v v' : ν} {t : τ} :
    (c.apply S (writes r) r v t).applied r' v' = true ↔
      (r' = r ∧ v' = v) ∨ c.applied r' v' = true := by
  by_cases hr : r' = r
  · subst hr
    by_cases hv : v' = v
    · subst hv
      simp [State.apply]
    · simp [State.apply, hv]
  · simp [State.apply, hr]

theorem apply {r : ρ} {v : ν} {t : τ} (hforwarded : c.phase r = .forwarded)
    (h : Inv S writes c) : Inv S writes (c.apply S (writes r) r v t) := by
  have hobs : ∀ v' k, S.obs ((c.apply S (writes r) r v t).backups v') k =
      if v' = v then (S.effect (writes r) k).getD (S.obs (c.backups v) k)
      else S.obs (c.backups v') k := by
    intro v' k
    by_cases hv : v' = v
    · subst hv
      simp [State.apply, S.obs_run]
    · simp [State.apply, hv]
  refine ⟨h.compatible, ?_, ?_, ?_⟩
  · intro r' v' hr'
    have hne : r' ≠ r := by
      rintro rfl
      have hpending : c.phase r' = .pending := hr'
      rw [hforwarded] at hpending
      cases hpending
    simpa [State.apply, update_of_ne hne] using h.fresh r' v' hr'
  · intro r' v' k x hr' happlied hx
    rw [hobs]
    split
    · rename_i hv
      subst hv
      cases hy : S.effect (writes r) k with
      -- both requests are in flight and set the key, so they set it to the same
      | some y => exact h.compatible r r' hforwarded hr' k y x hy hx
      | none =>
        rcases applied_apply.mp happlied with ⟨rfl, -⟩ | happlied
        · rw [hy] at hx
          cases hx
        · exact h.set r' v' k x hr' happlied hx
    · rename_i hv
      rcases applied_apply.mp happlied with ⟨-, hv'⟩ | happlied
      · exact absurd hv' hv
      · exact h.set r' v' k x hr' happlied hx
  · intro v' k
    by_cases htouched : v' = v ∧ (S.effect (writes r) k).isSome = true
    · exact .inr ⟨r, hforwarded, applied_apply.mpr (.inl ⟨rfl, htouched.1⟩), htouched.2⟩
    · -- the backup observes what it did before
      have hsame : S.obs ((c.apply S (writes r) r v t).backups v') k = S.obs (c.backups v') k := by
        rw [hobs]
        split
        · rename_i hv
          subst hv
          have hnone : S.effect (writes r) k = none := by simpa using htouched
          rw [hnone, getD_none]
        · rfl
      rw [hsame]
      rcases h.agree v' k with heq | ⟨r', hr', happlied, hsome⟩
      · exact .inl heq
      · exact .inr ⟨r', hr', applied_apply.mpr (.inr happlied), hsome⟩

omit [DecidableEq ν] in
theorem commit {r : ρ} {t : τ} (hforwarded : c.phase r = .forwarded)
    (hall : ∀ v, c.applied r v = true) (h : Inv S writes c) :
    Inv S writes (c.commit S (writes r) r t) := by
  have hphase : ∀ r', (c.commit S (writes r) r t).phase r' = .forwarded ↔
      r' ≠ r ∧ c.phase r' = .forwarded := by
    intro r'
    by_cases heq : r' = r
    · subst heq
      simp [State.commit]
    · simp [State.commit, heq]
  refine ⟨?_, ?_, ?_, ?_⟩
  · intro r₁ r₂ h₁ h₂
    exact h.compatible r₁ r₂ ((hphase r₁).mp h₁).2 ((hphase r₂).mp h₂).2
  · intro r' v hr'
    have hne : r' ≠ r := by
      rintro rfl
      simp [State.commit] at hr'
    exact h.fresh r' v (by simpa [State.commit, update_of_ne hne] using hr')
  · intro r' v k x hr'
    exact h.set r' v k x ((hphase r').mp hr').2
  · intro v k
    have hprimary : S.obs (c.commit S (writes r) r t).primary k =
        (S.effect (writes r) k).getD (S.obs c.primary k) := S.obs_run _ _ _ _
    cases hx : S.effect (writes r) k with
    | some x =>
      -- every backup has applied the request, so all observe what it sets
      refine .inl ?_
      rw [hprimary, hx]
      exact h.set r v k x hforwarded (hall v) hx
    | none =>
      rw [hprimary, hx, getD_none]
      rcases h.agree v k with heq | ⟨r', hr', happlied, hsome⟩
      · exact .inl heq
      · refine .inr ⟨r', (hphase r').mpr ⟨?_, hr'⟩, happlied, hsome⟩
        rintro rfl
        rw [hx] at hsome
        cases hsome

end Inv

variable {S : Store σ ω τ κ α} {writes : ρ → ω} {c : State ρ ν σ}

theorem inv_of_reachable
    (h : ((system S writes).restrict (Compatible S writes)).Reachable c) : Inv S writes c := by
  refine h.invariant ?_ ?_
  · intro c hc
    exact .of_init hc
  rintro c l c' ⟨hC, hstep⟩ hinv
  cases l with
  | forward r =>
    obtain ⟨hpending, rfl⟩ := hstep
    exact hinv.forward hpending hC
  | apply r v t =>
    obtain ⟨hforwarded, -, rfl⟩ := hstep
    exact hinv.apply hforwarded
  | commit r t =>
    obtain ⟨hforwarded, hall, rfl⟩ := hstep
    exact hinv.commit hforwarded hall

/-- Once nothing is in flight, every backup observes what the primary does. -/
theorem converged (h : ((system S writes).restrict (Compatible S writes)).Reachable c)
    (hquiet : c.Quiet) (v : ν) (k : κ) : S.obs (c.backups v) k = S.obs c.primary k := by
  rcases (inv_of_reachable h).agree v k with heq | ⟨r, hr, -, -⟩
  · exact heq
  · exact absurd hr (hquiet r)

end Transition.PrimaryBackup
