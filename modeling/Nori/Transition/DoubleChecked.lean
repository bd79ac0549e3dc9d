import Nori.Transition.System
import Mathlib.Data.List.Basic

/-!
# Double-checked caching

A state changes on its own, and threads share a cached copy of it. A thread first looks whether the
cached copy is still current while others may look as well. If it is not, the thread takes the lock
alone, looks again, allocates a new object, makes it the cached one and fills it with a copy of the
state, which may have moved on in between. A thread keeps the object it got as long as it likes,
and may touch it while others read it.
-/

namespace Transition.DoubleChecked

open List Option Function

variable {τ σ ο κ ε : Type}

/-- Copies of a state: a new object, a copy, when an object is out of date, and what a holder may
do to it. -/
structure Cache (σ ο κ : Type) where
  blank : ο
  copy : σ → ο
  stale : ο → σ → Bool
  touch : κ → ο → ο

/-- Where a thread is. The state it saw is kept for reasoning only. -/
inductive Call (σ : Type)
  | idle
  | missed
  | returned (address : ℕ) (seen : σ)

/-- The state, the objects allocated so far, the address of the cached one, the thread that holds
the lock with the object it is about to fill, and the threads. -/
structure State (τ σ ο : Type) where
  store : σ
  heap : List ο
  cached : Option ℕ
  lock : Option (τ × ℕ)
  calls : τ → Call σ

namespace State

def initial (s : σ) : State τ σ ο := ⟨s, [], none, none, fun _ => .idle⟩

variable [DecidableEq τ]

def setCall (t : τ) (call : Call σ) (c : State τ σ ο) : State τ σ ο :=
  { c with calls := update c.calls t call }

/-- A thread returns with an object. -/
def answer (t : τ) (address : ℕ) (c : State τ σ ο) : State τ σ ο :=
  c.setCall t (.returned address c.store)

end State

namespace Cache

variable (K : Cache σ ο κ)

/-- The cached object, unless there is none or it is stale. -/
def current (c : State τ σ ο) : Option ℕ :=
  match c.cached with
  | none => none
  | some a =>
    match c.heap[a]? with
    | none => none
    | some o => if K.stale o c.store then none else some a

variable [DecidableEq τ]

/-- The first look, which is possible while nobody holds the lock alone. -/
def check (t : τ) (c : State τ σ ο) : Option (State τ σ ο) :=
  match c.calls t, c.lock with
  | .idle, none =>
    match K.current c with
    | some a => some (c.answer t a)
    | none => some (c.setCall t .missed)
  | _, _ => none

/-- The lock is taken and the thread looks again; a new object replaces a stale one. -/
def recheck (t : τ) (c : State τ σ ο) : Option (State τ σ ο) :=
  match c.calls t, c.lock with
  | .missed, none =>
    match K.current c with
    | some a => some (c.answer t a)
    | none => some { c with
        -- shared at once, although it is filled in a later step under the same lock
        heap := c.heap ++ [K.blank]
        cached := some c.heap.length
        lock := some (t, c.heap.length) }
  | _, _ => none

/-- The new object is filled, and the lock released. -/
def fill (t : τ) (c : State τ σ ο) : Option (State τ σ ο) :=
  match c.lock with
  | some (owner, a) =>
    if owner = t then
      -- the copy is that of the state now, not of the state at the second look
      some (({ c with heap := c.heap.set a (K.copy c.store), lock := none } :
        State τ σ ο).answer t a)
    else none
  | none => none

/-- A thread touches the object it holds. -/
def touchHeld (t : τ) (k : κ) (c : State τ σ ο) : Option (State τ σ ο) :=
  match c.calls t with
  | .returned a _ => some { c with heap := c.heap.modify a (K.touch k) }
  | _ => none

/-- A thread lets its object go. -/
def leave (t : τ) (c : State τ σ ο) : Option (State τ σ ο) :=
  match c.calls t with
  | .returned _ _ => some (c.setCall t .idle)
  | _ => none

end Cache

inductive Label (τ ε κ : Type)
  | store (e : ε)
  | check (t : τ)
  | recheck (t : τ)
  | fill (t : τ)
  | touch (t : τ) (k : κ)
  | leave (t : τ)

/-- The interleavings of the state's own steps with the threads'. -/
def system [DecidableEq τ] (S : System σ ε) (K : Cache σ ο κ) :
    System (State τ σ ο) (Label τ ε κ) where
  init c := ∃ s, S.init s ∧ c = .initial s
  step c l c' :=
    match l with
    | .store e => ∃ s', S.step c.store e s' ∧ c' = { c with store := s' }
    | .check t => K.check t c = some c'
    | .recheck t => K.recheck t c = some c'
    | .fill t => K.fill t c = some c'
    | .touch t k => K.touchHeld t k c = some c'
    | .leave t => Cache.leave t c = some c'

section Steps

variable [DecidableEq τ] {S : System σ ε} {K : Cache σ ο κ} {c c' : State τ σ ο} {t : τ}

theorem step_check (h : K.check t c = some c') : (system S K).Step c c' := ⟨.check t, h⟩

theorem step_recheck (h : K.recheck t c = some c') : (system S K).Step c c' := ⟨.recheck t, h⟩

theorem step_fill (h : K.fill t c = some c') : (system S K).Step c c' := ⟨.fill t, h⟩

end Steps

/-- `Agrees o s`: an object is as good as the state `s`. `Follows g s`: the state went from `g` to
`s`. A copy that is not stale for a later state must agree with that state too. -/
structure Coherent (S : System σ ε) (K : Cache σ ο κ) (Agrees : ο → σ → Prop)
    (Follows : σ → σ → Prop) : Prop where
  agrees_copy : ∀ s, Agrees (K.copy s) s
  agrees_touch : ∀ k o s, Agrees o s → Agrees (K.touch k o) s
  stale_touch : ∀ k o s, K.stale (K.touch k o) s = K.stale o s
  follows_refl : ∀ s, Follows s s
  follows_step : ∀ g s e s', Follows g s → S.step s e s' → Follows g s'
  agrees_of_fresh : ∀ g s o, Follows g s → K.stale (K.copy g) s = false → Agrees o g → Agrees o s

/-- The object was copied from `g` and only touched since. -/
structure CopyOf (K : Cache σ ο κ) (Agrees : ο → σ → Prop) (o : ο) (g : σ) : Prop where
  agrees : Agrees o g
  stale_eq : ∀ s, K.stale o s = K.stale (K.copy g) s

/-- The invariant of the protocol. An object is filled before anyone but its owner can get it. -/
structure Inv (K : Cache σ ο κ) (Agrees : ο → σ → Prop) (Follows : σ → σ → Prop)
    (c : State τ σ ο) : Prop where
  cached : c.lock = none → ∀ a, c.cached = some a →
    ∃ g o, c.heap[a]? = some o ∧ CopyOf K Agrees o g ∧ Follows g c.store
  filling : ∀ t a, c.lock = some (t, a) → c.cached = some a ∧ a < c.heap.length ∧
    ∀ t' b seen, c.calls t' = .returned b seen → b ≠ a
  held : ∀ t a seen, c.calls t = .returned a seen → ∃ o, c.heap[a]? = some o ∧ Agrees o seen

section Proofs

variable {S : System σ ε} {K : Cache σ ο κ} {Agrees : ο → σ → Prop} {Follows : σ → σ → Prop}
variable {c c' : State τ σ ο}

theorem CopyOf.touch (hK : Coherent S K Agrees Follows) (k : κ) {o : ο} {g : σ}
    (h : CopyOf K Agrees o g) : CopyOf K Agrees (K.touch k o) g where
  agrees := hK.agrees_touch k o g h.agrees
  stale_eq s := by rw [hK.stale_touch, h.stale_eq]

theorem Cache.current_eq_some {a : ℕ} (h : K.current c = some a) :
    c.cached = some a ∧ ∃ o, c.heap[a]? = some o ∧ K.stale o c.store = false := by
  unfold Cache.current at h
  split at h
  · cases h
  · rename_i b hcached
    split at h
    · cases h
    · rename_i o ho
      split at h
      · cases h
      · rename_i hfresh
        cases h
        exact ⟨hcached, o, ho, by simpa using hfresh⟩

namespace Inv

theorem initial (s : σ) : Inv K Agrees Follows (State.initial s : State τ σ ο) where
  cached := by rintro - a ⟨⟩
  filling := by rintro t a ⟨⟩
  held := by rintro t a seen ⟨⟩

theorem agrees_current (hK : Coherent S K Agrees Follows) (h : Inv K Agrees Follows c)
    (hlock : c.lock = none) {a : ℕ} (ha : K.current c = some a) :
    ∃ o, c.heap[a]? = some o ∧ Agrees o c.store := by
  obtain ⟨hcached, o, ho, hfresh⟩ := Cache.current_eq_some ha
  obtain ⟨g, o', ho', hcopy, hfollows⟩ := h.cached hlock a hcached
  -- the object that passed the check is the cached copy, touched perhaps
  obtain rfl : o = o' := some.inj (ho.symm.trans ho')
  refine ⟨o, ho, hK.agrees_of_fresh g c.store o hfollows ?_ hcopy.agrees⟩
  rw [← hcopy.stale_eq, hfresh]

theorem store (hK : Coherent S K Agrees Follows) (h : Inv K Agrees Follows c) {e : ε} {s' : σ}
    (hstep : S.step c.store e s') : Inv K Agrees Follows { c with store := s' } := { h with
  cached hlock a ha := by
    obtain ⟨g, o, ho, hcopy, hfollows⟩ := h.cached hlock a ha
    exact ⟨g, o, ho, hcopy, hK.follows_step g c.store e s' hfollows hstep⟩ }

theorem allocate (h : Inv K Agrees Follows c) (t : τ) : Inv K Agrees Follows { c with
      heap := c.heap ++ [K.blank]
      cached := some c.heap.length
      lock := some (t, c.heap.length) } where
  cached := by rintro ⟨⟩
  filling := by
    rintro t' a ⟨⟩
    refine ⟨rfl, by simp, fun t'' b seen hcall => ?_⟩
    -- every object that is held was allocated before
    obtain ⟨o, ho, -⟩ := h.held t'' b seen hcall
    have hlt := (List.getElem?_eq_some_iff.mp ho).1
    omega
  held t' b seen hcall := by
    obtain ⟨o, ho, hagrees⟩ := h.held t' b seen hcall
    have hlt := (List.getElem?_eq_some_iff.mp ho).1
    exact ⟨o, by rwa [getElem?_append_left hlt], hagrees⟩

theorem touchHeld (hK : Coherent S K Agrees Follows) (h : Inv K Agrees Follows c) {t : τ} {k : κ}
    (hstep : K.touchHeld t k c = some c') : Inv K Agrees Follows c' := by
  unfold Cache.touchHeld at hstep
  split at hstep
  · rename_i b seen hcall
    cases hstep
    -- an object after the touch is one before it, touched or not
    have hkept : ∀ (a : ℕ) (o : ο), c.heap[a]? = some o →
        ∃ o', (c.heap.modify b (K.touch k))[a]? = some o' ∧ (o' = o ∨ o' = K.touch k o) := by
      intro a o ho
      rw [getElem?_modify]
      by_cases hab : b = a
      · exact ⟨K.touch k o, by simp [hab, ho], .inr rfl⟩
      · exact ⟨o, by simp [hab, ho], .inl rfl⟩
    refine ⟨?_, ?_, ?_⟩
    · intro hlock a ha
      obtain ⟨g, o, ho, hcopy, hfollows⟩ := h.cached hlock a ha
      obtain ⟨o', ho', rfl | rfl⟩ := hkept a o ho
      · exact ⟨g, _, ho', hcopy, hfollows⟩
      · exact ⟨g, _, ho', hcopy.touch hK k, hfollows⟩
    · intro t' a ha
      obtain ⟨hcached, hlt, hne⟩ := h.filling t' a ha
      exact ⟨hcached, by rwa [length_modify], hne⟩
    · intro t' a seen' hcall'
      obtain ⟨o, ho, hagrees⟩ := h.held t' a seen' hcall'
      obtain ⟨o', ho', rfl | rfl⟩ := hkept a o ho
      · exact ⟨_, ho', hagrees⟩
      · exact ⟨_, ho', hK.agrees_touch k o seen' hagrees⟩
  · cases hstep

variable [DecidableEq τ]

theorem answer (h : Inv K Agrees Follows c) (hlock : c.lock = none) (t : τ) {a : ℕ}
    (ha : ∃ o, c.heap[a]? = some o ∧ Agrees o c.store) :
    Inv K Agrees Follows (c.answer t a) := { h with
  filling t' b hb := by
    exact absurd (hlock.symm.trans hb) (by simp)
  held t' b seen hcall := by
    by_cases ht : t' = t
    · subst ht
      simp only [State.answer, State.setCall, update_self, Call.returned.injEq] at hcall
      obtain ⟨rfl, rfl⟩ := hcall
      exact ha
    · simp only [State.answer, State.setCall, update_of_ne ht] at hcall
      exact h.held t' b seen hcall }

/-- A thread that returns nothing changes nothing the invariant is about. -/
theorem setCall (h : Inv K Agrees Follows c) (t : τ) {call : Call σ}
    (hcall : ∀ a seen, call ≠ .returned a seen) : Inv K Agrees Follows (c.setCall t call) := by
  have hkept : ∀ t' b seen, (c.setCall t call).calls t' = .returned b seen →
      c.calls t' = .returned b seen := by
    intro t' b seen h'
    by_cases ht : t' = t
    · subst ht
      simp only [State.setCall, update_self] at h'
      exact absurd h' (hcall b seen)
    · simpa only [State.setCall, update_of_ne ht] using h'
  refine ⟨h.cached, ?_, ?_⟩
  · intro t' a ha
    obtain ⟨hcached, hlt, hne⟩ := h.filling t' a ha
    exact ⟨hcached, hlt, fun t'' b seen h' => hne t'' b seen (hkept t'' b seen h')⟩
  · intro t' a seen h'
    exact h.held t' a seen (hkept t' a seen h')

section

variable (hK : Coherent S K Agrees Follows) (h : Inv K Agrees Follows c) {t : τ}
include hK h

theorem check (hstep : K.check t c = some c') : Inv K Agrees Follows c' := by
  unfold Cache.check at hstep
  split at hstep
  · rename_i hlock
    split at hstep
    · rename_i a ha
      cases hstep
      exact h.answer hlock t (h.agrees_current hK hlock ha)
    · cases hstep
      exact h.setCall t (by rintro a seen ⟨⟩)
  · cases hstep

theorem recheck (hstep : K.recheck t c = some c') : Inv K Agrees Follows c' := by
  unfold Cache.recheck at hstep
  split at hstep
  · rename_i hlock
    split at hstep
    · rename_i a ha
      cases hstep
      exact h.answer hlock t (h.agrees_current hK hlock ha)
    · cases hstep
      exact h.allocate t
  · cases hstep

theorem fill (hstep : K.fill t c = some c') : Inv K Agrees Follows c' := by
  unfold Cache.fill at hstep
  split at hstep
  · rename_i owner a hlock
    obtain ⟨hcached, hlt, hne⟩ := h.filling owner a hlock
    have hfilled : (c.heap.set a (K.copy c.store))[a]? = some (K.copy c.store) :=
      getElem?_set_self hlt
    have hcopy : CopyOf K Agrees (K.copy c.store) c.store := ⟨hK.agrees_copy _, fun _ => rfl⟩
    split at hstep
    · cases hstep
      refine answer ?_ rfl t ⟨_, hfilled, hcopy.agrees⟩
      refine ⟨?_, ?_, ?_⟩
      · rintro - b hb
        obtain rfl : a = b := some.inj (hcached.symm.trans hb)
        exact ⟨c.store, _, hfilled, hcopy, hK.follows_refl _⟩
      · rintro t' b ⟨⟩
      · intro t' b seen hcall
        obtain ⟨o, ho, hagrees⟩ := h.held t' b seen hcall
        -- nobody holds the object that is being filled
        exact ⟨o, by rwa [getElem?_set_ne (hne t' b seen hcall).symm], hagrees⟩
    · cases hstep
  · cases hstep

end

theorem leave (h : Inv K Agrees Follows c) {t : τ} (hstep : Cache.leave t c = some c') :
    Inv K Agrees Follows c' := by
  unfold Cache.leave at hstep
  split at hstep
  · cases hstep
    exact h.setCall t (by rintro a seen ⟨⟩)
  · cases hstep

end Inv

variable [DecidableEq τ]

theorem Coherent.inv_of_reachable (hK : Coherent S K Agrees Follows)
    (h : (system S K).Reachable c) : Inv K Agrees Follows c := by
  refine h.invariant ?_ ?_
  · rintro c ⟨s, -, rfl⟩
    exact .initial s
  · intro c l c' hstep hinv
    cases l with
    | store e =>
      obtain ⟨s', hs', rfl⟩ := hstep
      exact hinv.store hK hs'
    | check t => exact hinv.check hK hstep
    | recheck t => exact hinv.recheck hK hstep
    | fill t => exact hinv.fill hK hstep
    | touch t k => exact hinv.touchHeld hK hstep
    | leave t => exact hinv.leave hstep

/-- Every object a thread holds agrees with the state that it saw when its check succeeded or its
copy was made. -/
theorem Coherent.held_agrees (hK : Coherent S K Agrees Follows) (h : (system S K).Reachable c)
    {t : τ} {a : ℕ} {seen : σ} (hheld : c.calls t = .returned a seen) :
    ∃ o, c.heap[a]? = some o ∧ Agrees o seen :=
  (hK.inv_of_reachable h).held t a seen hheld

end Proofs

end Transition.DoubleChecked
