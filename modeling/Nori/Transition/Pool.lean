import Mathlib.Algebra.Order.BigOperators.Group.List
import Mathlib.Algebra.Order.Ring.Nat

/-!
# Pools of threads

Threads that work on a shared state, any one of which takes the next step. What all threads of a
pool have together is a sum over them, its weight; a step changes it by what the one thread gains or
loses.
-/

namespace Transition

open List

/-- A shared state and the threads that work on it. -/
structure Pool (σ τ : Type) where
  shared : σ
  threads : List τ

section Weight

variable {τ : Type} {f : τ → ℕ} {t : τ} {ts ts' : List τ}

/-- The sum over all threads. -/
def weight (f : τ → ℕ) (ts : List τ) : ℕ := (ts.map f).sum

@[simp] theorem weight_nil : weight f [] = 0 := rfl

@[simp] theorem weight_cons : weight f (t :: ts) = f t + weight f ts := sum_cons

@[simp] theorem weight_append : weight f (ts ++ ts') = weight f ts + weight f ts' := by
  unfold weight
  rw [map_append, sum_append]

theorem weight_perm (h : ts.Perm ts') : weight f ts = weight f ts' := (h.map f).sum_eq

theorem le_weight_of_mem (h : t ∈ ts) : f t ≤ weight f ts :=
  single_le_sum (fun _ _ => Nat.zero_le _) _ (mem_map_of_mem h)

theorem eq_zero_of_weight (h : weight f ts = 0) (ht : t ∈ ts) : f t = 0 :=
  Nat.le_zero.mp (h ▸ le_weight_of_mem ht)

theorem weight_eq_zero (h : ∀ t ∈ ts, f t = 0) : weight f ts = 0 := by
  refine sum_eq_zero fun n hn => ?_
  obtain ⟨t, ht, rfl⟩ := mem_map.mp hn
  exact h t ht

end Weight

namespace Pool

variable {σ τ χ : Type} (step : χ → σ → τ → σ × Option τ)

/-- The thread at an index takes a step. It goes on as another thread, or ends. -/
def advance (i : ℕ) (c : χ) (p : Pool σ τ) : Option (Pool σ τ) :=
  p.threads[i]?.map fun t =>
    ⟨(step c p.shared t).1, (step c p.shared t).2.toList ++ p.threads.eraseIdx i⟩

variable {step} {i : ℕ} {c : χ} {p p' : Pool σ τ}

/-- What a step is, for the thread that takes it and for the others. -/
theorem advance_spec (h : p.advance step i c = some p') :
    ∃ t others, p.threads.Perm (t :: others) ∧ p'.shared = (step c p.shared t).1 ∧
      p'.threads = (step c p.shared t).2.toList ++ others := by
  obtain ⟨t, ht, rfl⟩ := Option.map_eq_some_iff.mp h
  obtain ⟨hi, rfl⟩ := List.getElem?_eq_some_iff.mp ht
  exact ⟨p.threads[i], p.threads.eraseIdx i, (getElem_cons_eraseIdx_perm hi).symm, rfl, rfl⟩

/-- Threads whose steps lower a rank can all be run to their end. -/
theorem exists_drained {rank : τ → ℕ}
    (hrank : ∀ c s t, ∀ next ∈ (step c s t).2, rank next < rank t) (c : χ) (p : Pool σ τ) :
    ∃ p', Relation.ReflTransGen (fun q q' => q.advance step 0 c = some q') p p' ∧
      p'.threads = [] := by
  -- by induction on the ranks of all threads, each counted with its last step
  induction hn : weight (fun t => rank t + 1) p.threads using Nat.strongRecOn generalizing p with
  | _ n ih =>
    rcases hthreads : p.threads with _ | ⟨t, others⟩
    · exact ⟨p, .refl, hthreads⟩
    · have hstep : p.advance step 0 c =
          some ⟨(step c p.shared t).1, (step c p.shared t).2.toList ++ others⟩ := by
        unfold advance
        rw [hthreads]
        rfl
      have hlt : weight (fun t => rank t + 1) ((step c p.shared t).2.toList ++ others) < n := by
        rw [hthreads, weight_cons] at hn
        rw [weight_append, ← hn]
        cases hnext : (step c p.shared t).2 with
        | none => simp
        | some next =>
          have := hrank c p.shared t next hnext
          simp only [Option.toList_some, weight_cons, weight_nil]
          omega
      obtain ⟨p', hrun, hnil⟩ := ih _ hlt ⟨(step c p.shared t).1, _⟩ rfl
      exact ⟨p', .head hstep hrun, hnil⟩

end Pool

end Transition
