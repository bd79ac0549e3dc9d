import Nori.Consensus.Raft

/-!
# Steps of a single node

What one node does, seen from the others: their terms, logs and votes stay as they are, and only
the books of terms that the node leads can change.
-/

namespace Consensus

open List

variable {P E : Type}

namespace State

/-- Every beginning of the book up to an index is acknowledged. -/
def ackUpTo (n : P) (i : ℕ) (s : State P E) : State P E :=
  { s with acked := fun v t k => s.acked v t k ∨ v = n ∧ t = s.term n ∧ k ≤ i }

theorem acked_ackUpTo {n : P} {i k : ℕ} {s : State P E} (hk : k ≤ i) :
    (s.ackUpTo n i).acked n (s.term n) k := .inr ⟨rfl, rfl, hk⟩

theorem ackUpTo_succ (n : P) (i : ℕ) (s : State P E) :
    s.ackUpTo n (i + 1) = (s.ackUpTo n i).ack n (i + 1) := by
  simp only [ackUpTo, ack, State.mk.injEq, true_and, and_true]
  funext v t k
  refine propext ⟨?_, ?_⟩
  · rintro (h | ⟨hv, ht, hk⟩)
    · exact .inl (.inl h)
    · rcases hk.lt_or_eq with hlt | heq
      · exact .inl (.inr ⟨hv, ht, Nat.lt_succ_iff.mp hlt⟩)
      · exact .inr ⟨hv, ht, heq⟩
  · rintro ((h | ⟨hv, ht, hk⟩) | ⟨hv, ht, hk⟩)
    · exact .inl h
    · exact .inr ⟨hv, ht, hk.trans (Nat.le_succ i)⟩
    · exact .inr ⟨hv, ht, hk.le⟩

variable [DecidableEq P]

/-- Entries are appended one after the other. -/
def appendAll (n : P) : List E → State P E → State P E
  | [], s => s
  | e :: es, s => (s.append n e).appendAll n es

variable {n m : P} {s : State P E}

@[simp] theorem term_appendAll (es : List E) : (s.appendAll n es).term = s.term := by
  induction es generalizing s with
  | nil => rfl
  | cons e es ih => exact ih

theorem log_appendAll (es : List E) : (s.appendAll n es).log n = s.log n ++ es := by
  induction es generalizing s with
  | nil => exact (append_nil _).symm
  | cons e es ih =>
    rw [appendAll, ih]
    simp [append, setLog]

theorem book_appendAll (es : List E) :
    (s.appendAll n es).book (s.term n) = s.book (s.term n) ++ es := by
  induction es generalizing s with
  | nil => exact (append_nil _).symm
  | cons e es ih =>
    refine (ih (s := s.append n e)).trans ?_
    simp [append, setLog]

end State

variable [DecidableEq P]

/-- A run in which only the node `n` moves; `own` are the terms whose books may change. -/
structure Local (members : Finset P) (tm : E → ℕ) (n : P) (own : ℕ → Prop) (s s' : State P E) :
    Prop where
  run : (system members tm).Run s s'
  term : ∀ m, m ≠ n → s'.term m = s.term m
  log : ∀ m, m ≠ n → s'.log m = s.log m
  elected : ∀ t, s'.elected t = s.elected t ∨ own t
  book : ∀ t, s'.book t = s.book t ∨ own t

namespace Local

variable {members : Finset P} {tm : E → ℕ} {n : P} {own : ℕ → Prop} {s s' s'' : State P E}
  {t i : ℕ}

theorem refl (s : State P E) : Local members tm n own s s :=
  ⟨.refl s, fun _ _ => rfl, fun _ _ => rfl, fun _ => .inl rfl, fun _ => .inl rfl⟩

theorem trans (h : Local members tm n own s s') (h' : Local members tm n own s' s'') :
    Local members tm n own s s'' where
  run := h.run.trans h'.run
  term m hm := (h'.term m hm).trans (h.term m hm)
  log m hm := (h'.log m hm).trans (h.log m hm)
  elected t := by
    rcases h'.elected t with heq | hown
    · rw [heq]
      exact h.elected t
    · exact .inr hown
  book t := by
    rcases h'.book t with heq | hown
    · rw [heq]
      exact h.book t
    · exact .inr hown

theorem raise (ht : s.term n < t) : Local members tm n own s (s.raise n t) where
  run := .tail (e := .raise n t) (.refl s) ⟨ht, rfl⟩
  term m hm := by simp [State.raise, hm]
  log _ _ := rfl
  elected _ := .inl rfl
  book _ := .inl rfl

theorem vote {c : P} {L K : List E} (hK : K ∈ s.past c) (hL : L <+: K)
    (hterm : lastTerm tm L ≤ s.term n) (hup : UpToDate tm L (s.log n)) :
    Local members tm n own s (s.vote n c) where
  run := .tail (e := .vote n c L) (.refl s) ⟨⟨K, hK, hL⟩, hterm, hup, rfl⟩
  term _ _ := rfl
  log _ _ := rfl
  elected _ := .inl rfl
  book _ := .inl rfl

theorem elect {Q : Finset P} (hQ : Majority members Q) (hv : ∀ v ∈ Q, s.voted v (s.term n) n)
    (hnone : s.elected (s.term n) = none) (hown : own (s.term n)) :
    Local members tm n own s (s.elect n) where
  run := .tail (e := .elect n Q) (.refl s) ⟨hQ, hv, hnone, rfl⟩
  term _ _ := rfl
  log _ _ := rfl
  elected t := by
    by_cases ht : t = s.term n
    · exact .inr (ht ▸ hown)
    · exact .inl (by simp [State.elect, ht])
  book t := by
    by_cases ht : t = s.term n
    · exact .inr (ht ▸ hown)
    · exact .inl (by simp [State.elect, ht])

theorem accept {j : ℕ} (hterm : s.elected (s.term n) ≠ none) :
    Local members tm n own s (s.accept n j) where
  run := .tail (e := .accept n j) (.refl s) ⟨hterm, rfl⟩
  term _ _ := rfl
  log m hm := by simp [State.accept, State.setLog, hm]
  elected _ := .inl rfl
  book _ := .inl rfl

section

variable (hi : i ≤ (s.book (s.term n)).length) (hpre : (s.book (s.term n)).take i <+: s.log n)
include hi hpre

theorem ack : Local members tm n own s (s.ack n i) where
  run := .tail (e := .ack n i) (.refl s) ⟨hi, hpre, rfl⟩
  term _ _ := rfl
  log _ _ := rfl
  elected _ := .inl rfl
  book _ := .inl rfl

/-- A node acknowledges what its log has. -/
theorem ackUpTo : Local members tm n own s (s.ackUpTo n i) := by
  induction i with
  | zero =>
    simp only [State.ackUpTo, Nat.le_zero]
    exact ack hi hpre
  | succ i ih =>
    rw [State.ackUpTo_succ]
    have hshort : (s.book (s.term n)).take i <+: s.log n :=
      (take_prefix_take_left (Nat.le_succ i)).trans hpre
    exact (ih (by omega) hshort).trans (ack hi hpre)

end

theorem append {e : E} (hterm : s.elected (s.term n) ≠ none) (hlog : s.log n = s.book (s.term n))
    (he : tm e = s.term n) (hown : own (s.term n)) :
    Local members tm n own s (s.append n e) where
  run := .tail (e := .append n e) (.refl s) ⟨hterm, hlog, he, rfl⟩
  term _ _ := rfl
  log m hm := by simp [State.append, State.setLog, hm]
  elected _ := .inl rfl
  book t := by
    by_cases ht : t = s.term n
    · exact .inr (ht ▸ hown)
    · exact .inl (by simp [State.append, State.setLog, ht])

/-- A leader appends entries of its term. -/
theorem appendAll {es : List E} (hterm : s.elected (s.term n) ≠ none)
    (hlog : s.log n = s.book (s.term n)) (hes : ∀ e ∈ es, tm e = s.term n)
    (hown : own (s.term n)) : Local members tm n own s (s.appendAll n es) := by
  induction es generalizing s with
  | nil => exact refl s
  | cons e es ih =>
    have hfirst : Local members tm n own s (s.append n e) :=
      append hterm hlog (hes e mem_cons_self) hown
    refine hfirst.trans (ih (s := s.append n e) hterm ?_ ?_ hown)
    · simp [State.append, State.setLog, hlog]
    · exact fun e' he' => hes e' (mem_cons_of_mem e he')

end Local

end Consensus
