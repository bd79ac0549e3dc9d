import Nori.Consensus.History
import Nori.Transition.System

/-!
# Electing leaders and replicating their logs

The steps by which the history of replicated logs grows, as an abstract system: a node raises its
term, votes for a candidate, is elected, appends to the book of its term, takes over a beginning of
that book, or acknowledges it.

## Main results

* `Inv.step`: every step keeps the invariant of the history, and continues the history
* `Pinned.prefix_book`: what is pinned at a node is in the book of its term
* `Pinned.comparable`: what is pinned at two nodes agrees as far as it goes
-/

namespace Consensus

open State List Option Function

variable {P E : Type}

inductive Label (P E : Type)
  | raise (n : P) (t : ℕ)
  | vote (n c : P) (L : List E)
  | elect (c : P) (Q : Finset P)
  | append (n : P) (e : E)
  | accept (n : P) (j : ℕ)
  | ack (n : P) (i : ℕ)

namespace State

/-- All nodes are in the same term, with empty logs. -/
def start (t : ℕ) : State P E where
  term _ := t
  log _ := []
  past _ := {[]}
  elected _ := none
  book _ := []
  acked _ _ _ := False
  voted _ _ _ := False

def vote (n c : P) (s : State P E) : State P E :=
  { s with voted := fun v t d => s.voted v t d ∨ v = n ∧ t = s.term n ∧ d = c }

def ack (n : P) (i : ℕ) (s : State P E) : State P E :=
  { s with acked := fun v t k => s.acked v t k ∨ v = n ∧ t = s.term n ∧ k = i }

def elect (c : P) (s : State P E) : State P E :=
  { s with
    elected := update s.elected (s.term c) (some (s.log c))
    book := update s.book (s.term c) (s.log c) }

section

variable [DecidableEq P]

def raise (n : P) (t : ℕ) (s : State P E) : State P E :=
  { s with term := update s.term n t }

/-- A node's log becomes `L`. -/
def setLog (n : P) (L : List E) (s : State P E) : State P E :=
  { s with
    log := update s.log n L
    past := update s.past n (insert L (s.past n)) }

def append (n : P) (e : E) (s : State P E) : State P E :=
  { s.setLog n (s.log n ++ [e]) with
    book := update s.book (s.term n) (s.book (s.term n) ++ [e]) }

noncomputable def accept (n : P) (j : ℕ) (s : State P E) : State P E :=
  s.setLog n (overlay (s.log n) ((s.book (s.term n)).take j))

end

end State

/-- The steps of nodes with the given members. Only the book of a term that has a leader can be
extended or taken over. -/
def system [DecidableEq P] (members : Finset P) (tm : E → ℕ) :
    Transition.System (State P E) (Label P E) where
  init s := ∃ t, s = State.start t
  step s l s' :=
    match l with
    | .raise n t => s.term n < t ∧ s' = s.raise n t
    | .vote n c L => (∃ K ∈ s.past c, L <+: K) ∧ lastTerm tm L ≤ s.term n ∧
        UpToDate tm L (s.log n) ∧ s' = s.vote n c
    | .elect c Q => Majority members Q ∧ (∀ v ∈ Q, s.voted v (s.term c) c) ∧
        s.elected (s.term c) = none ∧ s' = s.elect c
    | .append n e => s.elected (s.term n) ≠ none ∧ s.log n = s.book (s.term n) ∧
        tm e = s.term n ∧ s' = s.append n e
    | .accept n j => s.elected (s.term n) ≠ none ∧ s' = s.accept n j
    | .ack n i => i ≤ (s.book (s.term n)).length ∧ (s.book (s.term n)).take i <+: s.log n ∧
        s' = s.ack n i

/-! ### What the steps keep -/

section Mono

variable {members : Finset P} {tm : E → ℕ} {s s' : State P E}

section

variable (h : Inv members tm s) (hx : Extends s s')
include h hx

theorem Inv.own_of_extends {n : P} {t i : ℕ}
    (ha : s.acked n t i) (ho : Own s' t i) : Own s t i := by
  obtain ⟨L₀, hL₀, hlen, -⟩ := ho
  have hi := (h.acked n t i ha).2.1
  cases ht : s.elected t with
  | none =>
    rw [h.unopened t ht, length_nil] at hi
    omega
  | some L₁ =>
    have heq := hx.elected t L₁ ht
    rw [hL₀, some_inj] at heq
    exact ⟨L₁, ht, heq ▸ hlen, hi⟩

theorem Inv.acked_of_extends {n : P} {t i : ℕ}
    (ha : s.acked n t i) : t ≤ s'.term n ∧ i ≤ (s'.book t).length ∧
      ∃ L ∈ s'.past n, (s'.book t).take i <+: L := by
  obtain ⟨ht, hi, L, hL, hpre⟩ := h.acked n t i ha
  refine ⟨ht.trans (hx.term_le n), hi.trans (hx.book t).length_le, L, hx.past n hL, ?_⟩
  rwa [hx.take_book hi]

theorem Inv.voted_of_extends {n c : P} {t : ℕ}
    (hv : s.voted n t c) : t ≤ s'.term n ∧ (s'.elected t = none →
      ∀ t₀ i, t₀ < t → s.acked n t₀ i → Own s' t₀ i →
        OrLost s' t₀ t ((s'.book t₀).take i) (∃ L ∈ s'.past c, (s'.book t₀).take i <+: L)) := by
  obtain ⟨ht, hsafe⟩ := h.voted n t c hv
  refine ⟨ht.trans (hx.term_le n), fun hnone t₀ i hlt ha ho => ?_⟩
  rw [hx.take_book (h.acked n t₀ i ha).2.1]
  have hold := hsafe (by_contra fun hne => hx.ne_none hne hnone) t₀ i hlt ha
    (h.own_of_extends hx ha ho)
  refine hx.orLost ?_ le_rfl hold
  rintro ⟨L, hL, hpre⟩
  exact ⟨L, hx.past c hL, hpre⟩

theorem Inv.won_of_extends {t : ℕ} {L₀ : List E}
    (hL₀ : s.elected t = some L₀) : ∃ Q, Majority members Q ∧ ∀ n ∈ Q, t ≤ s'.term n ∧
      ∀ t₀ i, t₀ < t → s.acked n t₀ i → Own s' t₀ i →
        OrLost s' t₀ t ((s'.book t₀).take i) ((s'.book t₀).take i <+: L₀) := by
  obtain ⟨Q, hQ, hwon⟩ := h.won t L₀ hL₀
  refine ⟨Q, hQ, fun n hn => ⟨(hwon n hn).1.trans (hx.term_le n), fun t₀ i hlt ha ho => ?_⟩⟩
  rw [hx.take_book (h.acked n t₀ i ha).2.1]
  exact hx.orLost id le_rfl ((hwon n hn).2 t₀ i hlt ha (h.own_of_extends hx ha ho))

theorem Inv.kept_of_extends {n : P}
    (hlog : s.log n <+: s'.log n) {L : List E} (hL : L ∈ s.past n) {i : ℕ} {e : E}
    (he : L[i]? = some e) :
    OrLost s' (tm e) (s'.term n + 1) (L.take (i + 1)) (L.take (i + 1) <+: s'.log n) :=
  hx.orLost (·.trans hlog) (Nat.succ_le_succ (hx.term_le n)) (h.kept n L hL i e he)

end

end Mono

section Preserved

variable {members : Finset P} {tm : E → ℕ} {s s' : State P E} {n c : P} {t i j : ℕ} {e : E}
  {L K : List E}

theorem Traced.initial (hL : Traced tm s L) (hK : K <+: L) : Traced tm s K := by
  intro i e he
  obtain ⟨R, rfl⟩ := hK
  have hi : i < K.length := (List.getElem?_eq_some_iff.mp he).1
  have hold := hL i e (by rw [getElem?_append_left hi, he])
  rwa [take_append_of_le_length hi] at hold

theorem Traced.concat (hL : Traced tm s L) (he : s.elected (tm e) ≠ none)
    (hbook : L ++ [e] <+: s.book (tm e)) : Traced tm s (L ++ [e]) := by
  intro i e' he'
  rw [getElem?_append] at he'
  split_ifs at he' with hi
  · rw [take_append_of_le_length hi]
    exact hL i e' he'
  · obtain ⟨hlt, rfl⟩ := List.getElem?_eq_some_iff.mp he'
    rw [take_of_length_le (by rw [length_append, length_singleton]; omega), getElem_singleton]
    exact ⟨he, hbook⟩

theorem Inv.start (t : ℕ) : Inv members tm (start t : State P E) where
  current _ := rfl
  pastTerm := by
    rintro n L rfl e he
    cases he
  traced := by
    rintro n L rfl i e he
    cases he
  unopened _ _ := rfl
  tracedBook t i e he := by
    cases he
  opened _ _ ht := by cases ht
  openedTerm _ _ ht := by cases ht
  bookTerm _ _ ht := by cases ht
  kept := by
    rintro n L rfl i e he
    cases he
  acked _ _ _ ha := ha.elim
  voted _ _ _ hv := hv.elim
  won _ _ ht := by cases ht

theorem vote_extends : Extends s (s.vote n c) := { Extends.refl s with
  voted _ _ _ h := .inl h }

/-- A voter compares the candidate's log with its own, which has all that it acknowledged unless a
leader since then lacked it. -/
theorem Inv.vote (h : Inv members tm s) (hK : K ∈ s.past c) (hL : L <+: K)
    (hterm : lastTerm tm L ≤ s.term n) (hup : UpToDate tm L (s.log n)) :
    Inv members tm (s.vote n c) := by
  refine { h with voted := ?_ }
  rintro m t d (hv | ⟨rfl, rfl, rfl⟩)
  · exact h.voted m t d hv
  refine ⟨le_rfl, fun hnone t₀ i hlt ha ho => ?_⟩
  obtain ⟨-, hi, J, hJ, hpre⟩ := h.acked m t₀ i ha
  obtain ⟨⟨e, he, rfl, -⟩, htake⟩ := h.own_at ho hpre
  have hkept := h.kept m J hJ (i - 1) e he
  rw [htake] at hkept
  rcases hkept.before hnone le_rfl with hlog | hlost
  · have hdom := h.upToDate_has ho ((h.traced d K hK).initial hL) (h.traced m _ (h.current m)) hlog
      hup
    exact (hdom.before hnone hterm).imp (fun hLpre => ⟨K, hK, hLpre.trans hL⟩) id
  · exact .inr hlost

theorem elect_extends (h : Inv members tm s) (hnone : s.elected (s.term c) = none) :
    Extends s (s.elect c) := { Extends.refl s with
  elected t L₀ ht := by
    have hne : t ≠ s.term c := by
      rintro rfl
      exact some_ne_none L₀ (ht.symm.trans hnone)
    simpa [elect, hne] using ht
  book t := by
    by_cases ht : t = s.term c
    · subst ht
      rw [h.unopened _ hnone]
      exact nil_prefix
    · simp [elect, ht] }

/-- The leader's log was at least as up to date as the logs of its voters. -/
theorem Inv.elect (h : Inv members tm s) {Q : Finset P} (hQ : Majority members Q)
    (hv : ∀ v ∈ Q, s.voted v (s.term c) c) (hnone : s.elected (s.term c) = none) :
    Inv members tm (s.elect c) := by
  have hx := elect_extends h hnone
  -- no entry of the new leader's log is of its own term
  have hbelow : ∀ e ∈ s.log c, tm e < s.term c := by
    intro e he
    refine lt_of_le_of_ne (h.pastTerm c _ (h.current c) e he) fun heq => ?_
    obtain ⟨i, hi⟩ := mem_iff_getElem?.mp he
    exact (h.traced c _ (h.current c) i e hi).1 (heq ▸ hnone)
  have hcases : ∀ {t L₀}, (s.elect c).elected t = some L₀ →
      t = s.term c ∧ L₀ = s.log c ∧ (s.elect c).book t = L₀ ∨
        s.elected t = some L₀ ∧ (s.elect c).book t = s.book t := by
    intro t L₀ ht
    by_cases heq : t = s.term c
    · subst heq
      simp only [State.elect, update_self, some_inj] at ht
      exact .inl ⟨rfl, ht.symm, by simp [State.elect, ht]⟩
    · exact .inr ⟨by simpa [State.elect, heq] using ht, by simp [State.elect, heq]⟩
  exact { h with
    traced m L hL := hx.traced (h.traced m L hL)
    unopened t ht := by
      by_cases heq : t = s.term c
      · simp [State.elect, heq] at ht
      · simp only [State.elect, update_of_ne heq] at ht ⊢
        exact h.unopened t ht
    tracedBook t := by
      by_cases heq : t = s.term c
      · subst heq
        simpa [State.elect] using hx.traced (h.traced c _ (h.current c))
      · simpa [State.elect, heq] using hx.traced (h.tracedBook t)
    opened t L₀ ht := by
      rcases hcases ht with ⟨-, -, hb⟩ | ⟨ht, hb⟩
      · exact hb ▸ prefix_rfl
      · exact hb ▸ h.opened t L₀ ht
    openedTerm t L₀ ht := by
      rcases hcases ht with ⟨rfl, rfl, -⟩ | ⟨ht, -⟩
      · exact hbelow
      · exact h.openedTerm t L₀ ht
    bookTerm t L₀ ht := by
      rcases hcases ht with ⟨-, -, hb⟩ | ⟨ht, hb⟩
      · simp [hb]
      · exact hb ▸ h.bookTerm t L₀ ht
    kept m L hL i e he := h.kept_of_extends hx prefix_rfl hL he
    acked m t i ha := h.acked_of_extends hx ha
    voted m t d hd := h.voted_of_extends hx hd
    won t L₀ ht := by
      rcases hcases ht with ⟨rfl, rfl, -⟩ | ⟨ht, -⟩
      swap
      · exact h.won_of_extends hx ht
      refine ⟨Q, hQ, fun v hvQ => ⟨(h.voted v _ c (hv v hvQ)).1, fun t₀ i hlt ha ho => ?_⟩⟩
      rw [hx.take_book (h.acked v t₀ i ha).2.1]
      have hown := h.own_of_extends hx ha ho
      refine hx.orLost id le_rfl ?_
      rcases (h.voted v _ c (hv v hvQ)).2 hnone t₀ i hlt ha hown with ⟨L, hL, hpre⟩ | hlost
      swap
      · exact .inr hlost
      obtain ⟨hLe, htake⟩ := h.own_at hown hpre
      obtain ⟨e, he, rfl, -⟩ := hLe
      have hkept := h.kept c L hL (i - 1) e he
      rw [htake] at hkept
      exact hkept.before hnone le_rfl }

theorem ack_extends : Extends s (s.ack n i) := { Extends.refl s with
  acked _ _ _ h := .inl h }

/-- Nothing is acknowledged any more in a term before the one in which a node voted. -/
theorem Inv.ack (h : Inv members tm s) (hi : i ≤ (s.book (s.term n)).length)
    (hpre : (s.book (s.term n)).take i <+: s.log n) : Inv members tm (s.ack n i) := by
  refine { h with acked := ?_, voted := ?_, won := ?_ }
  · rintro m t k (ha | ⟨rfl, rfl, rfl⟩)
    · exact h.acked m t k ha
    · exact ⟨le_rfl, hi, s.log m, h.current m, hpre⟩
  · intro m t c hv
    obtain ⟨ht, hsafe⟩ := h.voted m t c hv
    refine ⟨ht, fun hnone t₀ k hlt ha ho => ?_⟩
    rcases ha with ha | ⟨rfl, rfl, -⟩
    · exact hsafe hnone t₀ k hlt ha ho
    · exact absurd ht (not_le.mpr hlt)
  · intro t L₀ hL₀
    obtain ⟨Q, hQ, hwon⟩ := h.won t L₀ hL₀
    refine ⟨Q, hQ, fun m hm => ⟨(hwon m hm).1, fun t₀ k hlt ha ho => ?_⟩⟩
    rcases ha with ha | ⟨rfl, rfl, -⟩
    · exact (hwon m hm).2 t₀ k hlt ha ho
    · exact absurd (hwon m hm).1 (not_le.mpr hlt)

variable [DecidableEq P]

theorem raise_extends (ht : s.term n < t) : Extends s (s.raise n t) := { Extends.refl s with
  term_le m := by
    by_cases hm : m = n
    · subst hm
      simpa [raise] using ht.le
    · simp [raise, hm] }

theorem Inv.raise (h : Inv members tm s) (ht : s.term n < t) : Inv members tm (s.raise n t) := by
  have hx := raise_extends ht
  exact { h with
    pastTerm m L hL e he := (h.pastTerm m L hL e he).trans (hx.term_le m)
    kept m L hL i e he := h.kept_of_extends hx prefix_rfl hL he
    acked m t i ha := h.acked_of_extends hx ha
    voted m t c hv := h.voted_of_extends hx hv
    won t L₀ hL₀ := h.won_of_extends hx hL₀ }

theorem setLog_mem (s : State P E) (n : P) (L : List E) {m : P} {K : List E}
    (hK : K ∈ (s.setLog n L).past m) : K ∈ s.past m ∨ m = n ∧ K = L := by
  by_cases hm : m = n
  · subst hm
    rcases (by simpa [setLog] using hK) with rfl | hK
    · exact .inr ⟨rfl, rfl⟩
    · exact .inl hK
  · exact .inl (by simpa [setLog, hm] using hK)

theorem setLog_past (s : State P E) (n : P) (L : List E) (m : P) :
    s.past m ⊆ (s.setLog n L).past m := by
  by_cases hm : m = n
  · subst hm
    simp [setLog]
  · simp [setLog, hm]

theorem setLog_current (h : Inv members tm s) (n : P) (L : List E) (m : P) :
    (s.setLog n L).log m ∈ (s.setLog n L).past m := by
  by_cases hm : m = n
  · subst hm
    simp [setLog]
  · simpa [setLog, hm] using h.current m

theorem accept_extends : Extends s (s.accept n j) := { Extends.refl s with
  past := setLog_past s n _ }

/-- What a node gives up for the leader's entries, the leader lacked. -/
theorem Inv.accept (h : Inv members tm s) (hterm : s.elected (s.term n) ≠ none) :
    Inv members tm (s.accept n j) := by
  have hx : Extends s (s.accept n j) := accept_extends
  have hB : (s.book (s.term n)).take j <+: s.book (s.term n) := take_prefix j _
  have hnew : overlay (s.log n) ((s.book (s.term n)).take j) = s.log n ∨
      overlay (s.log n) ((s.book (s.term n)).take j) = (s.book (s.term n)).take j :=
    overlay_eq_or _ _
  refine { h with
    current := setLog_current h n _
    pastTerm := ?_
    traced := ?_
    kept := ?_
    acked m t i ha := h.acked_of_extends hx ha
    voted m t c hv := h.voted_of_extends hx hv }
  · intro m L hL e he
    rcases setLog_mem s n _ hL with hL | ⟨rfl, rfl⟩
    · exact h.pastTerm m L hL e he
    · rcases hnew with hnew | hnew <;> rw [hnew] at he
      · exact h.pastTerm m _ (h.current m) e he
      · exact h.le_of_mem_book (mem_of_mem_take he)
  · intro m L hL
    rcases setLog_mem s n _ hL with hL | ⟨rfl, rfl⟩
    · exact h.traced m L hL
    · rcases hnew with hnew | hnew <;> rw [hnew]
      · exact h.traced m _ (h.current m)
      · exact (h.tracedBook _).initial hB
  · intro m L hL i e he
    by_cases hm : m = n
    swap
    · have hlog : (s.accept n j).log m = s.log m := by simp [State.accept, State.setLog, hm]
      rw [hlog]
      refine h.kept m L ?_ i e he
      exact (setLog_mem s n _ hL).resolve_right fun hmn => hm hmn.1
    subst hm
    have hlog : (s.accept m j).log m = overlay (s.log m) ((s.book (s.term m)).take j) := by
      simp [State.accept, State.setLog]
    rw [hlog]
    rcases setLog_mem s m _ hL with hL | ⟨-, rfl⟩
    swap
    · exact .inl <| take_prefix (i + 1) _
    rcases h.kept m L hL i e he with hpre | hlost
    swap
    · exact .inr hlost
    -- what the leader's book has in common with the log stays, the rest the leader lacked
    by_cases hbook : L.take (i + 1) <+: s.book (s.term m)
    · exact .inl (overlay_keeps hpre hbook hB)
    obtain ⟨L₀, hL₀⟩ := ne_none_iff_exists'.mp hterm
    refine .inr ⟨s.term m, ?_, Nat.lt_succ_self _, L₀, hL₀, ?_⟩
    · refine lt_of_le_of_ne (h.pastTerm m L hL e (mem_of_getElem? he)) fun heq => ?_
      exact hbook (heq ▸ (h.traced m L hL i e he).2)
    · exact fun hL₀pre => hbook (hL₀pre.trans (h.opened _ L₀ hL₀))

theorem append_extends : Extends s (s.append n e) := { Extends.refl s with
  past := setLog_past s n _
  book t := by
    by_cases ht : t = s.term n
    · subst ht
      simp [append]
    · simp [append, setLog, ht] }

theorem Inv.append (h : Inv members tm s) (hterm : s.elected (s.term n) ≠ none)
    (hlog : s.log n = s.book (s.term n)) (he : tm e = s.term n) :
    Inv members tm (s.append n e) := by
  have hx : Extends s (s.append n e) := append_extends
  have hbook : (s.append n e).book (s.term n) = s.book (s.term n) ++ [e] := by simp [State.append]
  have hother : ∀ t, t ≠ s.term n → (s.append n e).book t = s.book t := by
    intro t ht
    simp [State.append, State.setLog, ht]
  have htraced : Traced tm (s.append n e) (s.book (s.term n) ++ [e]) := by
    refine (hx.traced (h.tracedBook _)).concat (hx.ne_none (he ▸ hterm)) ?_
    rw [he, hbook]
  exact { h with
    current := setLog_current h n _
    pastTerm m L hL := by
      rcases setLog_mem s n _ hL with hL | ⟨rfl, rfl⟩
      · exact h.pastTerm m L hL
      · exact forall_mem_append.mpr
          ⟨h.pastTerm m _ (h.current m), forall_mem_singleton.mpr he.le⟩
    traced m L hL := by
      rcases setLog_mem s n _ hL with hL | ⟨rfl, rfl⟩
      · exact hx.traced (h.traced m L hL)
      · rw [hlog]
        exact htraced
    unopened t ht := by
      rw [hother t (fun heq => hterm (heq ▸ ht))]
      exact h.unopened t ht
    tracedBook t := by
      by_cases ht : t = s.term n
      · rw [ht, hbook]
        exact htraced
      · rw [hother t ht]
        exact hx.traced (h.tracedBook t)
    opened t L₀ ht := (h.opened t L₀ ht).trans (hx.book t)
    bookTerm t L₀ hL₀ := by
      by_cases ht : t = s.term n
      · subst ht
        rw [hbook, drop_append_of_le_length (h.opened _ L₀ hL₀).length_le]
        exact forall_mem_append.mpr ⟨h.bookTerm _ L₀ hL₀, forall_mem_singleton.mpr he⟩
      · rw [hother t ht]
        exact h.bookTerm t L₀ hL₀
    kept m L hL i e' he' := by
      rcases setLog_mem s n _ hL with hL | ⟨rfl, rfl⟩
      · refine h.kept_of_extends hx ?_ hL he'
        by_cases hm : m = n
        · subst hm
          simp [State.append, State.setLog]
        · simp [State.append, State.setLog, hm]
      · refine .inl ?_
        simpa [State.append, State.setLog] using take_prefix (i + 1) (s.log m ++ [e])
    acked m t i ha := h.acked_of_extends hx ha
    voted m t c hv := h.voted_of_extends hx hv
    won t L₀ hL₀ := h.won_of_extends hx hL₀ }

/-- Every step keeps the invariant and continues the history. -/
theorem Inv.step {l : Label P E} (h : Inv members tm s) (hstep : (system members tm).step s l s') :
    Inv members tm s' ∧ Extends s s' := by
  cases l with
  | raise n t =>
    obtain ⟨ht, rfl⟩ := hstep
    exact ⟨h.raise ht, raise_extends ht⟩
  | vote n c L =>
    obtain ⟨⟨K, hK, hL⟩, hterm, hup, rfl⟩ := hstep
    exact ⟨h.vote hK hL hterm hup, vote_extends⟩
  | elect c Q =>
    obtain ⟨hQ, hv, hnone, rfl⟩ := hstep
    exact ⟨h.elect hQ hv hnone, elect_extends h hnone⟩
  | append n e =>
    obtain ⟨hterm, hlog, he, rfl⟩ := hstep
    exact ⟨h.append hterm hlog he, append_extends⟩
  | accept n j =>
    obtain ⟨hterm, rfl⟩ := hstep
    exact ⟨h.accept hterm, accept_extends⟩
  | ack n i =>
    obtain ⟨hi, hpre, rfl⟩ := hstep
    exact ⟨h.ack hi hpre, ack_extends⟩

end Preserved

/-- What holds along a run. -/
theorem Inv.run [DecidableEq P] {members : Finset P} {tm : E → ℕ} {s s' : State P E}
    (h : Inv members tm s) (hrun : (system members tm).Run s s') :
    Inv members tm s' ∧ Extends s s' :=
  hrun.preorder Extends.refl (fun _ _ _ => Extends.trans) (fun _ _ _ hstep hs => hs.step hstep) h

theorem Inv.reachable [DecidableEq P] {members : Finset P} {tm : E → ℕ} {s : State P E}
    (h : (system members tm).Reachable s) : Inv members tm s := by
  refine h.invariant ?_ fun _ _ _ hstep hs => (hs.step hstep).1
  rintro s ⟨t, rfl⟩
  exact Inv.start t

/-! ## What is pinned -/

/-- The first `k` entries of a node's log are a beginning of what was committed in a term that the
node has reached. -/
def Pinned (members : Finset P) (s : State P E) (n : P) (k : ℕ) : Prop :=
  k ≤ (s.log n).length ∧ (k = 0 ∨ ∃ t i, Committed members s t i ∧ t ≤ s.term n ∧
    (s.log n).take k <+: (s.book t).take i)

namespace Pinned

variable {members : Finset P} {tm : E → ℕ} {s s' : State P E} {n : P} {k : ℕ}

theorem zero : Pinned members s n 0 := ⟨Nat.zero_le _, .inl rfl⟩

variable (h : Pinned members s n k)
include h

theorem of_extends (hx : Extends s s')
    (hlog : (s.log n).take k <+: s'.log n) : Pinned members s' n k := by
  obtain ⟨hk, hpin⟩ := h
  have hlen : ((s.log n).take k).length = k := by rw [length_take, min_eq_left hk]
  refine ⟨hlen ▸ hlog.length_le, hpin.imp_right ?_⟩
  rintro ⟨t, i, hc, ht, hpre⟩
  have hi : i ≤ (s.book t).length := hc.1.choose_spec.2.2
  refine ⟨t, i, hx.committed hc, ht.trans (hx.term_le n), ?_⟩
  have heq : (s'.log n).take k = (s.log n).take k := by rw [prefix_iff_eq_take.mp hlog, hlen]
  rwa [hx.take_book hi, heq]

/-- What is pinned at a node is in the book of its term. -/
theorem prefix_book (hs : Inv members tm s)
    (hterm : s.elected (s.term n) ≠ none) : (s.log n).take k <+: s.book (s.term n) := by
  rcases h.2 with rfl | ⟨t, i, hc, ht, hpre⟩
  · exact nil_prefix
  · exact hpre.trans (hs.complete_book hc ht hterm)

/-- What is pinned at a node stays when it takes over entries of the leader of its term. -/
theorem accept [DecidableEq P] {j : ℕ} (hs : Inv members tm s)
    (hterm : s.elected (s.term n) ≠ none) : Pinned members (s.accept n j) n k := by
  refine h.of_extends accept_extends ?_
  have hlog : (s.accept n j).log n = overlay (s.log n) ((s.book (s.term n)).take j) := by
    simp [State.accept, setLog]
  rw [hlog]
  have hpinned := take_prefix k (s.log n)
  exact overlay_keeps hpinned (h.prefix_book hs hterm) <| take_prefix j _

/-- What is pinned at a node is a beginning of what is pinned at another, or the other way round. -/
theorem comparable {m : P} {l : ℕ} (h' : Pinned members s m l) (hs : Inv members tm s) :
    (s.log n).take k <+: (s.log m).take l ∨ (s.log m).take l <+: (s.log n).take k := by
  rcases h.2 with rfl | ⟨t, i, hc, -, hpre⟩
  · exact .inl nil_prefix
  rcases h'.2 with rfl | ⟨t', i', hc', -, hpre'⟩
  · exact .inr nil_prefix
  rcases hs.committed_comparable hc hc' with hle | hle
  · exact prefix_or_prefix_of_prefix (hpre.trans hle) hpre'
  · exact prefix_or_prefix_of_prefix hpre (hpre'.trans hle)

end Pinned

end Consensus
