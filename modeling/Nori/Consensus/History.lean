import Nori.Consensus.Log

/-!
# The history of replicated logs under elected leaders

For every term with a leader there is one book: the log with which the leader was elected, and all
that it appended since. A node takes over a beginning of the book of its term and acknowledges it;
an entry of the book is committed when a majority has acknowledged it in that term.

Candidates are compared with voters by some log that they have had, not necessarily by the one
they have: what a node has had is lost only to a leader that lacks it.
-/

namespace Consensus

open List Option

/-- The terms and logs of the nodes; the logs they have had; the log with which the leader of a
term was elected, and the book of that term; who acknowledged how much of which book, and who
voted for whom. -/
structure State (P E : Type) where
  term : P → ℕ
  log : P → List E
  past : P → Set (List E)
  elected : ℕ → Option (List E)
  book : ℕ → List E
  acked : P → ℕ → ℕ → Prop
  voted : P → ℕ → P → Prop

variable {P E : Type}

/-- A term has a leader, and that leader was elected without `M`. -/
def Lacks (s : State P E) (u : ℕ) (M : List E) : Prop := ∃ L₀, s.elected u = some L₀ ∧ ¬ M <+: L₀

/-- Every entry stands in a log where the leader of its term put it. -/
def Traced (tm : E → ℕ) (s : State P E) (L : List E) : Prop :=
  ∀ i e, L[i]? = some e → s.elected (tm e) ≠ none ∧ L.take (i + 1) <+: s.book (tm e)

/-- The leader of a term appended the `i`-th entry of its book itself. -/
def Own (s : State P E) (t i : ℕ) : Prop :=
  ∃ L₀, s.elected t = some L₀ ∧ L₀.length < i ∧ i ≤ (s.book t).length

/-- Later than `t`, but before `bound`, a leader lacked `M`; or `R` holds. -/
def OrLost (s : State P E) (t bound : ℕ) (M : List E) (R : Prop) : Prop :=
  R ∨ ∃ u, t < u ∧ u < bound ∧ Lacks s u M

/-- A leader that lacked something comes before a term without a leader. -/
theorem OrLost.before {s : State P E} {t u b : ℕ} {M : List E} {R : Prop}
    (h : OrLost s t (b + 1) M R) (hnone : s.elected u = none) (hb : b ≤ u) :
    OrLost s t u M R := by
  rcases h with hR | ⟨v, htv, hvb, L₀, hL₀, hnot⟩
  · exact .inl hR
  · refine .inr ⟨v, htv, lt_of_le_of_ne (by omega) ?_, L₀, hL₀, hnot⟩
    rintro rfl
    exact some_ne_none L₀ (hL₀.symm.trans hnone)

/-- The first `i` entries of the book of `t` are committed: the last of them is of that term, and
a majority acknowledged it there. -/
def Committed (members : Finset P) (s : State P E) (t i : ℕ) : Prop :=
  Own s t i ∧ ∃ Q, Majority members Q ∧ ∀ v ∈ Q, s.acked v t i

/-- What holds in every state. -/
structure Inv (members : Finset P) (tm : E → ℕ) (s : State P E) : Prop where
  current : ∀ n, s.log n ∈ s.past n
  pastTerm : ∀ n, ∀ L ∈ s.past n, ∀ e ∈ L, tm e ≤ s.term n
  traced : ∀ n, ∀ L ∈ s.past n, Traced tm s L
  unopened : ∀ t, s.elected t = none → s.book t = []
  tracedBook : ∀ t, Traced tm s (s.book t)
  opened : ∀ t L₀, s.elected t = some L₀ → L₀ <+: s.book t
  openedTerm : ∀ t L₀, s.elected t = some L₀ → ∀ e ∈ L₀, tm e < t
  bookTerm : ∀ t L₀, s.elected t = some L₀ → ∀ e ∈ (s.book t).drop L₀.length, tm e = t
  kept : ∀ n, ∀ L ∈ s.past n, ∀ i e, L[i]? = some e →
    OrLost s (tm e) (s.term n + 1) (L.take (i + 1)) (L.take (i + 1) <+: s.log n)
  acked : ∀ n t i, s.acked n t i →
    t ≤ s.term n ∧ i ≤ (s.book t).length ∧ ∃ L ∈ s.past n, (s.book t).take i <+: L
  voted : ∀ n t c, s.voted n t c → t ≤ s.term n ∧ (s.elected t = none →
    ∀ t₀ i, t₀ < t → s.acked n t₀ i → Own s t₀ i →
      OrLost s t₀ t ((s.book t₀).take i) (∃ L ∈ s.past c, (s.book t₀).take i <+: L))
  won : ∀ t L₀, s.elected t = some L₀ → ∃ Q, Majority members Q ∧ ∀ n ∈ Q, t ≤ s.term n ∧
    ∀ t₀ i, t₀ < t → s.acked n t₀ i → Own s t₀ i →
      OrLost s t₀ t ((s.book t₀).take i) ((s.book t₀).take i <+: L₀)

/-! ## Nothing is taken back -/

/-- The history of `s'` continues the history of `s`. -/
structure Extends (s s' : State P E) : Prop where
  term_le : ∀ n, s.term n ≤ s'.term n
  past : ∀ n, s.past n ⊆ s'.past n
  elected : ∀ t L₀, s.elected t = some L₀ → s'.elected t = some L₀
  book : ∀ t, s.book t <+: s'.book t
  acked : ∀ n t i, s.acked n t i → s'.acked n t i
  voted : ∀ n t c, s.voted n t c → s'.voted n t c

namespace Extends

variable {s s' s'' : State P E} {t i : ℕ} {M L : List E} {tm : E → ℕ}

theorem refl (s : State P E) : Extends s s :=
  ⟨fun _ => le_rfl, fun _ => subset_rfl, fun _ _ h => h, fun _ => prefix_rfl,
    fun _ _ _ h => h, fun _ _ _ h => h⟩

variable (h : Extends s s')
include h

theorem trans (h' : Extends s' s'') : Extends s s'' where
  term_le n := (h.term_le n).trans (h'.term_le n)
  past n := (h.past n).trans (h'.past n)
  elected t L₀ ht := h'.elected t L₀ (h.elected t L₀ ht)
  book t := (h.book t).trans (h'.book t)
  acked n t i ha := h'.acked n t i (h.acked n t i ha)
  voted n t c hv := h'.voted n t c (h.voted n t c hv)

theorem ne_none (ht : s.elected t ≠ none) : s'.elected t ≠ none := by
  obtain ⟨L₀, hL₀⟩ := ne_none_iff_exists'.mp ht
  rw [h.elected t L₀ hL₀]
  exact some_ne_none L₀

theorem take_book (hi : i ≤ (s.book t).length) : (s'.book t).take i = (s.book t).take i := by
  obtain ⟨K, hK⟩ := h.book t
  rw [← hK, take_append_of_le_length hi]

theorem lacks (hl : Lacks s t M) : Lacks s' t M := by
  obtain ⟨L₀, hL₀, hM⟩ := hl
  exact ⟨L₀, h.elected t L₀ hL₀, hM⟩

theorem orLost {R R' : Prop} {bound bound' : ℕ} (hR : R → R')
    (hbound : bound ≤ bound') (ho : OrLost s t bound M R) : OrLost s' t bound' M R' := by
  rcases ho with hr | ⟨u, htu, hu, hl⟩
  · exact .inl (hR hr)
  · exact .inr ⟨u, htu, hu.trans_le hbound, h.lacks hl⟩

theorem traced (hL : Traced tm s L) : Traced tm s' L := by
  intro i e he
  obtain ⟨helected, hbook⟩ := hL i e he
  exact ⟨h.ne_none helected, hbook.trans (h.book _)⟩

theorem own (ho : Own s t i) : Own s' t i := by
  obtain ⟨L₀, hL₀, hlen, hi⟩ := ho
  exact ⟨L₀, h.elected t L₀ hL₀, hlen, hi.trans (h.book t).length_le⟩

theorem committed {members : Finset P} (hc : Committed members s t i) :
    Committed members s' t i := by
  obtain ⟨hown, Q, hQ, hack⟩ := hc
  exact ⟨h.own hown, Q, hQ, fun v hv => h.acked v t i (hack v hv)⟩

end Extends

/-! ## Logs and books -/

namespace Inv

variable {members : Finset P} {tm : E → ℕ} {s s' : State P E} {L K M : List E} {t i : ℕ}

theorem le_of_mem_book (h : Inv members tm s) {e : E} (he : e ∈ s.book t) : tm e ≤ t := by
  cases ht : s.elected t with
  | none =>
    rw [h.unopened t ht] at he
    cases he
  | some L₀ =>
    rw [← take_append_drop L₀.length (s.book t)] at he
    rcases mem_append.mp he with he | he
    · rw [← prefix_iff_eq_take.mp (h.opened t L₀ ht)] at he
      exact (h.openedTerm t L₀ ht e he).le
    · exact (h.bookTerm t L₀ ht e he).le

theorem le_of_lt (h : Inv members tm s) (hL : Traced tm s L) {j : ℕ} {e e' : E} (hij : i ≤ j)
    (he : L[i]? = some e) (he' : L[j]? = some e') : tm e ≤ tm e' := by
  have hmem : e ∈ L.take (j + 1) := by
    refine mem_of_getElem? (i := i) ?_
    rw [getElem?_take_of_lt (by omega), he]
  exact h.le_of_mem_book ((hL j e' he').2.subset hmem)

theorem take_eq (hL : Traced tm s L) (hK : Traced tm s K) {e e' : E}
    (he : L[i]? = some e) (he' : K[i]? = some e') (hterm : tm e = tm e') :
    L.take (i + 1) = K.take (i + 1) := by
  have hlen : i < L.length := (List.getElem?_eq_some_iff.mp he).1
  have hlen' : i < K.length := (List.getElem?_eq_some_iff.mp he').1
  have hLb := (hL i e he).2
  have hKb := (hK i e' he').2
  rw [← hterm] at hKb
  refine IsPrefix.eq_of_length (prefix_of_prefix_length_le hLb hKb ?_) ?_
  · simp only [length_take]
    omega
  · simp only [length_take]
    omega

section

variable (h : Inv members tm s)
include h

theorem own_entry (ho : Own s t i) :
    ∃ e, (s.book t)[i - 1]? = some e ∧ tm e = t ∧ i - 1 + 1 = i := by
  obtain ⟨L₀, hL₀, hlen, hi⟩ := ho
  have hlt : i - 1 < (s.book t).length := by omega
  refine ⟨(s.book t)[i - 1], getElem?_eq_getElem hlt, ?_, by omega⟩
  refine h.bookTerm t L₀ hL₀ _ ?_
  refine mem_of_getElem? (i := i - 1 - L₀.length) ?_
  rw [getElem?_drop, Nat.add_sub_cancel' (by omega), getElem?_eq_getElem hlt]

theorem own_at (ho : Own s t i) (hpre : (s.book t).take i <+: L) :
    (∃ e, L[i - 1]? = some e ∧ tm e = t ∧ (s.book t)[i - 1]? = some e) ∧
      L.take (i - 1 + 1) = (s.book t).take i := by
  obtain ⟨e, he, hte, hi1⟩ := h.own_entry ho
  obtain ⟨-, -, -, hi⟩ := ho
  obtain ⟨R, rfl⟩ := hpre
  have hlen : ((s.book t).take i).length = i := by rw [length_take, min_eq_left hi]
  refine ⟨⟨e, ?_, hte, he⟩, ?_⟩
  · rw [getElem?_append_left (by omega), getElem?_take_of_lt (by omega), he]
  · rw [hi1, take_append_of_le_length hlen.ge, take_take, min_self]

/-- A log that is at least as up to date as one with `M` in it has `M` too, unless a leader in
between lacked it. Its last entry is of a later term, whose leader then started out with `M`, or of
the same term and at least as far in the same book. -/
theorem upToDate_has (ho : Own s t i) (hL : Traced tm s L)
    (hK : Traced tm s K) (hM : (s.book t).take i <+: K) (hup : UpToDate tm L K) :
    OrLost s t (lastTerm tm L + 1) ((s.book t).take i) ((s.book t).take i <+: L) := by
  obtain ⟨⟨e, heK, hte, -⟩, -⟩ := h.own_at ho hM
  have hlen : ((s.book t).take i).length ≤ i := length_take_le i _
  have hiK : i - 1 < K.length := (List.getElem?_eq_some_iff.mp heK).1
  have hKne : K ≠ [] := ne_nil_of_length_pos (by omega)
  have hLne : L ≠ [] := hup.ne_nil hKne
  have hLpos : 0 < L.length := length_pos_of_ne_nil hLne
  obtain ⟨k, hk, hkterm, -⟩ := exists_last tm hKne
  obtain ⟨l, hl, hlterm, htake⟩ := exists_last tm hLne
  have htk : t ≤ lastTerm tm K := by
    rw [hkterm, ← hte]
    exact h.le_of_lt hK (by omega) heK hk
  have hbook : L <+: s.book (lastTerm tm L) := by
    rw [hlterm, ← htake]
    simpa only [htake] using (hL _ l hl).2
  rcases (htk.trans hup.lastTerm_le).lt_or_eq with hlt | heq
  · have helected : s.elected (lastTerm tm L) ≠ none := hlterm ▸ (hL _ l hl).1
    obtain ⟨L₀, hL₀⟩ := ne_none_iff_exists'.mp helected
    by_cases hM₀ : (s.book t).take i <+: L₀
    · refine .inl (hM₀.trans (prefix_of_prefix_length_le (h.opened _ L₀ hL₀) hbook ?_))
      -- the last entry of `L` is of the leader's own term, so it is not in `L₀`
      by_contra hshort
      have hmem : l ∈ L₀ := by
        refine mem_of_getElem? (i := L.length - 1) ?_
        obtain ⟨R, hR⟩ := prefix_of_prefix_length_le hbook (h.opened _ L₀ hL₀) (by omega)
        rw [← hR, getElem?_append_left (by omega), hl]
      exact absurd (h.openedTerm _ L₀ hL₀ l hmem) (by omega)
    · exact .inr ⟨_, hlt, Nat.lt_succ_self _, L₀, hL₀, hM₀⟩
  · rw [← heq] at hbook
    have htake := take_prefix i (s.book t)
    refine .inl (prefix_of_prefix_length_le htake hbook ?_)
    rcases hup with hup | ⟨-, hup⟩
    · omega
    · omega

/-! ## Leader completeness -/

/-- **What is committed in a term is in the log of every leader elected later.** Among the voters
of that leader is one who acknowledged; and by induction no leader in between lacked it. -/
theorem complete (hc : Committed members s t i) {t' : ℕ} {L₀ : List E}
    (hlt : t < t') (hL₀ : s.elected t' = some L₀) : (s.book t).take i <+: L₀ := by
  induction t' using Nat.strong_induction_on generalizing L₀ with
  | _ t' ih =>
    obtain ⟨hown, Q, hQ, hacked⟩ := hc
    obtain ⟨R, hR, hwon⟩ := h.won t' L₀ hL₀
    obtain ⟨v, hvQ, hvR⟩ := hQ.meet hR
    rcases (hwon v hvR).2 t i hlt (hacked v hvQ) hown with hpre | ⟨u, htu, hu, L₁, hL₁, hnot⟩
    · exact hpre
    · exact absurd (ih u hu htu hL₁) hnot

theorem complete_book (hc : Committed members s t i) {t' : ℕ}
    (hle : t ≤ t') (ht' : s.elected t' ≠ none) : (s.book t).take i <+: s.book t' := by
  rcases hle.lt_or_eq with hlt | rfl
  · obtain ⟨L₀, hL₀⟩ := ne_none_iff_exists'.mp ht'
    exact (h.complete hc hlt hL₀).trans (h.opened t' L₀ hL₀)
  · exact take_prefix i _

end

theorem elected_of_committed (hc : Committed members s t i) : s.elected t ≠ none := by
  obtain ⟨⟨L₀, hL₀, -⟩, -⟩ := hc
  rw [hL₀]
  exact some_ne_none L₀

/-- **Of two committed beginnings, one is a beginning of the other.** -/
theorem committed_comparable (h : Inv members tm s) {t' i' : ℕ} (hc : Committed members s t i)
    (hc' : Committed members s t' i') :
    (s.book t).take i <+: (s.book t').take i' ∨ (s.book t').take i' <+: (s.book t).take i := by
  rcases le_total t t' with hle | hle
  · exact prefix_or_prefix_of_prefix (h.complete_book hc hle (elected_of_committed hc')) <|
      take_prefix i' _
  · have htake := take_prefix i (s.book t)
    exact prefix_or_prefix_of_prefix htake
      (h.complete_book hc' hle (elected_of_committed hc))

end Inv

end Consensus
