import Mathlib.Data.Finset.Card

/-!
# Logs of entries with terms

General facts about replicated logs: majorities of a fixed set of members, the order in which
elections compare logs, and what becomes of a log when the entries of a leader are laid over it.
-/

namespace Consensus

open List Finset

section Majorities

variable {P : Type} {members Q R : Finset P}

/-- More than half of the members. -/
structure Majority (members Q : Finset P) : Prop where
  subset : Q ⊆ members
  half : members.card < 2 * Q.card

/-- Two majorities have a member in common. -/
theorem Majority.meet (hQ : Majority members Q) (hR : Majority members R) : ∃ v, v ∈ Q ∧ v ∈ R := by
  classical
  have hcard : members.card < Q.card + R.card := by
    have hQhalf := hQ.half
    have hRhalf := hR.half
    omega
  obtain ⟨v, hv⟩ := inter_nonempty_of_card_lt_card_add_card hQ.subset hR.subset hcard
  exact ⟨v, mem_inter.mp hv⟩

/-- So have majorities of sets that differ in one member. -/
theorem Majority.meet_of_close [DecidableEq P] {A B : Finset P} (hQ : Majority A Q)
    (hR : Majority B R) (hclose : (A \ B).card + (B \ A).card ≤ 1) : ∃ v, v ∈ Q ∧ v ∈ R := by
  have hQhalf := hQ.half
  have hRhalf := hR.half
  have hcard : (A ∪ B).card < Q.card + R.card := by
    have hA := card_sdiff_add_card B A
    have hB := card_sdiff_add_card A B
    rw [union_comm] at hA
    omega
  obtain ⟨v, hv⟩ := inter_nonempty_of_card_lt_card_add_card
    (hQ.subset.trans subset_union_left) (hR.subset.trans subset_union_right) hcard
  exact ⟨v, mem_inter.mp hv⟩

end Majorities

variable {E : Type}

section Order

variable (tm : E → ℕ)

/-- The term of the last entry; an empty log has term `0`. -/
def lastTerm (L : List E) : ℕ := (L.getLast?.map tm).getD 0

/-- `L` is at least as up to date as `K`. -/
def UpToDate (L K : List E) : Prop :=
  lastTerm tm K < lastTerm tm L ∨ lastTerm tm K = lastTerm tm L ∧ K.length ≤ L.length

variable {L K : List E}

theorem exists_last (hL : L ≠ []) :
    ∃ e, L[L.length - 1]? = some e ∧ lastTerm tm L = tm e ∧ L.take (L.length - 1 + 1) = L := by
  have hpos : 0 < L.length := length_pos_of_ne_nil hL
  refine ⟨L.getLast hL, ?_, ?_, ?_⟩
  · rw [← getLast?_eq_getElem?, getLast?_eq_some_getLast hL]
  · rw [lastTerm, getLast?_eq_some_getLast hL]
    rfl
  · rw [Nat.sub_add_cancel hpos, take_length]

variable {tm}

theorem UpToDate.lastTerm_le (h : UpToDate tm L K) : lastTerm tm K ≤ lastTerm tm L := by
  rcases h with h | ⟨h, -⟩
  · exact h.le
  · exact h.le

theorem UpToDate.ne_nil (h : UpToDate tm L K) (hK : K ≠ []) : L ≠ [] := by
  rintro rfl
  rcases h with h | ⟨-, h⟩
  · exact absurd h (Nat.not_lt_zero _)
  · exact hK (eq_nil_of_length_eq_zero (Nat.le_zero.mp h))

end Order

section Overlay

variable {B L M T : List E}

open Classical in
/-- The log `L` after the entries `B` were laid over it: it stays as it is where it begins with
them, otherwise it is cut back to them. -/
noncomputable def overlay (L B : List E) : List E := if B <+: L then L else B

theorem prefix_overlay : B <+: overlay L B := by
  unfold overlay
  split
  next h => exact h
  next => exact prefix_rfl

theorem overlay_keeps (hL : M <+: L) (hM : M <+: T) (hB : B <+: T) : M <+: overlay L B := by
  unfold overlay
  split
  next => exact hL
  next h =>
    rcases prefix_or_prefix_of_prefix hM hB with hMB | hBM
    · exact hMB
    · exact absurd (hBM.trans hL) h

theorem overlay_eq_or (L B : List E) : overlay L B = L ∨ overlay L B = B := by
  unfold overlay
  split
  · exact .inl rfl
  · exact .inr rfl

end Overlay

end Consensus
