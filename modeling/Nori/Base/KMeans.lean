import Mathlib.Tactic.NormNum

/-!
# The first means of k-means

`KMeans::Init` takes one sample for each cluster, at random within its part of the samples or evenly
spaced. The index is a product divided by a number, both of type `int`, and the product need not
fit: it wraps to a negative number, and the index lies before the samples or is taken twice.
-/

namespace Base

open Int

/-- A 32-bit `int`. -/
def wrap (z : ℤ) : ℤ := z.bmod (2 ^ 32)

def randMax : ℤ := 2 ^ 31 - 1

inductive InitMode
  | random
  | uniform

/-- The sample that `KMeans::Init` takes for the cluster `i`, with the draws of `rand`. -/
def select (num cluster : ℕ) (draw : ℕ → ℕ) (i : ℕ) : InitMode → ℤ
  | .random =>
    let interval : ℤ := num / cluster
    wrap (wrap (interval * i) + (wrap ((interval - 1) * draw i)).tdiv randMax)
  | .uniform => (wrap (i * num)).tdiv cluster

/-- The products that `Init` divides: the first draw of `InitRandom` must not meet one of the two
least values of an `int`, and the largest product of `InitUniform` must be one. -/
def Fits (num cluster : ℕ) (draw : ℕ → ℕ) : InitMode → Prop
  | .random => (num / cluster - 1) * draw 0 % 2 ^ 32 ≠ 2 ^ 31 ∧
    (num / cluster - 1) * draw 0 % 2 ^ 32 ≠ 2 ^ 31 + 1
  | .uniform => (cluster - 1) * num < 2 ^ 31

theorem wrap_of_lt {z : ℤ} (h : -2 ^ 31 ≤ z) (h' : z < 2 ^ 31) : wrap z = z := by
  unfold wrap
  rw [bmod_def]
  split <;> omega

/-- The quotient by `RAND_MAX` is at most one. -/
theorem tdiv_wrap_cases (m : ℕ) : ∃ q, (wrap m).tdiv randMax = q ∧ -1 ≤ q ∧ q ≤ 1 ∧
    (q = -1 ↔ m % 2 ^ 32 = 2 ^ 31 ∨ m % 2 ^ 32 = 2 ^ 31 + 1) ∧ (m = 0 → q = 0) := by
  refine ⟨_, rfl, ?_⟩
  have hsign : randMax.sign = 1 := rfl
  unfold wrap
  rw [bmod_def, tdiv_eq_ediv, hsign, randMax]
  norm_num
  split_ifs <;> omega

section Seeds

variable {num cluster : ℕ} {draw : ℕ → ℕ}

theorem select_uniform_of_lt {i : ℕ} (h : i * num < 2 ^ 31) :
    select num cluster draw i .uniform = (i * num / cluster : ℕ) := by
  rw [select, ← Nat.cast_mul, wrap_of_lt (by omega) (by omega)]
  exact (ofNat_tdiv ..).symm

variable (hcluster : 1 ≤ cluster) (hle : cluster ≤ num) (hnum : num < 2 ^ 31)
include hcluster hle hnum

theorem select_random_cases (hdraw : ∀ i, draw i < 2 ^ 31) {i : ℕ} (hi : i < cluster) :
    ∃ q : ℤ, select num cluster draw i .random = (num / cluster * i : ℕ) + q ∧ -1 ≤ q ∧ q ≤ 1 ∧
      (q = -1 ↔ (num / cluster - 1) * draw i % 2 ^ 32 = 2 ^ 31 ∨
        (num / cluster - 1) * draw i % 2 ^ 32 = 2 ^ 31 + 1) ∧
      (num / cluster = 1 → q = 0) ∧ (num / cluster = 2 → 0 ≤ q) := by
  have hpos : 1 ≤ num / cluster := Nat.div_pos hle hcluster
  have hlt : num / cluster * i < num :=
    (Nat.mul_lt_mul_of_pos_left hi hpos).trans_le (Nat.div_mul_le_self _ _)
  obtain ⟨q, hq, hlow, hhigh, hneg, hzero⟩ := tdiv_wrap_cases ((num / cluster - 1) * draw i)
  refine ⟨q, ?_, hlow, hhigh, hneg, fun h => hzero (by simp [h]), fun h => ?_⟩
  · have hcast : ((num : ℤ) / cluster - 1) * draw i = ((num / cluster - 1) * draw i : ℕ) := by
      push_cast [hpos]
      rfl
    have hstart : wrap (num / cluster * i : ℕ) = (num / cluster * i : ℕ) :=
      wrap_of_lt (by omega) (by omega)
    simp only [select]
    rw [hcast, hq, ← natCast_div, ← Nat.cast_mul, hstart, wrap_of_lt] <;> omega
  · -- the product is the draw itself
    rw [h, Nat.one_mul] at hneg
    have := hdraw i
    omega

/-- The seeds are samples and different ones, just where the products fit. -/
theorem select_valid_iff (mode : InitMode) (hdraw : ∀ i, draw i < 2 ^ 31) :
    ((∀ i < cluster, 0 ≤ select num cluster draw i mode ∧ select num cluster draw i mode < num) ∧
      ∀ i < cluster, ∀ j < i, select num cluster draw i mode ≠ select num cluster draw j mode) ↔
      Fits num cluster draw mode := by
  have hpos : 1 ≤ num / cluster := Nat.div_pos hle hcluster
  have hdiv := Nat.div_mul_le_self num cluster
  have hnext : ∀ {i j}, j < i → num / cluster * j + num / cluster ≤ num / cluster * i :=
    fun h => Nat.mul_le_mul_left _ h
  cases mode with
  | random =>
    simp only [Fits]
    have hcases := fun i (hi : i < cluster) => select_random_cases hcluster hle hnum hdraw hi
    constructor
    · rintro ⟨h, -⟩
      obtain ⟨q, hq, -, -, hneg, -⟩ := hcases 0 hcluster
      have := (h 0 hcluster).1
      rw [hq, Nat.mul_zero] at this
      omega
    · intro h
      refine ⟨fun i hi => ?_, fun i hi j hj => ?_⟩
      · obtain ⟨q, hq, hlow, hhigh, hneg, hone, htwo⟩ := hcases i hi
        have hend := hnext hi
        rw [hq]
        rcases Nat.eq_zero_or_pos i with rfl | h0
        · rw [Nat.mul_zero] at *
          omega
        · have hstart := hnext h0
          omega
      · obtain ⟨q, hq, hlow, hhigh, hneg, hone, htwo⟩ := hcases i hi
        obtain ⟨q', hq', hlow', hhigh', hneg', hone', htwo'⟩ := hcases j (hj.trans hi)
        have hbetween := hnext hj
        rw [hq, hq']
        omega
  | uniform =>
    simp only [Fits]
    constructor
    · rintro ⟨hrange, hdistinct⟩
      by_contra! hover
      -- the first product that is not an `int` is read as a negative number
      obtain ⟨i, hi, hlow, hhigh⟩ : ∃ i < cluster, 2 ^ 31 ≤ i * num ∧ i * num < 2 ^ 31 + num := by
        refine ⟨(2 ^ 31 - 1) / num + 1, ?_, ?_, ?_⟩
        · have := (Nat.div_lt_iff_lt_mul (hcluster.trans hle)).mpr
            (show 2 ^ 31 - 1 < (cluster - 1) * num by omega)
          omega
        · have := Nat.lt_div_mul_add (a := 2 ^ 31 - 1) (hcluster.trans hle)
          rw [Nat.succ_mul]
          omega
        · have := Nat.div_mul_le_self (2 ^ 31 - 1) num
          rw [Nat.succ_mul]
          omega
      have hneg : select num cluster draw i .uniform ≤ 0 := by
        have hwrap : wrap (i * num : ℕ) = -(2 ^ 32 - i * num : ℕ) := by
          unfold wrap
          rw [bmod_def]
          split <;> omega
        rw [select, ← Nat.cast_mul, hwrap, Int.neg_tdiv, ← Int.ofNat_tdiv]
        exact neg_nonpos_of_nonneg (natCast_nonneg _)
      have hzero : select num cluster draw 0 .uniform = 0 := by
        rw [select_uniform_of_lt (by omega), Nat.zero_mul, Nat.zero_div]
        rfl
      have hi0 : 0 < i := by
        by_contra h0
        rw [Nat.eq_zero_of_not_pos h0] at hlow
        omega
      exact hdistinct i hi 0 hi0 ((hneg.antisymm (hrange i hi).1).trans hzero.symm)
    · intro h
      have hselect : ∀ i < cluster, select num cluster draw i .uniform = (i * num / cluster : ℕ) :=
        fun i hi => select_uniform_of_lt
          ((Nat.mul_le_mul_right num (Nat.le_sub_one_of_lt hi)).trans_lt h)
      refine ⟨fun i hi => ?_, fun i hi j hj => ?_⟩
      · rw [hselect i hi]
        exact ⟨natCast_nonneg _, Nat.cast_lt.mpr (Nat.div_lt_of_lt_mul
          (Nat.mul_lt_mul_of_pos_right hi (hcluster.trans hle)))⟩
      · have hgap : j * num + cluster ≤ i * num :=
          (Nat.add_le_add_left hle _).trans
            ((Nat.succ_mul j num).ge.trans (Nat.mul_le_mul_right num hj))
        have := Nat.div_le_div_right (c := cluster) hgap
        rw [Nat.add_div_right _ hcluster] at this
        rw [hselect i hi, hselect j (hj.trans hi)]
        omega

end Seeds

/-- One cluster of three samples, and a draw of half of `RAND_MAX`. -/
theorem select_negative : select 3 1 (fun _ => 2 ^ 30) 0 .random = -1 := by decide

theorem select_valid_ten : 0 ≤ select 10 3 (fun _ => 7) 2 .uniform ∧
    select 10 3 (fun _ => 7) 2 .uniform < 10 := by
  have hfits : Fits 10 3 (fun _ => 7) .uniform := show 2 * 10 < 2 ^ 31 by decide
  exact ((select_valid_iff (by decide) (by decide) (by decide) _ fun _ => by decide).mpr hfits).1
    2 (by decide)

end Base
