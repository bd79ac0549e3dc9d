import Mathlib.Algebra.Order.BigOperators.Group.List
import Mathlib.Algebra.Ring.Nat

/-!
# Seeding the Game of Life

`LifeGameRunner::InitGame` seeds the board from several threads, each with its share of the cells to
set and with its own rows. The rows are divided evenly and the last worker takes the rest. Where
there are more workers than rows all rows are the last one's, but the cells to set are shared among
all of them: a worker without rows draws a row from none, and takes a remainder by zero.
-/

namespace YiNuo

open List

/-- `RandGenerator` on `uint64_t`: no value where the modulus is zero. -/
def randGenerator (draw min max : ℕ) : Option ℕ :=
  let modulus := (max + 1 + 2 ^ 64 - min) % 2 ^ 64
  if modulus = 0 then none else some ((min + draw % modulus) % 2 ^ 64)

/-- The cell that an iteration of `InitRandom` sets, as (row, column). -/
def drawCell (x start stop : ℕ) (draw : ℕ × ℕ) : Option (ℕ × ℕ) := do
  -- `x_ - 1` and `end - 1` are converted to `uint64_t`
  let column ← randGenerator draw.1 0 ((x + (2 ^ 64 - 1)) % 2 ^ 64)
  let row ← randGenerator draw.2 start ((stop + (2 ^ 64 - 1)) % 2 ^ 64)
  some (row, column)

def initRandom (x number start stop : ℕ) (draws : ℕ → ℕ × ℕ) : List (Option (ℕ × ℕ)) :=
  (range number).map fun k => drawCell x start stop (draws k)

/-- The first row of the worker `index` of `num`. -/
def start (y num index : ℕ) : ℕ := y / num * index

def stop (y num index : ℕ) : ℕ := if index ≠ num - 1 then y / num * (index + 1) else y

/-- How many cells the worker is to set. -/
def share (initNumber num index : ℕ) : ℕ :=
  if index ≠ num - 1 then initNumber / num else initNumber - initNumber / num * (num - 1)

/-- `InitGame`: what the `InitRunner` workers set, each from its own stream of draws. -/
def initGame (x y initNumber num : ℕ) (draws : ℕ → ℕ → ℕ × ℕ) : List (Option (ℕ × ℕ)) :=
  (range num).flatMap fun i =>
    initRandom x (share initNumber num i) (start y num i) (stop y num i) (draws i)

theorem randGenerator_eq {draw first last : ℕ} (hle : first ≤ last) (hlast : last < 2 ^ 31) :
    randGenerator draw first ((last + (2 ^ 64 - 1)) % 2 ^ 64) =
      if first = last then none else some (first + draw % (last - first)) := by
  have hmodulus : ((last + (2 ^ 64 - 1)) % 2 ^ 64 + 1 + 2 ^ 64 - first) % 2 ^ 64 =
      last - first := by
    omega
  simp only [randGenerator, hmodulus]
  split
  · rw [if_pos (by omega)]
  · have := Nat.mod_lt draw (show last - first > 0 by omega)
    rw [if_neg (by omega), Nat.mod_eq_of_lt (by omega)]

theorem drawCell_inBounds_iff {x y first last : ℕ} (hx : 0 < x) (hx' : x < 2 ^ 31)
    (hle : first ≤ last) (hlast : last ≤ y) (hy : y < 2 ^ 31) (draw : ℕ × ℕ) :
    (∃ c, drawCell x first last draw = some c ∧ c.1 < y ∧ c.2 < x) ↔ first < last := by
  simp only [drawCell, randGenerator_eq (Nat.zero_le x) hx', randGenerator_eq hle (by omega),
    if_neg hx.ne]
  have hcolumn := Nat.mod_lt draw.1 hx
  split
  · simp
    omega
  · have hrow := Nat.mod_lt draw.2 (show last - first > 0 by omega)
    simp
    omega

section Workers

variable {y num index : ℕ}

theorem start_le_stop (hindex : index < num) : start y num index ≤ stop y num index := by
  unfold start stop
  split
  · exact Nat.mul_le_mul_left _ index.le_succ
  · exact (Nat.mul_le_mul_left _ hindex.le).trans (Nat.div_mul_le_self y num)

theorem stop_le (hindex : index < num) : stop y num index ≤ y := by
  unfold stop
  split
  · exact (Nat.mul_le_mul_left _ hindex).trans (Nat.div_mul_le_self y num)
  · exact le_rfl

/-- Only the last worker has rows where there are more workers than rows. -/
theorem start_lt_stop_iff (hy : 0 < y) (hindex : index < num) :
    start y num index < stop y num index ↔ num ≤ y ∨ index = num - 1 := by
  unfold start stop
  split
  case isTrue h =>
    rw [Nat.mul_succ, Nat.lt_add_right_iff_pos, Nat.div_pos_iff, or_iff_left h]
    omega
  case isFalse h =>
    refine iff_of_true ?_ (.inr (not_not.mp h))
    rcases Nat.eq_zero_or_pos (y / num) with h0 | h0
    · rwa [h0, Nat.zero_mul]
    · exact (Nat.mul_lt_mul_of_pos_left hindex h0).trans_le (Nat.div_mul_le_self y num)

theorem sum_share (initNumber : ℕ) (hnum : 0 < num) :
    ((range num).map (share initNumber num)).sum = initNumber := by
  obtain ⟨k, rfl⟩ := Nat.exists_eq_add_of_lt hnum
  rw [zero_add]
  have hle : initNumber / (k + 1) * k ≤ initNumber :=
    (Nat.mul_le_mul_left _ k.le_succ).trans (Nat.div_mul_le_self _ _)
  have hfirst : (range k).map (share initNumber (k + 1)) = replicate k (initNumber / (k + 1)) := by
    refine eq_replicate_iff.mpr ⟨by simp, ?_⟩
    simp only [mem_map, mem_range]
    rintro _ ⟨i, hi, rfl⟩
    exact if_pos (by omega)
  rw [range_succ, map_append, hfirst, sum_append, sum_replicate_nat, map_singleton, sum_singleton,
    share, if_neg (by omega), Nat.mul_comm, Nat.add_sub_cancel, Nat.add_sub_of_le hle]

/-- Every cell is on the board, and the shares are what is to be set, just where every worker that
has a cell to set has a row. -/
theorem initGame_inBounds_iff {x initNumber : ℕ} (hx : 1 ≤ x) (hx' : x < 2 ^ 31) (hy : 1 ≤ y)
    (hy' : y < 2 ^ 31) (hnum : 1 ≤ num) (draws : ℕ → ℕ → ℕ × ℕ) :
    ((∀ o ∈ initGame x y initNumber num draws, ∃ c, o = some c ∧ c.1 < y ∧ c.2 < x) ∧
      ((range num).map (share initNumber num)).sum = initNumber) ↔
      num ≤ y ∨ initNumber < num := by
  have hcell : ∀ i < num, ∀ draw, (∃ c, drawCell x (start y num i) (stop y num i) draw = some c ∧
      c.1 < y ∧ c.2 < x) ↔ num ≤ y ∨ i = num - 1 := fun i hi draw =>
    (drawCell_inBounds_iff hx hx' (start_le_stop hi) (stop_le hi) hy' draw).trans
      (start_lt_stop_iff hy hi)
  rw [and_iff_left (sum_share initNumber hnum)]
  simp only [initGame, initRandom, mem_flatMap, mem_map, mem_range]
  constructor
  · intro h
    by_contra! hcon
    -- the first worker has no row, and at least one cell to set
    have hshare : 0 < share initNumber num 0 := by
      rw [share, if_pos (by omega)]
      exact Nat.div_pos hcon.2 hnum
    have hfirst := (hcell 0 hnum _).mp (h _ ⟨0, hnum, 0, hshare, rfl⟩)
    omega
  · rintro h _ ⟨i, hi, k, hk, rfl⟩
    refine (hcell i hi _).mpr ?_
    by_contra! hcon
    rw [share, if_pos hcon.2, Nat.div_eq_of_lt (by omega)] at hk
    omega

theorem initGame_inBounds_pair :
    (∀ o ∈ initGame 4 3 5 2 fun _ k => (k, 7), ∃ c, o = some c ∧ c.1 < 3 ∧ c.2 < 4) ∧
      ((range 2).map (share 5 2)).sum = 5 :=
  (initGame_inBounds_iff (by decide) (by decide) (by decide) (by decide) (by decide) _).mpr
    (.inl (by decide))

/-- Two threads on a board of one row. -/
theorem idle_worker_divides : none ∈ initGame 1 1 2 2 fun _ _ => (0, 0) := by decide

end Workers

end YiNuo
