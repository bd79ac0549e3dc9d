import Mathlib.Algebra.Order.BigOperators.Group.List
import Mathlib.Algebra.Order.Ring.Rat
import Mathlib.Data.List.ProdSigma
import Mathlib.Data.Vector.Basic
import Mathlib.Tactic.Linarith
import Mathlib.Tactic.Positivity

/-!
# Hidden Markov models

`HMM` keeps `state_num_` rows of `state_num_ + 1` transition values in one vector, the last of a row
for ending in its state, and reads them at `i * state_num_ + j`. The last value of a row is thus the
first one of the next. `HMM::Train` counts the transitions at these places too but adds up the rows
at `i * (state_num_ + 1)`, and has the relative frequencies with one state only. `HMM::Decode` finds
a best sequence of states for the values as they are read. The model files are written with a label
that is not read again.
-/

namespace Base

open List

/-! ## Re-estimation -/

section Train

variable (n : ℕ)

/-- The transitions of the decoded sequences. -/
def steps (seqs : List (List ℕ)) : List (ℕ × ℕ) := seqs.flatMap fun s => s.zip s.tail

/-- The states in which they end. -/
def ends (seqs : List (List ℕ)) : List ℕ := seqs.filterMap getLast?

/-- `state_tran_num`: the rows have `n + 1` columns and are counted `n` apart. -/
def tranNum (seqs : List (List ℕ)) (cell : ℕ) : ℕ :=
  ((steps seqs).map fun p => p.1 * n + p.2).count cell + ((ends seqs).map (· * n + n)).count cell

/-- The sum over a row, where the rows are taken to be `n + 1` apart. -/
def rowCount (seqs : List (List ℕ)) (i : ℕ) : ℕ :=
  ((range (n + 1)).map fun j => tranNum n seqs (i * (n + 1) + j)).sum

/-- The cells that the row `i` writes. -/
def writeRow (seqs : List (List ℕ)) (tran : ℕ → ℚ) (i : ℕ) : ℕ → ℚ :=
  if 0 < rowCount n seqs i then fun cell =>
    if i * n ≤ cell ∧ cell ≤ i * n + n then tranNum n seqs cell / rowCount n seqs i else tran cell
  else tran

/-- `state_tran_` after a pass of `HMM::Train`. -/
def reestimate (seqs : List (List ℕ)) (tran : ℕ → ℚ) : ℕ → ℚ :=
  (range n).foldl (writeRow n seqs) tran

def getStateTrans (tran : ℕ → ℚ) (i j : ℕ) : ℚ := tran (i * n + j)

def getStateFinal (tran : ℕ → ℚ) (i : ℕ) : ℚ := tran (i * n + n)

def departures (seqs : List (List ℕ)) (i : ℕ) : ℕ :=
  (steps seqs).countP (·.1 = i) + (ends seqs).count i

/-- The relative frequencies of what follows each state. -/
def Estimated (seqs : List (List ℕ)) (tran : ℕ → ℚ) : Prop :=
  ∀ i < n, 0 < departures seqs i →
    (∀ j < n, getStateTrans n tran i j = (steps seqs).count (i, j) / departures seqs i) ∧
      getStateFinal n tran i = (ends seqs).count i / departures seqs i ∧
      ((range (n + 1)).map (getStateTrans n tran i)).sum = 1

/-- With one state there is one row, whatever the stride. -/
theorem estimated_one {seqs : List (List ℕ)} (hseqs : ∀ s ∈ seqs, ∀ a ∈ s, a = 0) (tran : ℕ → ℚ) :
    Estimated 1 seqs (reestimate 1 seqs tran) := by
  have hsteps : steps seqs = replicate (steps seqs).length (0, 0) := by
    refine eq_replicate_iff.mpr ⟨rfl, fun p hp => ?_⟩
    obtain ⟨s, hs, hp⟩ := mem_flatMap.mp hp
    obtain ⟨h₁, h₂⟩ := of_mem_zip hp
    exact Prod.ext (hseqs s hs _ h₁) (hseqs s hs _ (mem_of_mem_tail h₂))
  have hends : ends seqs = replicate (ends seqs).length 0 := by
    refine eq_replicate_iff.mpr ⟨rfl, fun a ha => ?_⟩
    obtain ⟨s, hs, ha⟩ := mem_filterMap.mp ha
    exact hseqs s hs a (mem_of_getLast? ha)
  intro i hi hdep
  obtain rfl : i = 0 := by omega
  generalize (steps seqs).length = k at hsteps
  generalize (ends seqs).length = e at hends
  have hdep' : departures seqs 0 = k + e := by simp [departures, hsteps, hends, countP_replicate]
  have hcells : tranNum 1 seqs 0 = k ∧ tranNum 1 seqs 1 = e := by
    simp [tranNum, hsteps, hends, count_replicate]
  have hcount : rowCount 1 seqs 0 = k + e := by simp [rowCount, range_succ, hcells]
  have hrow : reestimate 1 seqs tran = writeRow 1 seqs tran 0 := rfl
  rw [hdep'] at hdep
  have hne : (k + e : ℚ) ≠ 0 := by exact_mod_cast hdep.ne'
  simp [getStateTrans, getStateFinal, hrow, writeRow, hcount, hdep, hdep', hcells, hsteps, hends,
    range_succ, ← add_div, hne]

/-- The end of the first state is counted where the second row begins. -/
theorem foldl_writeRow_pos {seqs : List (List ℕ)} {cell : ℕ} (hcell : 0 < tranNum n seqs cell)
    (rows : List ℕ) {tran : ℕ → ℚ} (htran : 0 < tran cell) :
    0 < rows.foldl (writeRow n seqs) tran cell := by
  induction rows generalizing tran with
  | nil => exact htran
  | cons i rows ih =>
    refine ih ?_
    unfold writeRow
    split
    case isTrue hrow =>
      dsimp only
      split
      · positivity
      · exact htran
    case isFalse => exact htran

/-- Re-estimation gives the relative frequencies with one state, and with no more. -/
theorem estimated_iff (hn : 1 ≤ n) :
    (∀ seqs : List (List ℕ), (∀ s ∈ seqs, s ≠ [] ∧ ∀ a ∈ s, a < n) →
      ∀ tran, Estimated n seqs (reestimate n seqs tran)) ↔ n = 1 := by
  constructor
  · intro h
    by_contra hne
    obtain ⟨m, rfl⟩ := Nat.exists_eq_add_of_le' hn
    have hend : 0 < tranNum (m + 1) [[0], [1]] (m + 1) :=
      Nat.add_pos_right _ (count_pos_iff.mpr (by simp [ends]))
    have hcount : 0 < rowCount (m + 1) [[0], [1]] 0 :=
      hend.trans_le (single_le_sum (by simp) _ (mem_map.mpr ⟨m + 1, by simp, by simp⟩))
    have hfirst : 0 < writeRow (m + 1) [[0], [1]] 0 0 (m + 1) := by
      rw [writeRow, if_pos hcount, if_pos (by omega)]
      positivity
    have hpos := foldl_writeRow_pos _ hend ((range m).map Nat.succ) hfirst
    have hzero := (h [[0], [1]] (by simp; omega) 0 1 (by omega) (by decide)).1 0 (by omega)
    rw [getStateTrans, reestimate, range_succ_eq_map, foldl_cons, one_mul] at hzero
    exact hpos.ne' (hzero.trans (by simp [steps]))
  · rintro rfl seqs h tran
    exact estimated_one (fun s hs a ha => Nat.lt_one_iff.mp ((h s hs).2 a ha)) tran

theorem estimated_iff_alone : Estimated 1 [[0, 0]] (reestimate 1 [[0, 0]] 0) :=
  (estimated_iff 1 le_rfl).mpr rfl [[0, 0]] (by decide) 0

/-- The end of the first state is read as a transition from the second one. -/
theorem final_read_as_transition : ¬ Estimated 2 [[0], [1]] (reestimate 2 [[0], [1]] 0) ∧
      getStateTrans 2 (reestimate 2 [[0], [1]] 0) 1 0 = 1 := by
  have hcell : getStateTrans 2 (reestimate 2 [[0], [1]] 0) 1 0 = 1 := by decide +kernel
  refine ⟨fun h => ?_, hcell⟩
  have hzero := (h 1 (by decide) (by decide)).1 0 (by decide)
  rw [hcell] at hzero
  exact absurd hzero (by decide +kernel)

end Train

/-! ## Decoding -/

/-- The logarithms that `HMM::Decode` adds, of the transitions by their place in the vector.
`LogProb` gives none below -20. -/
structure LogProbs where
  init : ℕ → ℚ
  emit : ℕ → ℕ → ℚ
  tran : ℕ → ℚ
  init_le : ∀ j, -20 ≤ init j
  emit_le : ∀ i j, -20 ≤ emit i j
  tran_le : ∀ cell, -20 ≤ tran cell

/-- `-1e308`, for minus infinity. -/
def lowest : ℚ := -10 ^ 308

/-- The first state with the largest of `n` values above `lowest`. -/
def argmax (n : ℕ) (f : ℕ → ℚ) : ℚ × ℕ :=
  (range n).foldl (fun best k => if f k > best.1 then (f k, k) else best) (lowest, 0)

theorem argmax_succ (n : ℕ) (f : ℕ → ℚ) :
    argmax (n + 1) f = if f n > (argmax n f).1 then (f n, n) else argmax n f := by
  rw [argmax, range_succ, foldl_append]
  rfl

theorem le_argmax {n k : ℕ} (f : ℕ → ℚ) (hk : k < n) : f k ≤ (argmax n f).1 := by
  induction n with
  | zero => cases hk
  | succ n ih =>
    rw [argmax_succ]
    rcases Nat.lt_succ_iff_lt_or_eq.mp hk with hk | rfl <;> split
    · exact (ih hk).trans (le_of_lt ‹_›)
    · exact ih hk
    · rfl
    · exact not_lt.mp ‹_›

theorem argmax_attained {n : ℕ} (hn : 0 < n) {f : ℕ → ℚ} (hf : lowest < f 0) :
    (argmax n f).2 < n ∧ (argmax n f).1 = f (argmax n f).2 := by
  induction n, hn using Nat.le_induction with
  | base => simp [argmax, hf]
  | succ n hn ih =>
    rw [argmax_succ]
    split
    · exact ⟨n.lt_succ_self, rfl⟩
    · exact ⟨ih.1.trans n.lt_succ_self, ih.2⟩

namespace LogProbs

variable (p : LogProbs) (n : ℕ)

/-- `curr_logp` at a position. -/
def logp : ℕ → ℕ → ℚ
  | 0, j => p.init j + p.emit 0 j
  | i + 1, j => (argmax n fun k => logp i k + getStateTrans n p.tran k j).1 + p.emit (i + 1) j

/-- `path`: the state before. -/
def path (i j : ℕ) : ℕ := (argmax n fun k => logp p n i k + getStateTrans n p.tran k j).2

/-- The states pushed from a last one back to the first. -/
def pushed : ℕ → ℕ → List ℕ
  | 0, j => [j]
  | i + 1, j => j :: pushed i (path p n i j)

/-- `HMM::Decode` of `size` observations, without a bound on the numbers: the states, and the value
that the probability is computed from. -/
def viterbi (size : ℕ) : List ℕ × ℚ :=
  let final := argmax n (logp p n (size - 1))
  ((pushed p n (size - 1) final.2).reverse, final.1)

/-- The largest `int`s of `HMM::Decode` do not overflow: the size of `path`, and, in the recursion,
the last place in `state_tran_` and the offset of the last observation. -/
def Fits (dim n size : ℕ) : Prop :=
  size * n < 2 ^ 31 ∧ (1 < size → n * n ≤ 2 ^ 31 ∧ (size - 1) * dim < 2 ^ 31)

instance (dim n size : ℕ) : Decidable (Fits dim n size) := inferInstanceAs (Decidable (_ ∧ (_ → _)))

/-- `HMM::Decode` of `size` observations of `dim` values; nothing is said of a run in which an `int`
overflows. -/
def decode (dim size : ℕ) : Option (List ℕ × ℚ) :=
  if Fits dim n size then some (viterbi p n size) else none

/-- The score of a sequence of states, given from its last one back. -/
def score : List ℕ → ℚ
  | [] => 0
  | [j] => p.init j + p.emit 0 j
  | j :: k :: rest => score (k :: rest) + getStateTrans n p.tran k j + p.emit (rest.length + 1) j

/-- There is a state for each observation, and no other sequence of states has a larger score. -/
structure Optimal (size : ℕ) (states : List ℕ) (value : ℚ) : Prop where
  length_eq : states.length = size
  lt : ∀ s ∈ states, s < n
  score_eq : p.score n states.reverse = value
  le : ∀ other : List ℕ, other.length = size → (∀ s ∈ other, s < n) →
    p.score n other.reverse ≤ value

section Viterbi

variable {p n} (hn : 0 < n)
include hn

theorem logp_bound (i j : ℕ) : -(40 * (i + 1) : ℚ) ≤ p.logp n i j := by
  induction i generalizing j with
  | zero =>
    simp only [logp]
    linarith [p.init_le j, p.emit_le 0 j]
  | succ i ih =>
    have hmax := le_argmax (fun k => p.logp n i k + getStateTrans n p.tran k j) hn
    have htran : -20 ≤ getStateTrans n p.tran 0 j := p.tran_le _
    simp only [logp]
    push_cast
    linarith [ih 0, p.emit_le (i + 1) j]

/-- No value comes near the one for minus infinity. -/
theorem lowest_lt {i : ℕ} (hi : i < 2 ^ 31) : lowest < p.logp n i 0 - 20 := by
  have hi' : (i : ℚ) < 2 ^ 31 := by exact_mod_cast hi
  have hbig : (10 : ℚ) ^ 12 ≤ 10 ^ 308 := pow_le_pow_right₀ (by norm_num) (by norm_num)
  have hlowest : lowest ≤ -10 ^ 12 := neg_le_neg hbig
  linarith only [p.logp_bound hn i 0, hi', hlowest]

theorem path_spec {i : ℕ} (hi : i < 2 ^ 31) (j : ℕ) :
    p.path n i j < n ∧ (argmax n fun k => p.logp n i k + getStateTrans n p.tran k j).1 =
      p.logp n i (p.path n i j) + getStateTrans n p.tran (p.path n i j) j := by
  have htran : -20 ≤ getStateTrans n p.tran 0 j := p.tran_le _
  exact argmax_attained hn (by linarith [p.lowest_lt hn hi])

theorem pushed_spec {i j : ℕ} (hi : i < 2 ^ 31) (hj : j < n) :
    (∃ rest, p.pushed n i j = j :: rest ∧ rest.length = i) ∧ (∀ s ∈ p.pushed n i j, s < n) ∧
      p.score n (p.pushed n i j) = p.logp n i j := by
  induction i generalizing j with
  | zero => simpa [pushed, score, logp] using hj
  | succ i ih =>
    have hi := i.lt_succ_self.trans hi
    obtain ⟨hlt, hmax⟩ := p.path_spec hn hi j
    obtain ⟨⟨rest, hrest, hlength⟩, hall, hscore⟩ := ih hi hlt
    refine ⟨⟨_, rfl, by rw [hrest, length_cons, hlength]⟩, by simpa [pushed, hj] using hall, ?_⟩
    rw [hrest] at hscore
    rw [pushed, hrest, score, hscore, hlength, logp, hmax]

omit hn in
theorem score_le {j : ℕ} {rest : List ℕ} (hall : ∀ s ∈ rest, s < n) :
    p.score n (j :: rest) ≤ p.logp n rest.length j := by
  induction rest generalizing j with
  | nil => rfl
  | cons k rest ih =>
    have hscore := ih (j := k) fun s hs => hall s (mem_cons_of_mem _ hs)
    have hmax := le_argmax (fun k => p.logp n rest.length k + getStateTrans n p.tran k j)
      (hall k mem_cons_self)
    rw [score, length_cons, logp]
    linarith

theorem optimal_viterbi {size : ℕ} (hsize : 1 ≤ size) (hsize' : size < 2 ^ 31) :
    p.Optimal n size (p.viterbi n size).1 (p.viterbi n size).2 := by
  obtain ⟨i, rfl⟩ := Nat.exists_eq_add_of_le' hsize
  have hi : i < 2 ^ 31 := by omega
  obtain ⟨hlt, hmax⟩ := argmax_attained hn (f := p.logp n i) (by linarith [p.lowest_lt hn hi])
  obtain ⟨⟨rest, hrest, hlength⟩, hall, hscore⟩ := p.pushed_spec hn hi hlt
  refine ⟨?_, ?_, ?_, fun states hstates hall => ?_⟩
  · simp [viterbi, hrest, hlength]
  · simpa [viterbi] using hall
  · simp [viterbi, hscore, hmax]
  · obtain ⟨j, rest, hrev⟩ := exists_cons_of_length_eq_add_one ((length_reverse ..).trans hstates)
    have hall : ∀ s ∈ j :: rest, s < n := fun s hs => hall s (mem_reverse.mp (hrev ▸ hs))
    have hlength : rest.length = i := by simpa [hstates] using (congrArg length hrev).symm
    rw [hrev]
    refine (p.score_le fun s hs => hall s (mem_cons_of_mem _ hs)).trans ?_
    rw [hlength]
    exact le_argmax _ (hall j mem_cons_self)

end Viterbi

/-- Two states that are seen where their number is; the first one is rather left. -/
def uneven : LogProbs where
  init j := if j = 0 then -1 else -3
  emit i j := if i = j then -1 else -4
  tran cell := if cell = 0 then -5 else -2
  init_le j := by split <;> norm_num
  emit_le i j := by split <;> norm_num
  tran_le cell := by split <;> norm_num

end LogProbs

/-! ## Model files -/

inductive Label
  | hmm | stateNum | gmm | dimNum | mixNum | prior | mean | variance | init | tran
deriving DecidableEq

/-- What is read up to white space. A label stands before and, closing, after what it names. -/
inductive Token
  | label (closing : Bool) (name : Label)
  | num (value : ℚ)
deriving DecidableEq

/-- `GMM`, as far as it is written. -/
structure Gmm where
  dimNum : ℕ
  mixNum : ℕ
  priors : List.Vector ℚ mixNum
  means : List.Vector ℚ (mixNum * dimNum)
  vars : List.Vector ℚ (mixNum * dimNum)

structure Hmm where
  stateNum : ℕ
  stateModel : List.Vector Gmm stateNum
  stateInit : List.Vector ℚ stateNum
  stateTran : ℕ → ℚ

def block (name : Label) (tokens : List Token) : List Token :=
  .label false name :: tokens ++ [.label true name]

def Gmm.write (g : Gmm) : List Token :=
  block .gmm (block .dimNum [.num g.dimNum] ++ block .mixNum [.num g.mixNum] ++
    block .prior (g.priors.toList.map .num) ++ block .mean (g.means.toList.map .num) ++
    block .variance (g.vars.toList.map .num))

/-- `operator <<`. -/
def Hmm.write (h : Hmm) : List Token :=
  block .hmm (block .stateNum [.num h.stateNum] ++ h.stateModel.toList.flatMap Gmm.write ++
    block .init (h.stateInit.toList.map .num) ++
    block .tran ((range h.stateNum ×ˢ range (h.stateNum + 1)).map fun p =>
      .num (getStateTrans h.stateNum h.stateTran p.1 p.2)))

/-- A stream that reads nothing more after a failure. -/
abbrev Reader := StateT (List Token) Option

/-- Into a buffer of characters: any token will do. -/
def readLabel : Reader Token
  | [] => none
  | token :: rest => some (token, rest)

/-- A label that is asserted. -/
def assertLabel (name : Label) : Reader Unit
  | token :: rest => if token = .label false name then some ((), rest) else none
  | [] => none

def readNum : Reader ℚ
  | .num value :: rest => some (value, rest)
  | _ => none

def readInt : Reader ℕ := do
  let value ← readNum
  if value.den = 1 then pure value.num.toNat else failure

def readMany {α : Type} (read : Reader α) : (n : ℕ) → Reader (List.Vector α n)
  | 0 => pure .nil
  | n + 1 => do
    let a ← read
    let as ← readMany read n
    pure (a ::ᵥ as)

def readBlock {α : Type} (read : Reader α) : Reader α := do
  let _ ← readLabel
  let a ← read
  let _ ← readLabel
  pure a

def readGmm : Reader Gmm := do
  assertLabel .gmm
  let dimNum ← readBlock readInt
  let mixNum ← readBlock readInt
  let priors ← readBlock (readMany readNum mixNum)
  let means ← readBlock (readMany readNum (mixNum * dimNum))
  let vars ← readBlock (readMany readNum (mixNum * dimNum))
  let _ ← readLabel
  pure ⟨dimNum, mixNum, priors, means, vars⟩

/-- `operator >>`: no label is read before the transitions. -/
def readHmm : Reader Hmm := do
  assertLabel .hmm
  let stateNum ← readBlock readInt
  let model ← readMany readGmm stateNum
  let init ← readBlock (readMany readNum stateNum)
  let values ← readMany readNum (stateNum * (stateNum + 1))
  let _ ← readLabel
  let _ ← readLabel
  pure ⟨stateNum, model, init, ((range stateNum ×ˢ range (stateNum + 1)).zip values.toList).foldl
    (fun tran p => Function.update tran (p.1.1 * stateNum + p.1.2) p.2) 0⟩

section Count

variable {α β : Type} {read : Reader α} {size : α → ℕ} {ts rest : List Token}

theorem exists_of_bind {f : α → Reader β} {b : β} (h : (read >>= f) ts = some (b, rest)) :
    ∃ a mid, read ts = some (a, mid) ∧ f a mid = some (b, rest) := by
  obtain ⟨⟨a, mid⟩, ha, hf⟩ := Option.bind_eq_some_iff.mp h
  exact ⟨a, mid, ha, hf⟩

/-- How many tokens are read for what is found. -/
def Reads (read : Reader α) (size : α → ℕ) : Prop :=
  ∀ ⦃ts a rest⦄, read ts = some (a, rest) → ts.length = size a + rest.length

theorem reads_readLabel : Reads readLabel fun _ => 1
  | _ :: _, _, _, rfl => add_comm _ _

theorem reads_assertLabel (name : Label) : Reads (assertLabel name) fun _ => 1
  | _ :: _, _, _, h => by
    cases (Option.ite_some_none_eq_some.mp h).2
    exact add_comm _ _

theorem reads_readNum : Reads readNum fun _ => 1
  | .num _ :: _, _, _, rfl => add_comm _ _

theorem reads_readInt : Reads readInt fun _ => 1 := by
  intro ts a rest h
  obtain ⟨q, mid, hq, h⟩ := exists_of_bind h
  rw [reads_readNum hq]
  split at h
  · cases h
    rfl
  · cases h

theorem Reads.block (hread : Reads read size) : Reads (readBlock read) fun a => size a + 2 := by
  intro ts a rest h
  obtain ⟨_, t₁, h₁, h⟩ := exists_of_bind h
  obtain ⟨b, t₂, h₂, h⟩ := exists_of_bind h
  obtain ⟨_, t₃, h₃, h⟩ := exists_of_bind h
  cases h
  simp only [reads_readLabel h₁, hread h₂, reads_readLabel h₃]
  omega

theorem Reads.many (hread : Reads read size) (n : ℕ) :
    Reads (readMany read n) fun as => (as.toList.map size).sum := by
  induction n with
  | zero =>
    intro ts a rest h
    cases h
    simp
  | succ n ih =>
    intro ts a rest h
    obtain ⟨b, t₁, h₁, h⟩ := exists_of_bind h
    obtain ⟨bs, t₂, h₂, h⟩ := exists_of_bind h
    cases h
    simp only [hread h₁, ih h₂, Vector.toList_cons, map_cons, sum_cons, add_assoc]

theorem reads_numbers (n : ℕ) : Reads (readMany readNum n) fun _ => n := by
  intro ts a rest h
  simpa using reads_readNum.many n h

theorem reads_readGmm : Reads readGmm fun g => g.write.length := by
  intro ts g rest h
  obtain ⟨_, t₁, h₁, h⟩ := exists_of_bind h
  obtain ⟨dimNum, t₂, h₂, h⟩ := exists_of_bind h
  obtain ⟨mixNum, t₃, h₃, h⟩ := exists_of_bind h
  obtain ⟨priors, t₄, h₄, h⟩ := exists_of_bind h
  obtain ⟨means, t₅, h₅, h⟩ := exists_of_bind h
  obtain ⟨vars, t₆, h₆, h⟩ := exists_of_bind h
  obtain ⟨_, t₇, h₇, h⟩ := exists_of_bind h
  cases h
  simp only [reads_assertLabel _ h₁, reads_readInt.block h₂, reads_readInt.block h₃,
    (reads_numbers _).block h₄, (reads_numbers _).block h₅, (reads_numbers _).block h₆,
    reads_readLabel h₇, Gmm.write, block, cons_append, length_cons, length_append, length_map,
    Vector.toList_length, length_nil]
  omega

/-- One token less is read than is written for what is found. -/
theorem length_readHmm {h : Hmm} (hread : readHmm ts = some (h, rest)) :
    ts.length + 1 = h.write.length + rest.length := by
  obtain ⟨_, t₁, h₁, hread⟩ := exists_of_bind hread
  obtain ⟨stateNum, t₂, h₂, hread⟩ := exists_of_bind hread
  obtain ⟨model, t₃, h₃, hread⟩ := exists_of_bind hread
  obtain ⟨init, t₄, h₄, hread⟩ := exists_of_bind hread
  obtain ⟨values, t₅, h₅, hread⟩ := exists_of_bind hread
  obtain ⟨_, t₆, h₆, hread⟩ := exists_of_bind hread
  obtain ⟨_, t₇, h₇, hread⟩ := exists_of_bind hread
  cases hread
  simp only [reads_assertLabel _ h₁, reads_readInt.block h₂, reads_readGmm.many _ h₃,
    (reads_numbers _).block h₄, reads_numbers _ h₅, reads_readLabel h₆, reads_readLabel h₇,
    Hmm.write, block, cons_append, length_cons, length_append, length_map, Vector.toList_length,
    length_nil, length_flatMap, length_product, length_range]
  omega

end Count

/-- No model is restored with all of its tokens read. -/
theorem not_restored (h : Hmm) :
    ¬ ∃ h', readHmm h.write = some (h', []) ∧ h'.stateNum = h.stateNum ∧
      h'.stateModel.toList = h.stateModel.toList ∧ h'.stateInit.toList = h.stateInit.toList ∧
      ∀ i < h.stateNum, ∀ j ≤ h.stateNum, getStateTrans h.stateNum h'.stateTran i j =
        getStateTrans h.stateNum h.stateTran i j := by
  rintro ⟨h', hread, hnum, hmodel, -⟩
  have hlength := length_readHmm hread
  have hsame : h'.write.length = h.write.length := by simp [Hmm.write, block, hnum, hmodel]
  rw [hsame, length_nil] at hlength
  omega

/-- A model of one state. -/
def single : Hmm :=
  ⟨1, ⟨[⟨1, 1, ⟨[1], rfl⟩, ⟨[0], rfl⟩, ⟨[1], rfl⟩⟩], rfl⟩, ⟨[1], rfl⟩, fun _ => 1 / 2⟩

theorem single_not_read : (readHmm single.write).isNone := by decide +kernel

end Base
