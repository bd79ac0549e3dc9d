import Mathlib.Data.Nat.Bitwise
import Mathlib.Data.Set.List
import Nori.Brpc.ParallelChannel
import Nori.Transition.System

/-!
# `ParallelChannelDone`: the end of a parallel call

The sub calls of a parallel call end on their own threads, and the call itself is ended once, by its
last sub call, by a cancellation or by a timeout. Each of them arrives at one word: its lower 31
bits count the sub calls, and its highest bit says that `Run` was there. The one that comes last
runs `OnComplete`, which merges the responses.

What `Run` reads to cancel the sub calls that are not done decides nothing here: a sub call may end
with any outcome.
-/

namespace Brpc

open Transition List

variable {ρ : Type}

/-- `ResponseMerger::Result`; without a merger `MergeFrom` merges, which may throw. -/
inductive MergeResult
  | merged
  | fail
  | failAll
  | threw
deriving DecidableEq

/-- What the merger of each sub call makes of the response so far and that of the sub call. -/
abbrev Merger (ρ : Type) := ℕ → ρ → ρ → ρ × MergeResult

/-- The response, `nfailed` and the error code in the loop of `OnComplete`, with the indexes of the
responses that were handed to a merger. -/
structure Merging (ρ : Type) where
  response : ρ
  nfailed : ℕ
  errorCode : ℤ
  results : List (ℕ × MergeResult)

def eresponse : ℤ := 2002

def epchanfinish : ℤ := 1006

/-- The loop over the sub calls. A response that cannot be merged at all leaves it only if
`MergeFrom` throws: the other `break` is that of the `switch`. -/
def mergeLoop (merge : Merger ρ) (ndone : ℕ) : List (SubCall ρ × ℕ) → Merging ρ → Merging ρ
  | [], m => m
  | (.failed _, _) :: subs, m => mergeLoop merge ndone subs m
  | (.replied r, i) :: subs, m =>
    let p := merge i m.response r
    let m := { m with response := p.1, results := m.results ++ [(i, p.2)] }
    match p.2 with
    | .merged => mergeLoop merge ndone subs m
    | .fail => mergeLoop merge ndone subs { m with nfailed := m.nfailed + 1 }
    | .failAll => mergeLoop merge ndone subs { m with nfailed := ndone, errorCode := eresponse }
    | .threw => { m with nfailed := ndone, errorCode := eresponse }

def onComplete (merge : Merger ρ) (limit : ℕ) (m : Merging ρ)
    (subs : List (SubCall ρ)) : Merging ρ :=
  let m := if m.nfailed < limit then mergeLoop merge subs.length subs.zipIdx m else m
  { m with errorCode :=
      if limit ≤ m.nfailed then
        -- an error that was there stays
        if m.errorCode ≠ 0 then m.errorCode else unifiedErrorCode ecanceled subs
      else 0 }

/-- A sub call: running, counted if it has failed, or arrived. -/
inductive SubDone (ρ : Type)
  | running
  | counted (outcome : SubCall ρ)
  | arrived (outcome : SubCall ρ)

namespace SubDone

def isArrived : SubDone ρ → Bool
  | .arrived _ => true
  | _ => false

/-- Whether it has failed and was counted. -/
def isFailed : SubDone ρ → Bool
  | .running => false
  | .counted outcome | .arrived outcome => outcome.isFailed

def outcome? : SubDone ρ → Option (SubCall ρ)
  | .arrived outcome => some outcome
  | _ => none

end SubDone

structure ParallelChannelDone (ρ : Type) where
  subs : List (SubDone ρ)
  currentFail : ℕ
  /-- 32 bits -/
  currentDone : ℕ
  /-- whether `Run` has arrived -/
  ran : Bool
  errorCode : ℤ
  /-- whether `EPCHANFINISH` was sent to the call, so that `Run` comes -/
  finishing : Bool
  /-- the calls of `OnComplete`, as they ended -/
  completed : List (Merging ρ)

namespace ParallelChannelDone

variable {merge : Merger ρ} {init : ρ} {limit n : ℕ} {w w' : ParallelChannelDone ρ}

inductive Event (ρ : Type)
  /-- a sub call ends, and is counted if it failed -/
  | count (i : ℕ) (outcome : SubCall ρ)
  /-- the rest of `OnSubDoneRun` for a sub call -/
  | arrive (i : ℕ)
  /-- `Run`, with the error that caused it -/
  | run (errorCode : ℤ)

def complete (merge : Merger ρ) (init : ρ) (limit : ℕ) (w : ParallelChannelDone ρ) : Merging ρ :=
  onComplete merge limit ⟨init, w.currentFail, w.errorCode, []⟩ (w.subs.filterMap SubDone.outcome?)

def step (merge : Merger ρ) (init : ρ) (limit : ℕ) (w : ParallelChannelDone ρ) :
    Event ρ → Option (ParallelChannelDone ρ)
  | .count i outcome =>
    match w.subs[i]? with
    | some .running => some { w with
        subs := w.subs.set i (.counted outcome)
        currentFail := if outcome.isFailed then w.currentFail + 1 else w.currentFail }
    | _ => none
  | .arrive i =>
    match w.subs[i]? with
    | some (.counted outcome) =>
      let w' := { w with
        subs := w.subs.set i (.arrived outcome)
        currentDone := (w.currentDone + 1) % 2 ^ 32 }
      if (w.currentDone &&& 0x7fffffff) + 1 ≠ w.subs.length then some w'
      else if w.currentDone &&& 0x80000000 = 0 then some { w' with finishing := true }
      else some { w' with completed := w'.complete merge init limit :: w.completed }
    | _ => none
  | .run errorCode =>
    if w.ran = false ∧ (errorCode = epchanfinish → w.finishing = true) then
      let w' := { w with
        errorCode := if errorCode = epchanfinish then 0 else errorCode
        ran := true
        currentDone := w.currentDone ||| 0x80000000 }
      if w.currentDone &&& 0x7fffffff ≠ w.subs.length then some w'
      else some { w' with completed := w'.complete merge init limit :: w.completed }
    else none

def system (merge : Merger ρ) (init : ρ) (limit n : ℕ) : System (ParallelChannelDone ρ) (Event ρ) :=
  System.ofStep ⟨replicate n .running, 0, 0, false, 0, false, []⟩ (step merge init limit)

/-! ## Arrivals -/

def arrivals (w : ParallelChannelDone ρ) : ℕ := w.subs.countP SubDone.isArrived

/-- All sub calls and `Run` have arrived. -/
def Ready (w : ParallelChannelDone ρ) : Prop := w.arrivals = w.subs.length ∧ w.ran = true

instance : Decidable w.Ready := inferInstanceAs (Decidable (_ ∧ _))

theorem land_mask {a : ℕ} (h : a < 2 ^ 31) (ran : Bool) :
    (a + if ran then 2 ^ 31 else 0) &&& 0x7fffffff = a := by
  rw [show 0x7fffffff = 2 ^ 31 - 1 from rfl, Nat.and_two_pow_sub_one_eq_mod]
  split <;> omega

theorem lor_msb {a : ℕ} (h : a < 2 ^ 31) : a ||| 0x80000000 = a + 2 ^ 31 := by
  rw [Nat.lor_comm, Nat.add_comm]
  exact (Nat.two_pow_add_eq_or_of_lt h 1).symm

theorem land_msb {a : ℕ} (h : a < 2 ^ 31) (ran : Bool) :
    (a + if ran then 2 ^ 31 else 0) &&& 0x80000000 = 0 ↔ ran = false := by
  rw [show 0x80000000 = 2 ^ 31 from rfl, Nat.and_two_pow]
  cases ran with
  | false => simp [Nat.testBit_lt_two_pow h]
  | true =>
    rw [if_pos rfl, Nat.add_comm, Nat.testBit_two_pow_add_eq, Nat.testBit_lt_two_pow h]
    simp

/-- The two words say what has arrived, and `OnComplete` has run if and only if all have. -/
structure Inv (merge : Merger ρ) (init : ρ) (limit n : ℕ)
    (w : ParallelChannelDone ρ) : Prop where
  length_eq : w.subs.length = n
  fail_eq : w.currentFail = w.subs.countP SubDone.isFailed
  done_eq : w.currentDone = w.arrivals + if w.ran then 2 ^ 31 else 0
  finishing : w.arrivals = w.subs.length → w.ran = false → w.finishing = true
  completed_eq : w.completed = if w.Ready then [w.complete merge init limit] else []

section Set

variable {i : ℕ} {x y : SubDone ρ} (h : w.subs[i]? = some x)

include h

theorem countP_set (p : SubDone ρ → Bool) (y : SubDone ρ) :
    (w.subs.set i y).countP p + (if p x then 1 else 0) =
      w.subs.countP p + if p y then 1 else 0 := by
  obtain ⟨hi, rfl⟩ := List.getElem?_eq_some_iff.mp h
  have := boole_getElem_le_countP (p := p) hi
  rw [countP_set hi]
  omega

theorem arrivals_lt (hx : x.isArrived = false) : w.arrivals < w.subs.length := by
  refine lt_of_le_of_ne countP_le_length fun hall => ?_
  have := countP_eq_length.mp hall x (mem_of_getElem? h)
  rw [hx] at this
  cases this

end Set

open SubDone

theorem Inv.step (h : Inv merge init limit n w) (hn : n < 2 ^ 31) {event : Event ρ}
    (hstep : w.step merge init limit event = some w') : Inv merge init limit n w' := by
  obtain ⟨hlength, hfail, hdone, hfinishing, hcompleted⟩ := h
  have hle : w.arrivals ≤ w.subs.length := countP_le_length
  -- what the sub calls and `Run` read from the word
  have hmask : w.currentDone &&& 0x7fffffff = w.arrivals := by
    rw [hdone]
    exact land_mask (by omega) _
  have hmsb : w.currentDone &&& 0x80000000 = 0 ↔ w.ran = false := by
    rw [hdone]
    exact land_msb (by omega) _
  have hlor : w.ran = false → w.currentDone ||| 0x80000000 = w.arrivals + 2 ^ 31 := by
    intro hran
    rw [hdone, if_neg (by simp [hran])]
    exact lor_msb (by omega)
  cases event with
  | count i outcome =>
    simp only [ParallelChannelDone.step] at hstep
    split at hstep <;> cases hstep
    rename_i hsub
    have hlt := arrivals_lt hsub rfl
    have harrived := countP_set hsub isArrived (.counted outcome)
    have hfailed := countP_set hsub isFailed (.counted outcome)
    simp only [isArrived, isFailed, arrivals] at harrived hfailed hlt
    constructor <;> grind [Ready, arrivals]
  | arrive i =>
    simp only [ParallelChannelDone.step] at hstep
    split at hstep
    · rename_i outcome hsub
      have hlt := arrivals_lt hsub rfl
      have harrived := countP_set hsub isArrived (.arrived outcome)
      have hfailed := countP_set hsub isFailed (.arrived outcome)
      simp only [isArrived, isFailed, arrivals] at harrived hfailed hlt
      split at hstep
      · cases hstep
        constructor <;> grind [Ready, arrivals]
      · split at hstep <;> cases hstep
        · constructor <;> grind [Ready, arrivals]
        · constructor <;> grind [Ready, arrivals, complete]
    · cases hstep
  | run errorCode =>
    simp only [ParallelChannelDone.step, Option.ite_none_right_eq_some] at hstep
    obtain ⟨⟨hran, -⟩, hstep⟩ := hstep
    split at hstep <;> cases hstep
    · constructor <;> grind [Ready, arrivals]
    · constructor <;> grind [Ready, arrivals, complete]

theorem inv_of_reachable (hpos : 0 < n) (hn : n < 2 ^ 31)
    (h : (system merge init limit n).Reachable w) : Inv merge init limit n w := by
  refine h.invariant ?_ fun w event w' hstep hw => hw.step hn hstep
  rintro w rfl
  have hnone (p : SubDone ρ → Bool) (hp : p .running = false) :
      (replicate n .running).countP p = 0 := by
    rw [countP_replicate, hp]
    rfl
  refine ⟨length_replicate, (hnone _ rfl).symm, (hnone _ rfl).symm, fun hall => ?_,
    (if_neg fun hready => nomatch hready.2).symm⟩
  rw [arrivals, hnone _ rfl, length_replicate] at hall
  omega

end ParallelChannelDone

/-! ## Merging -/

def nfail (results : List (ℕ × MergeResult)) : ℕ := results.countP fun r => decide (r.2 = .fail)

def FailsAll (results : List (ℕ × MergeResult)) : Prop :=
  ∃ r ∈ results, r.2 = .failAll ∨ r.2 = .threw

instance (results : List (ℕ × MergeResult)) : Decidable (FailsAll results) :=
  inferInstanceAs (Decidable (∃ r ∈ results, _))

/-- What the results of mergers count for. -/
def mergeFailures (ndone : ℕ) (results : List (ℕ × MergeResult)) : ℕ :=
  if FailsAll results then ndone else nfail results

/-- The responses of the sub calls that were successful, with their indexes. -/
def replies (subs : List (SubCall ρ × ℕ)) : List (ρ × ℕ) :=
  subs.filterMap fun sub => sub.1.response?.map (·, sub.2)

/-- Every response was handed to its merger, in order. -/
def Merged (merge : Merger ρ) (response : ρ) (subs : List (SubCall ρ × ℕ))
    (m : Merging ρ) (results : List (ℕ × MergeResult)) : Prop :=
  results.map Prod.fst = (replies subs).map Prod.snd ∧
    m.response = (replies subs).foldl (fun acc r => (merge r.2 acc r.1).1) response

/-- Every response is merged, unless all count as failed. -/
theorem mergeLoop_spec (merge : Merger ρ) (ndone : ℕ)
    (subs : List (SubCall ρ × ℕ)) (m : Merging ρ) :
    ∃ results, (mergeLoop merge ndone subs m).results = m.results ++ results ∧
      if FailsAll results then ndone ≤ (mergeLoop merge ndone subs m).nfailed
      else (mergeLoop merge ndone subs m).nfailed = m.nfailed + nfail results ∧
        Merged merge m.response subs (mergeLoop merge ndone subs m) results := by
  have hcons (result : MergeResult) (i : ℕ) (results : List (ℕ × MergeResult)) :
      (FailsAll ((i, result) :: results) ↔
        (result = .failAll ∨ result = .threw) ∨ FailsAll results) ∧
      nfail ((i, result) :: results) = nfail results + if result = .fail then 1 else 0 := by
    simp [FailsAll, nfail, countP_cons]
  fun_induction mergeLoop merge ndone subs m with
  | case1 m => exact ⟨[], by simp [FailsAll, nfail, replies, Merged]⟩
  | case2 ec _ subs m ih => exact ih
  | case3 r i subs m p m' hp ih
  | case4 r i subs m p m' hp ih
  | case5 r i subs m p m' hp ih =>
    obtain ⟨results, hresults, hrest⟩ := ih
    refine ⟨(i, p.2) :: results, by simpa [m'] using hresults, ?_⟩
    have hreplies : replies ((.replied r, i) :: subs) = (r, i) :: replies subs := rfl
    grind [Merged]
  | case6 r i subs m p m' hp => exact ⟨[(i, p.2)], rfl, by grind⟩

theorem unifiedErrorCode_ne_zero {unified : ℤ} (h : unified ≠ 0) (subs : List (SubCall ρ)) :
    unifiedErrorCode unified subs ≠ 0 := by
  fun_induction unifiedErrorCode unified subs with
  | case1 => exact h
  | case2 _ _ hcode ih => exact ih hcode.1
  | case3 => decide
  | case4 _ _ _ _ _ _ ih => exact ih h
  | case5 _ _ _ _ ih => exact ih h

theorem onComplete_spec {limit : ℕ} {merge : Merger ρ} {subs : List (SubCall ρ)}
    (hlimit : limit ≤ subs.length) {m c : Merging ρ} (hm : m.results = [])
    (hc : onComplete merge limit m subs = c) :
    (c.errorCode = 0 ↔ m.nfailed + mergeFailures subs.length c.results < limit) ∧
      (c.errorCode = 0 → Merged merge m.response subs.zipIdx c c.results) := by
  subst hc
  have hfailed := unifiedErrorCode_ne_zero (show ecanceled ≠ 0 by decide) subs
  obtain ⟨results, hresults, hrest⟩ := mergeLoop_spec merge subs.length subs.zipIdx m
  rw [hm, nil_append] at hresults
  unfold onComplete mergeFailures
  by_cases hless : m.nfailed < limit
  · simp only [if_pos hless, hresults]
    split at hrest
    · grind
    · exact ⟨by grind, fun _ => hrest.2⟩
  · grind

namespace ParallelChannelDone

variable {merge : Merger ρ} {init : ρ} {limit n : ℕ} {w : ParallelChannelDone ρ}

theorem exists_outcomes {subs : List (SubDone ρ)}
    (h : subs.countP SubDone.isArrived = subs.length) :
    ∃ outcomes : List (SubCall ρ), subs = outcomes.map .arrived := by
  have hmem : subs ∈ Set.range (map SubDone.arrived) := by
    rw [Set.range_list_map]
    intro sub hsub
    have harrived := countP_eq_length.mp h sub hsub
    cases sub with
    | arrived outcome => exact ⟨outcome, rfl⟩
    | running => cases harrived
    | counted outcome => cases harrived
  obtain ⟨outcomes, rfl⟩ := hmem
  exact ⟨outcomes, rfl⟩

/-- **The rendezvous.** Whatever the order is in which the sub calls and `Run` arrive, `OnComplete`
has run once when all have arrived and not before, and the last sub call lets `Run` come if nothing
else has. The call is successful if and only if the sub calls that failed and the responses that
could not be merged are fewer than the limit; then every response of a successful sub call was
merged. -/
theorem rendezvous (hpos : 1 ≤ limit) (hlimit : limit ≤ n) (hn : n < 2 ^ 31)
    (h : (system merge init limit n).Reachable w) :
    w.completed.length = (if w.Ready then 1 else 0) ∧
      (w.arrivals = n → w.ran = false → w.finishing = true) ∧
      ∀ c ∈ w.completed, ∃ outcomes : List (SubCall ρ), w.subs = outcomes.map .arrived ∧
        (c.errorCode = 0 ↔ outcomes.countP SubCall.isFailed + mergeFailures n c.results < limit) ∧
        (c.errorCode = 0 → Merged merge init outcomes.zipIdx c c.results) := by
  have hinv := inv_of_reachable (hpos.trans hlimit) hn h
  have hlength := hinv.length_eq
  refine ⟨?_, hlength ▸ hinv.finishing, fun c hc => ?_⟩
  · rw [hinv.completed_eq]
    split <;> rfl
  · rw [hinv.completed_eq] at hc
    split at hc
    · rename_i hready
      obtain ⟨outcomes, houtcomes⟩ := exists_outcomes hready.1
      have hcount : outcomes.length = n := by rw [← hlength, houtcomes, length_map]
      have hcomplete := mem_singleton.mp hc
      rw [complete, hinv.fail_eq, houtcomes, countP_map, filterMap_map] at hcomplete
      have houtcome : SubDone.outcome? ∘ SubDone.arrived (ρ := ρ) = some := rfl
      rw [houtcome, filterMap_some] at hcomplete
      have hspec := onComplete_spec (hcount ▸ hlimit) rfl hcomplete.symm
      exact ⟨outcomes, houtcomes, hcount ▸ hspec⟩
    · cases hc

theorem rendezvous_oneFailed :
    ∃ w, (system (fun _ _ _ => ((), .merged)) () 2 2).Reachable w ∧ w.currentFail = 1 ∧
      w.completed.length = 1 := by
  have hrun : (system (fun _ _ _ => ((), .merged)) () 2 2).Reachable _ := ⟨_, rfl,
    System.run_of_foldlM (show [.count 0 (.replied ()), .count 1 (.failed 112), .arrive 1,
      .arrive 0, .run epchanfinish].foldlM _ _ = _ from rfl)⟩
  exact ⟨_, hrun, rfl,
    (rendezvous (by decide) le_rfl (by decide) hrun).1.trans (if_pos ⟨rfl, rfl⟩)⟩

end ParallelChannelDone

end Brpc
