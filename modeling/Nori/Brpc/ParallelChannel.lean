import Mathlib.Data.Int.Notation
import Mathlib.Data.List.Basic

/-!
# `brpc::ParallelChannel`

A call through a parallel channel goes to every sub channel. It fails once the number of sub calls
that failed reaches the fail limit, which is all of them unless an option says otherwise. Else the
responses of the sub calls that succeeded are merged one after the other into the caller's.

A caller may have a call mapper give every sub call a request and a response of its own, and a
response merger that merges nothing; otherwise there is neither. A sub call that was cancelled or
timed out is one that failed.
-/

namespace Brpc

variable {ρ : Type}

/-- How a sub call ended: with an error code, or with a response. -/
inductive SubCall (ρ : Type)
  | failed (errorCode : ℤ)
  | replied (response : ρ)
deriving DecidableEq

namespace SubCall

def response? : SubCall ρ → Option ρ
  | .failed _ => none
  | .replied r => some r

def errorCode : SubCall ρ → ℤ
  | .failed ec => ec
  | .replied _ => 0

def isFailed : SubCall ρ → Bool
  | .failed _ => true
  | .replied _ => false

end SubCall

def eperm : ℤ := 1

def ecanceled : ℤ := 125

def etoomanyfails : ℤ := 1005

/-- The fail limit of a call: `-1` stands for all sub calls. -/
def failLimit (option : ℤ) (ndone : ℕ) : ℕ :=
  if option < 0 then ndone
  -- a limit is brought into the range from one to the number of sub calls
  else if option < 1 then 1
  else if (ndone : ℤ) < option then ndone else option.toNat

/-- The error code of a failed call: the one all sub calls agree on, cancelled ones apart. -/
def unifiedErrorCode : ℤ → List (SubCall ρ) → ℤ
  | unified, [] => unified
  | unified, sub :: subs =>
    if sub.errorCode ≠ 0 ∧ sub.errorCode ≠ ecanceled then
      -- the first code that is not a cancellation sets what the others are compared with
      if unified = ecanceled then unifiedErrorCode sub.errorCode subs
      else if unified ≠ sub.errorCode then etoomanyfails
      else unifiedErrorCode unified subs
    else unifiedErrorCode unified subs

/-- `CallMethod` and `OnComplete`: the responses are merged into `init` by `merge`. -/
def callMethod (merge : ρ → ρ → ρ) (init : ρ) (option : ℤ) (subs : List (SubCall ρ)) : Except ℤ ρ :=
  if subs.isEmpty then .error eperm
  else if subs.countP SubCall.isFailed < failLimit option subs.length then
    .ok ((subs.filterMap SubCall.response?).foldl merge init)
  else .error (unifiedErrorCode ecanceled subs)

variable {subs : List (SubCall ρ)}

open SubCall List

theorem countP_isFailed_lt :
    subs.countP isFailed < subs.length ↔ ∃ sub ∈ subs, sub.isFailed = false := by
  rw [Nat.lt_iff_le_and_ne, and_iff_right countP_le_length, Ne, countP_eq_length]
  simp

/-- With the default limit the call succeeds as soon as one sub call does. -/
theorem callMethod_of_replied (merge : ρ → ρ → ρ) (init : ρ) {subs : List (SubCall ρ)}
    (h : ∃ sub ∈ subs, sub.isFailed = false) : callMethod merge init (-1) subs =
      .ok ((subs.filterMap response?).foldl merge init) := by
  obtain ⟨sub, hsub, hreplied⟩ := h
  have hne : ¬subs.isEmpty = true := by
    rw [List.isEmpty_iff]
    rintro rfl
    cases hsub
  have hlimit : failLimit (-1) subs.length = subs.length := rfl
  rw [callMethod, if_neg hne, hlimit, if_pos (countP_isFailed_lt.mpr ⟨sub, hsub, hreplied⟩)]

theorem callMethod_of_failed (merge : ρ → ρ → ρ) (init : ρ) {subs : List (SubCall ρ)}
    (h : ¬∃ sub ∈ subs, sub.isFailed = false) :
    ∃ ec, callMethod merge init (-1) subs = .error ec := by
  have hlimit : failLimit (-1) subs.length = subs.length := rfl
  unfold callMethod
  split
  · exact ⟨_, rfl⟩
  · rw [hlimit, if_neg (countP_isFailed_lt.mp.mt h)]
    exact ⟨_, rfl⟩

/-- A sub call with its response alone in a list. -/
def SubCall.alone : SubCall ρ → SubCall (List ρ)
  | .failed ec => .failed ec
  | .replied r => .replied [r]

/-- `CallMethod` with a mapper that gives each sub call its response, and a merger that does
nothing. -/
def callMapped (option : ℤ) (subs : List (SubCall ρ)) : Except ℤ (List ρ) :=
  callMethod (· ++ ·) [] option (subs.map SubCall.alone)

theorem exists_replies (h : (subs.map alone).countP isFailed = 0) :
    ∃ replies : List ρ, subs = replies.map SubCall.replied := by
  induction subs with
  | nil => exact ⟨[], rfl⟩
  | cons sub subs ih =>
    cases sub with
    | failed ec => simp [alone, isFailed] at h
    | replied r =>
      obtain ⟨replies, rfl⟩ := ih (by simpa [alone, isFailed] using h)
      exact ⟨r :: replies, rfl⟩

theorem foldl_alone (replies init : List ρ) :
    (((replies.map replied).map alone).filterMap response?).foldl
      (· ++ ·) init = init ++ replies := by
  induction replies generalizing init with
  | nil => simp
  | cons r replies ih => exact (ih (init ++ [r])).trans (append_assoc init [r] replies)

theorem callMapped_replied {responses : List ρ} (h : responses ≠ []) :
    callMapped 1 (responses.map replied) = .ok responses := by
  have hnone : ((responses.map replied).map alone).countP isFailed = 0 := by
    rw [countP_eq_zero]
    simp [alone, isFailed]
  have hlimit : 0 < failLimit 1 ((responses.map replied).map alone).length := by
    have hlength := length_pos_iff.mpr h
    unfold failLimit
    simp only [length_map]
    split_ifs <;> omega
  unfold callMapped callMethod
  rw [if_neg (by simpa using h), hnone, if_pos hlimit, foldl_alone, nil_append]

/-- With a limit of one, every sub call has to succeed. -/
theorem eq_map_of_callMapped_eq_ok {responses : List ρ}
    (h : callMapped 1 subs = .ok responses) : subs = responses.map replied := by
  unfold callMapped callMethod at h
  split at h
  · cases h
  split at h
  · rename_i hempty hfailed
    have hlimit : failLimit 1 (subs.map alone).length = 1 := by
      have hlength : (subs.map alone).length ≠ 0 := by simpa using hempty
      unfold failLimit
      split_ifs <;> omega
    rw [hlimit, Nat.lt_one_iff] at hfailed
    obtain ⟨replies, rfl⟩ := exists_replies hfailed
    rw [Except.ok.injEq, foldl_alone] at h
    rw [← h, nil_append]
  · cases h

end Brpc
