import Nori.Braft.ClosureQueue
import Nori.Braft.LogManager

/-!
# Applying committed entries

The `FSMCaller` of a node passes committed entries to the state machine of the user. An iterator
goes from the last applied index to the committed one: entries with data are shown to `on_apply`,
which moves the iterator on, and the other entries are dealt with by the caller itself. The user may
stop with an error and take back what it has been shown since `on_apply` was called; a log that does
not have an entry is an error too. The closures of the entries that were not applied are then run
with the error.

What the state machine does is a parameter: `react` says, for each index at which `on_apply` may be
called, how often the user moves the iterator on, and whether it stops with an error.
-/

namespace Braft

open List Option Bool

inductive EntryType
  | data
  | configuration (joint : Bool)
  | noOp
deriving DecidableEq

/-- What the caller reads of a log entry. -/
structure FsmEntry where
  type : EntryType
  term : ℕ
deriving DecidableEq

/-- The entries that are or will be committed, with terms that do not decrease, and the indexes that
the log manager has. -/
structure CommittedLog where
  entry : ℕ → FsmEntry
  holds : ℕ → Bool
  mono : ∀ i j, i ≤ j → (entry i).term ≤ (entry j).term

namespace CommittedLog

def getEntry (log : CommittedLog) (index : ℕ) : Option FsmEntry :=
  if log.holds index then some (log.entry index) else none

def getTerm (log : CommittedLog) (index : ℕ) : ℕ := (log.getEntry index).elim 0 FsmEntry.term

theorem getEntry_cases (log : CommittedLog) (index : ℕ) :
    log.getEntry index = none ∨ log.getEntry index = some (log.entry index) := by
  unfold getEntry
  split_ifs
  · exact .inr rfl
  · exact .inl rfl

end CommittedLog

/-- The kinds of errors that stop the caller. -/
inductive FsmError
  | log
  | stateMachine
  | snapshot
  | other
deriving DecidableEq

/-- What the state machine is called with, and the closures that the caller runs. -/
inductive SmCall (K : Type)
  /-- An entry with data is shown to `on_apply`, together with its closure. -/
  | apply (index : ℕ) (done : Option K)
  | configurationCommitted (index : ℕ)
  /-- The closure of an entry without data is run. -/
  | done (index : ℕ) (closure : K)
  /-- The user takes back what it was shown from an index on. -/
  | rollback (index : ℕ)
  /-- The closure of an entry is run with the error. -/
  | failed (index : ℕ) (closure : K)
  | snapshotSave (id : LogId)
  | snapshotLoad (id : LogId)
  | snapshotConfiguration (index : ℕ)
  | leaderStop
  | leaderStart
  | startFollowing
  | stopFollowing
deriving DecidableEq

/-- What the user does in `on_apply`: how often it moves the iterator on, and how many of the tasks
it was shown it keeps if it stops with an error. -/
structure Reaction where
  nexts : ℕ
  keep : Option ℕ

namespace PoppedClosures

variable {K : Type}

/-- The closure of the entry at an index. -/
def doneAt (popped : PoppedClosures K) (index : ℕ) : Option K :=
  if index < popped.firstClosureIndex then none
  else (popped.closure[index - popped.firstClosureIndex]?).join

end PoppedClosures

structure IteratorImpl (K : Type) where
  popped : PoppedClosures K
  curIndex : ℕ
  committedIndex : ℕ
  curEntry : Option FsmEntry
  error : Option FsmError
  calls : List (SmCall K)

namespace IteratorImpl

variable {K : Type}

def isGood (it : IteratorImpl K) : Bool :=
  decide (it.curIndex ≤ it.committedIndex) && it.error.isNone

def next (log : CommittedLog) (it : IteratorImpl K) : IteratorImpl K :=
  if it.curIndex ≤ it.committedIndex then
    if it.curIndex + 1 ≤ it.committedIndex then
      match log.getEntry (it.curIndex + 1) with
      | some e => { it with curIndex := it.curIndex + 1, curEntry := some e }
      | none => { it with curIndex := it.curIndex + 1, curEntry := none, error := some .log }
    else { it with curIndex := it.curIndex + 1, curEntry := none }
  else { it with curEntry := none }

def init (log : CommittedLog) (popped : PoppedClosures K) (lastAppliedIndex committedIndex : ℕ) :
    IteratorImpl K :=
  next log ⟨popped, lastAppliedIndex, committedIndex, none, none, []⟩

def done (it : IteratorImpl K) : Option K := it.popped.doneAt it.curIndex

def setErrorAndRollback (it : IteratorImpl K) (ntail : ℕ) : IteratorImpl K :=
  if ntail = 0 then it
  else
    let curIndex :=
      if it.curEntry.any (·.type = .data) then it.curIndex - (ntail - 1) else it.curIndex - ntail
    { it with
      curIndex := curIndex
      curEntry := none
      error := some .stateMachine
      calls := it.calls ++ [.rollback curIndex] }

/-- `valid` of the iterator that the user has. -/
def valid (it : IteratorImpl K) : Bool := it.isGood && it.curEntry.any (·.type = .data)

/-- `next` of the iterator that the user has. -/
def userNext (log : CommittedLog) (it : IteratorImpl K) : IteratorImpl K :=
  if it.valid then it.next log else it

/-- The user sees the entry at which the iterator is. -/
def expose (it : IteratorImpl K) : IteratorImpl K :=
  if it.valid then { it with calls := it.calls ++ [.apply it.curIndex it.done] } else it

/-- The user moves the iterator on. -/
def consume (log : CommittedLog) : ℕ → IteratorImpl K → IteratorImpl K
  | 0, it => it
  | n + 1, it => if it.valid then consume log n (it.next log).expose else it

def onApply (log : CommittedLog) (react : Reaction) (it : IteratorImpl K) : IteratorImpl K :=
  let it' := consume log react.nexts it.expose
  match react.keep with
  | none => it'
  | some keep =>
    -- the tasks that the user was shown, the one at which the iterator is included
    it'.setErrorAndRollback (it'.curIndex - it.curIndex + (if it'.valid then 1 else 0) - keep)

/-- An entry without data. -/
def onOther (type : EntryType) (it : IteratorImpl K) : IteratorImpl K :=
  { it with
    calls := it.calls ++
      (if type = .configuration false then [.configurationCommitted it.curIndex] else []) ++
      it.done.toList.map (.done it.curIndex) }

/-- The loop over the entries. -/
def loop (log : CommittedLog) (react : ℕ → Reaction) : ℕ → IteratorImpl K → IteratorImpl K
  | 0, it => it
  | fuel + 1, it =>
    if it.isGood then
      match it.curEntry with
      | none => it
      | some e =>
        if e.type = .data then
          loop log react fuel ((it.onApply log (react it.curIndex)).userNext log)
        else loop log react fuel ((it.onOther e.type).next log)
    else it

/-- `run_the_rest_closure_with_error` -/
def restClosures (it : IteratorImpl K) : List (SmCall K) :=
  let first := max it.curIndex it.popped.firstClosureIndex
  (range' first (it.committedIndex + 1 - first)).flatMap fun i =>
    (it.popped.doneAt i).toList.map (.failed i)

end IteratorImpl

open IteratorImpl

structure FsmCaller (K : Type) where
  lastAppliedIndex : ℕ
  lastAppliedTerm : ℕ
  error : Option FsmError
  appliedId : LogId
  calls : List (SmCall K)

namespace FsmCaller

variable {K : Type}

def init (bootstrapId : LogId) : FsmCaller K :=
  ⟨bootstrapId.index, bootstrapId.term, none, ⟨0, 0⟩, []⟩

def setError (s : FsmCaller K) (e : FsmError) :
    FsmCaller K := { s with error := s.error.or (some e) }

def doCommitted (log : CommittedLog) (react : ℕ → Reaction) (committedIndex : ℕ)
    (st : ClosureQueue K × FsmCaller K) : ClosureQueue K × FsmCaller K :=
  let (cq, s) := st
  if s.error.isSome then (cq, s)
  else if committedIndex ≤ s.lastAppliedIndex then (cq, s)
  else
    let (cq, popped) := (cq.popClosureUntil committedIndex).getD (cq, ⟨[], 0⟩)
    let it := (IteratorImpl.init log popped s.lastAppliedIndex committedIndex).loop log react
      (committedIndex - s.lastAppliedIndex)
    let s :=
      match it.error with
      | none => { s with calls := s.calls ++ it.calls }
      | some e => { s with calls := s.calls ++ it.calls ++ it.restClosures }.setError e
    let lastTerm := log.getTerm (it.curIndex - 1)
    (cq, { s with
        lastAppliedIndex := committedIndex
        lastAppliedTerm := lastTerm
        appliedId := ⟨it.curIndex - 1, lastTerm⟩ })

end FsmCaller

/-! ## What the iterator passes on -/

/-- What is done for the entry at an index. -/
def callsAt {K : Type} (log : CommittedLog) (popped : PoppedClosures K) (index : ℕ) :
    List (SmCall K) :=
  match (log.entry index).type with
  | .data => [.apply index (popped.doneAt index)]
  | type =>
    (if type = .configuration false then [.configurationCommitted index] else []) ++
      (popped.doneAt index).toList.map (.done index)

variable {K : Type} {log : CommittedLog} {popped : PoppedClosures K}

theorem callsAt_of_ne {index : ℕ} (h : (log.entry index).type ≠ .data) : callsAt log popped index =
      (if (log.entry index).type = .configuration false then [.configurationCommitted index]
        else []) ++ (popped.doneAt index).toList.map (.done index) := by
  unfold callsAt
  cases htype : (log.entry index).type with
  | data => exact absurd htype h
  | configuration joint => rfl
  | noOp => rfl

theorem mem_callsAt {index : ℕ} {call : SmCall K} (h : call ∈ callsAt log popped index) :
    (∃ done, call = .apply index done) ∨ call = .configurationCommitted index ∨
      ∃ closure, call = .done index closure := by
  by_cases hdata : (log.entry index).type = .data
  · rw [callsAt, hdata] at h
    exact .inl ⟨_, mem_singleton.mp h⟩
  · rw [callsAt_of_ne hdata] at h
    rcases mem_append.mp h with h | h
    · split_ifs at h
      · exact .inr (.inl (mem_singleton.mp h))
      · cases h
    · obtain ⟨closure, -, rfl⟩ := mem_map.mp h
      exact .inr (.inr ⟨closure, rfl⟩)

/-- What is done for the entries after `a` and before `m`. -/
def cover {K : Type} (log : CommittedLog) (popped : PoppedClosures K) (a m : ℕ) : List (SmCall K) :=
  (range' (a + 1) (m - (a + 1))).flatMap (callsAt log popped)

theorem cover_succ {a m : ℕ}
    (h : a < m) : cover log popped a (m + 1) = cover log popped a m ++ callsAt log popped m := by
  have hlen : m + 1 - (a + 1) = m - (a + 1) + 1 := by omega
  have hlast : a + 1 + (m - (a + 1)) = m := by omega
  rw [cover, hlen, range'_1_concat, hlast, flatMap_append, flatMap_singleton]
  rfl

namespace IteratorImpl

variable {K : Type} {log : CommittedLog} {popped : PoppedClosures K} {a c : ℕ}
  {it : IteratorImpl K}

/-- The iterator is at an entry, or behind the last one, or at one that the log does not have. -/
structure Stands (log : CommittedLog) (popped : PoppedClosures K) (a c : ℕ)
    (it : IteratorImpl K) : Prop where
  popped_eq : it.popped = popped
  committed_eq : it.committedIndex = c
  lt : a < it.curIndex
  before : ∀ i, a < i → i < it.curIndex → log.getEntry i = some (log.entry i)
  at_entry : it.error = none ∧ it.curIndex ≤ c ∧
      log.getEntry it.curIndex = some (log.entry it.curIndex) ∧
      it.curEntry = some (log.entry it.curIndex) ∨
    it.error = none ∧ it.curIndex = c + 1 ∧ it.curEntry = none ∨
    it.error = some .log ∧ it.curIndex ≤ c ∧ it.curEntry = none

/-- The iterator has passed on the entries before `m`. -/
def Covers (log : CommittedLog) (popped : PoppedClosures K) (a : ℕ) (it : IteratorImpl K)
    (m : ℕ) : Prop := it.calls = cover log popped a m

theorem Stands.isGood_iff (h : Stands log popped a c it) :
    it.isGood ↔ it.error = none ∧ it.curIndex ≤ c ∧
      log.getEntry it.curIndex = some (log.entry it.curIndex) ∧
      it.curEntry = some (log.entry it.curIndex) := by
  unfold isGood
  rw [h.committed_eq]
  rcases h.at_entry with ⟨herror, hle, hget, hentry⟩ | ⟨herror, hcur, hentry⟩ |
    ⟨herror, hle, hentry⟩
  · simp [herror, hle, hget, hentry]
  · simp [herror, hcur]
  · simp [herror]

theorem Stands.valid_iff (h : Stands log popped a c it) :
    it.valid ↔ it.isGood ∧ (log.entry it.curIndex).type = .data := by
  unfold valid
  rw [and_eq_true]
  refine and_congr_right fun hgood => ?_
  rw [(h.isGood_iff.mp hgood).2.2.2]
  simp

theorem Stands.next_of_lt {it : IteratorImpl K} (hpopped : it.popped = popped)
    (hcommitted : it.committedIndex = c) (herror : it.error = none) (ha : a ≤ it.curIndex)
    (hle : it.curIndex ≤ c)
    (hbefore : ∀ i, a < i → i < it.curIndex + 1 → log.getEntry i = some (log.entry i)) :
    Stands log popped a c (it.next log) ∧ (it.next log).curIndex = it.curIndex + 1 ∧
      (it.next log).calls = it.calls := by
  subst hcommitted
  unfold next
  rw [if_pos hle]
  split_ifs with hnext
  · rcases log.getEntry_cases (it.curIndex + 1) with hget | hget
    · rw [hget]
      exact ⟨⟨hpopped, rfl, Nat.lt_succ_of_le ha, hbefore, .inr (.inr ⟨rfl, hnext, rfl⟩)⟩, rfl, rfl⟩
    · rw [hget]
      exact ⟨⟨hpopped, rfl, Nat.lt_succ_of_le ha, hbefore, .inl ⟨herror, hnext, hget, rfl⟩⟩, rfl,
        rfl⟩
  · have hend : it.curIndex + 1 = it.committedIndex + 1 := by omega
    exact ⟨⟨hpopped, rfl, Nat.lt_succ_of_le ha, hbefore, .inr (.inl ⟨herror, hend, rfl⟩)⟩, rfl, rfl⟩

theorem Stands.next (h : Stands log popped a c it) (hgood : it.isGood) :
    Stands log popped a c (it.next log) ∧ (it.next log).curIndex = it.curIndex + 1 ∧
      (it.next log).calls = it.calls := by
  obtain ⟨herror, hle, hget, -⟩ := h.isGood_iff.mp hgood
  refine Stands.next_of_lt h.popped_eq h.committed_eq herror h.lt.le hle fun i hi hlt => ?_
  rcases Nat.lt_succ_iff_lt_or_eq.mp hlt with hlt | rfl
  · exact h.before i hi hlt
  · exact hget

/-- The user has seen the entry at which the iterator is, if it has data. -/
def Exposed (log : CommittedLog) (popped : PoppedClosures K) (a : ℕ) (it : IteratorImpl K) : Prop :=
  Covers log popped a it (if it.valid then it.curIndex + 1 else it.curIndex)

theorem Stands.expose (h : Stands log popped a c it)
    (hcovers : Covers log popped a it it.curIndex) :
    Stands log popped a c it.expose ∧ Exposed log popped a it.expose ∧
      it.expose.curIndex = it.curIndex ∧ it.expose.valid = it.valid := by
  unfold IteratorImpl.expose
  split_ifs with hvalid
  · refine ⟨{ h with }, ?_, rfl, rfl⟩
    have hdata := (h.valid_iff.mp hvalid).2
    have hsame : valid
        { it with calls := it.calls ++ [.apply it.curIndex it.done] } = true := hvalid
    unfold Exposed Covers
    rw [if_pos hsame]
    rw [cover_succ h.lt, hcovers, callsAt, hdata, done, h.popped_eq]
  · refine ⟨h, ?_, rfl, rfl⟩
    unfold Exposed
    rwa [if_neg hvalid]

theorem Stands.consume (n : ℕ) (h : Stands log popped a c it) (hexposed : Exposed log popped a it) :
    Stands log popped a c (consume log n it) ∧ Exposed log popped a (consume log n it) ∧
      it.curIndex ≤ (consume log n it).curIndex ∧
      ((consume log n it).valid = false → it.valid →
        it.curIndex < (consume log n it).curIndex) := by
  induction n generalizing it with
  | zero =>
    refine ⟨h, hexposed, le_rfl, fun hinvalid hvalid => ?_⟩
    rw [consume, hvalid] at hinvalid
    cases hinvalid
  | succ n ih =>
    unfold consume
    split_ifs with hvalid
    · obtain ⟨hstands, hcur, hcalls⟩ := h.next (h.valid_iff.mp hvalid).1
      have hcovers : Covers log popped a (it.next log) (it.next log).curIndex := by
        unfold Exposed at hexposed
        rw [if_pos hvalid] at hexposed
        unfold Covers at hexposed ⊢
        rw [hcalls, hcur, hexposed]
      obtain ⟨hstands', hexposed', hcur', -⟩ := hstands.expose hcovers
      obtain ⟨hstands'', hexposed'', hle, -⟩ := ih hstands' hexposed'
      rw [hcur', hcur] at hle
      exact ⟨hstands'', hexposed'', Nat.le_of_succ_le hle, fun _ _ => hle⟩
    · exact ⟨h, hexposed, le_rfl, fun _ hvalid' => absurd hvalid' hvalid⟩

/-- Where the iterator ends: behind the last entry, or at the first one that was not applied. -/
structure Finished (log : CommittedLog) (popped : PoppedClosures K) (a c : ℕ)
    (it : IteratorImpl K) : Prop where
  popped_eq : it.popped = popped
  committed_eq : it.committedIndex = c
  before : ∀ i, a < i → i < it.curIndex → log.getEntry i = some (log.entry i)
  passed : it.error = none ∧ it.curIndex = c + 1 ∧ it.calls = cover log popped a (c + 1) ∨
    it.error.isSome ∧ a < it.curIndex ∧ it.curIndex ≤ c ∧
      (it.calls = cover log popped a it.curIndex ∨ ∃ m, it.curIndex < m ∧ m ≤ c + 1 ∧
          it.calls = cover log popped a m ++ [.rollback it.curIndex])

section

variable (h : Stands log popped a c it)
include h

theorem Stands.le : it.curIndex ≤ c + 1 := by
  rcases h.at_entry with ⟨-, hle, -⟩ | ⟨-, hcur, -⟩ | ⟨-, hle, -⟩ <;> omega

theorem Stands.data_iff : it.curEntry.any (·.type = .data) = it.valid := by
  unfold valid
  rcases h.at_entry with ⟨herror, hle, hget, hentry⟩ | ⟨-, -, hentry⟩ | ⟨-, -, hentry⟩
  · rw [h.isGood_iff.mpr ⟨herror, hle, hget, hentry⟩, Bool.true_and]
  · rw [hentry, any_none, Bool.and_false]
  · rw [hentry, any_none, Bool.and_false]

theorem Stands.userNext (hexposed : Exposed log popped a it) :
    Stands log popped a c (it.userNext log) ∧
      Covers log popped a (it.userNext log) (it.userNext log).curIndex ∧
      it.curIndex ≤ (it.userNext log).curIndex ∧
      (it.valid → it.curIndex < (it.userNext log).curIndex) := by
  unfold IteratorImpl.userNext
  unfold Exposed at hexposed
  split_ifs at hexposed ⊢ with hvalid
  · obtain ⟨hstands, hcur, hcalls⟩ := h.next (h.valid_iff.mp hvalid).1
    unfold Covers at hexposed ⊢
    rw [hcur, hcalls]
    exact ⟨hstands, hexposed, Nat.le_succ _, fun _ => Nat.lt_succ_self _⟩
  · exact ⟨h, hexposed, le_rfl, fun hvalid' => absurd hvalid' hvalid⟩

theorem Stands.setErrorAndRollback (hexposed : Exposed log popped a it) {start ntail : ℕ}
    (hstart : a < start)
    (hle : start ≤ it.curIndex) (hntail : ntail ≠ 0)
    (hmax : ntail ≤ it.curIndex - start + if it.valid then 1 else 0) :
    Finished log popped a c (it.setErrorAndRollback ntail) ∧
      (it.setErrorAndRollback ntail).isGood = false := by
  have hend := h.le
  unfold IteratorImpl.setErrorAndRollback
  rw [if_neg hntail]
  rw [h.data_iff]
  unfold Exposed Covers at hexposed
  refine ⟨⟨h.popped_eq, h.committed_eq, ?_, .inr ⟨rfl, ?_⟩⟩, and_false _⟩
  · intro i hi hlt
    refine h.before i hi (hlt.trans_le ?_)
    dsimp only
    split_ifs <;> omega
  dsimp only
  cases hvalid : it.valid with
  | true =>
    have hcur : it.curIndex ≤ c := (h.isGood_iff.mp (h.valid_iff.mp hvalid).1).2.1
    rw [hvalid, if_pos rfl] at hexposed hmax
    rw [if_pos rfl]
    exact ⟨by omega, by omega, .inr ⟨it.curIndex + 1, by omega, by omega, by rw [hexposed]⟩⟩
  | false =>
    rw [hvalid, if_neg Bool.false_ne_true] at hexposed hmax
    rw [if_neg Bool.false_ne_true]
    exact ⟨by omega, by omega, .inr ⟨it.curIndex, by omega, by omega, by rw [hexposed]⟩⟩

theorem Stands.onApply (hgood : it.isGood) (hdata : (log.entry it.curIndex).type = .data)
    (hcovers : Covers log popped a it it.curIndex) (react : Reaction) :
    let after := (it.onApply log react).userNext log
    Stands log popped a c after ∧ Covers log popped a after after.curIndex ∧
        it.curIndex < after.curIndex ∨
      Finished log popped a c after ∧ after.isGood = false := by
  obtain ⟨hstands₀, hexposed₀, hcur₀, hvalid₀⟩ := h.expose hcovers
  obtain ⟨hstands, hexposed, hle, hlt⟩ := hstands₀.consume react.nexts hexposed₀
  rw [hcur₀, hvalid₀] at hlt
  rw [hcur₀] at hle
  unfold IteratorImpl.onApply
  generalize IteratorImpl.consume log react.nexts it.expose = it' at *
  obtain ⟨hstands', hcovers', hle', hlt'⟩ := hstands.userNext hexposed
  have hgo : it.curIndex < (it'.userNext log).curIndex := by
    cases hvalid : it'.valid with
    | true => exact hle.trans_lt (hlt' hvalid)
    | false => exact (hlt hvalid (h.valid_iff.mpr ⟨hgood, hdata⟩)).trans_le hle'
  cases react.keep with
  | none => exact .inl ⟨hstands', hcovers', hgo⟩
  | some keep =>
    dsimp only
    by_cases hzero : it'.curIndex - it.curIndex + (if it'.valid then 1 else 0) - keep = 0
    · rw [hzero, IteratorImpl.setErrorAndRollback, if_pos rfl]
      exact .inl ⟨hstands', hcovers', hgo⟩
    · obtain ⟨hfinished, hbad⟩ := hstands.setErrorAndRollback hexposed h.lt hle hzero
        (Nat.sub_le _ _)
      rw [IteratorImpl.userNext, IteratorImpl.valid, hbad, Bool.false_and,
        if_neg Bool.false_ne_true]
      exact .inr ⟨hfinished, hbad⟩

theorem Stands.onOther (hgood : it.isGood) (hdata : (log.entry it.curIndex).type ≠ .data)
    (hcovers : Covers log popped a it it.curIndex) :
    let after := (it.onOther (log.entry it.curIndex).type).next log
    Stands log popped a c after ∧ Covers log popped a after after.curIndex ∧
      it.curIndex < after.curIndex := by
  have hother : Stands log popped a c (it.onOther (log.entry it.curIndex).type) := { h with }
  obtain ⟨hstands, hcur, hcalls⟩ := hother.next hgood
  refine ⟨hstands, ?_, hcur ▸ Nat.lt_succ_self _⟩
  unfold Covers at hcovers ⊢
  rw [hcalls, hcur, IteratorImpl.onOther]
  rw [cover_succ h.lt, hcovers, append_assoc, done, h.popped_eq, callsAt_of_ne hdata]

theorem Stands.finished (hcovers : Covers log popped a it it.curIndex) (hbad : ¬ it.isGood) :
    Finished log popped a c it := by
  refine { h with passed := ?_ }
  rcases h.at_entry with hentry | ⟨herror, hcur, -⟩ | ⟨herror, hle, -⟩
  · exact absurd (h.isGood_iff.mpr hentry) hbad
  · exact .inl ⟨herror, hcur, hcur ▸ hcovers⟩
  · exact .inr ⟨by rw [herror]; rfl, h.lt, hle, .inl hcovers⟩

end

/-- **The loop comes to an end**, behind the last entry or at the first that was not applied. -/
theorem Stands.loop (react : ℕ → Reaction) (fuel : ℕ) (h : Stands log popped a c it)
    (hcovers : Covers log popped a it it.curIndex) (hfuel : c + 1 - it.curIndex ≤ fuel) :
    Finished log popped a c (loop log react fuel it) := by
  induction fuel generalizing it with
  | zero =>
    refine h.finished hcovers fun hgood => ?_
    have := (h.isGood_iff.mp hgood).2.1
    omega
  | succ fuel ih =>
    unfold loop
    split_ifs with hgood
    swap
    · exact h.finished hcovers hgood
    obtain ⟨-, -, -, hentry⟩ := h.isGood_iff.mp hgood
    rw [hentry]
    dsimp only
    split_ifs with hdata
    · rcases h.onApply hgood hdata hcovers (react it.curIndex) with
        ⟨hstands, hcovers', hlt⟩ | ⟨hfinished, hbad⟩
      · exact ih hstands hcovers' (by omega)
      · -- the user has stopped
        cases fuel with
        | zero => exact hfinished
        | succ fuel =>
          rw [loop, hbad, if_neg Bool.false_ne_true]
          exact hfinished
    · obtain ⟨hstands, hcovers', hlt⟩ := h.onOther hgood hdata hcovers
      exact ih hstands hcovers' (by omega)

theorem stands_init (hac : a < c) : Stands log popped a c (init log popped a c) ∧
      Covers log popped a (init log popped a c) (init log popped a c).curIndex ∧
      (init log popped a c).curIndex = a + 1 := by
  have hnext : Stands log popped a c (next log ⟨popped, a, c, none, none, []⟩) ∧
      (next log ⟨popped, a, c, none, none, []⟩).curIndex = a + 1 ∧
      (next log ⟨popped, a, c, none, none, []⟩).calls = [] :=
    Stands.next_of_lt rfl rfl rfl le_rfl hac.le fun i hi hlt => absurd hlt (not_lt.mpr hi)
  obtain ⟨hstands, hcur, hcalls⟩ := hnext
  refine ⟨hstands, ?_, hcur⟩
  unfold init Covers
  rw [hcalls, hcur, cover, Nat.sub_self]
  rfl

/-- Where the iterator ends, and what it has passed on. -/
theorem finished_loop (react : ℕ → Reaction) (hac : a < c) :
    Finished log popped a c ((init log popped a c).loop log react (c - a)) := by
  obtain ⟨hstands, hcovers, hcur⟩ : Stands log popped a c (init log popped a c) ∧ _ ∧ _ :=
    stands_init hac
  exact hstands.loop react (c - a) hcovers (by omega)

end IteratorImpl

namespace FsmCaller

variable {K : Type} {log : CommittedLog} {react : ℕ → Reaction} {c : ℕ}
  {st : ClosureQueue K × FsmCaller K}

/-- **Without an error, every entry up to the committed index is passed on once, in order.** -/
theorem doCommitted_of_ok (hok : (doCommitted log react c st).2.error = none) : st.2.error = none ∧
      (c ≤ st.2.lastAppliedIndex ∧ doCommitted log react c st = st ∨
        st.2.lastAppliedIndex < c ∧ (doCommitted log react c st).2.lastAppliedIndex = c ∧
          (doCommitted log react c st).2.lastAppliedTerm = (log.entry c).term ∧
          ∃ popped, (doCommitted log react c st).2.calls =
            st.2.calls ++ cover log popped st.2.lastAppliedIndex (c + 1)) := by
  obtain ⟨cq, s⟩ := st
  cases herror : s.error with
  | some e =>
    have hsame : doCommitted log react c (cq, s) = (cq, s) := if_pos (by rw [herror]; rfl)
    rw [hsame, herror] at hok
    cases hok
  | none =>
    refine ⟨rfl, ?_⟩
    by_cases hle : c ≤ s.lastAppliedIndex
    · left
      unfold doCommitted
      dsimp only
      rw [if_neg (by rw [herror]; exact false_ne_true), if_pos hle]
      exact ⟨hle, rfl⟩
    · right
      unfold doCommitted at hok ⊢
      dsimp only at hok ⊢
      rw [if_neg (by rw [herror]; exact false_ne_true), if_neg hle] at hok ⊢
      generalize ((cq.popClosureUntil c).getD (cq, ⟨[], 0⟩)).2 = popped at *
      have hfinished : Finished log popped s.lastAppliedIndex c
          ((IteratorImpl.init log popped s.lastAppliedIndex c).loop log react
            (c - s.lastAppliedIndex)) := finished_loop react (Nat.lt_of_not_le hle)
      generalize (IteratorImpl.init log popped s.lastAppliedIndex c).loop log react
        (c - s.lastAppliedIndex) = it at *
      rcases hfinished.passed with ⟨herr, hcur, hcalls⟩ | ⟨herr, -⟩
      · have hget := hfinished.before c (Nat.lt_of_not_le hle) (hcur ▸ Nat.lt_succ_self c)
        rw [herr]
        rw [hcur, hcalls, Nat.add_sub_cancel, CommittedLog.getTerm, hget]
        exact ⟨Nat.lt_of_not_le hle, rfl, rfl, popped, rfl⟩
      · obtain ⟨e, he⟩ := isSome_iff_exists.mp herr
        rw [he] at hok
        rw [herror] at hok
        cases hok

end FsmCaller

end Braft
