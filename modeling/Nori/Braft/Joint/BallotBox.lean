import Nori.Braft.Joint.Ballot
import Nori.Braft.ClosureQueue

/-!
# The ballot box

The leader of a term keeps a ballot for every entry that it has appended and not yet committed,
under the configurations in which the entry was proposed, and the closures of the tasks. A peer
grants the ballots of the entries that are stable there; the last entry whose ballot is granted is
committed, and with it all before it. A follower is told how far its leader has committed.
-/

namespace Braft.Joint

open List Option

/-- What `commit_at` returns: `0`, `EINVAL` or `ERANGE`. -/
inductive CommitCode
  | ok
  | einval
  | erange
deriving DecidableEq

structure BallotBox (P K : Type) where
  lastCommittedIndex : ℕ
  pendingIndex : ℕ
  pendingMetaQueue : List (Ballot P)
  closureQueue : ClosureQueue K

namespace BallotBox

variable {P K : Type}

def init : BallotBox P K := ⟨0, 0, [], ClosureQueue.init⟩

/-- The closures are run with `EPERM`. -/
def clearPendingTasks (box : BallotBox P K) : BallotBox P K × List K :=
  ({ box with pendingIndex := 0, pendingMetaQueue := [], closureQueue := box.closureQueue.clear.1 },
    box.closureQueue.clear.2)

def resetPendingIndex (newPendingIndex : ℕ) (box : BallotBox P K) : BallotBox P K :=
  { box with
    pendingIndex := newPendingIndex
    closureQueue := box.closureQueue.resetFirstIndex newPendingIndex }

def appendPendingTask (conf : Configuration P) (oldConf : Option (Configuration P))
    (closure : Option K) (box : BallotBox P K) : BallotBox P K :=
  { box with
    pendingMetaQueue := box.pendingMetaQueue ++ [Ballot.init conf oldConf]
    closureQueue := box.closureQueue.appendPendingClosure closure }

/-- What a follower is told: the box, and the index that the state machine hears of. -/
def setLastCommittedIndex (index : ℕ) (box : BallotBox P K) : BallotBox P K × Option ℕ :=
  if box.pendingIndex ≠ 0 ∨ box.pendingMetaQueue ≠ [] then (box, none)
  else if box.lastCommittedIndex < index then ({ box with lastCommittedIndex := index }, some index)
  else (box, none)

theorem setLastCommittedIndex_cases (box : BallotBox P K) (index : ℕ) :
    box.setLastCommittedIndex index = (box, none) ∨
      box.pendingIndex = 0 ∧ box.lastCommittedIndex < index ∧
        box.setLastCommittedIndex index =
          ({ box with lastCommittedIndex := index }, some index) := by
  unfold setLastCommittedIndex
  split_ifs with hlead hlt
  · exact .inl rfl
  · exact .inr ⟨not_not.mp (not_or.mp hlead).1, hlt, rfl⟩
  · exact .inl rfl

variable [DecidableEq P]

/-- One round of the loop over the log indexes. The hint goes from one ballot to the next. -/
def grantAt (pendingIndex : ℕ) (peer : P) (acc : List (Ballot P) × PosHint × ℕ) (logIndex : ℕ) :
    List (Ballot P) × PosHint × ℕ :=
  match acc.1[logIndex - pendingIndex]? with
  | none => acc
  | some bl =>
    let (bl, posHint) := bl.grant peer acc.2.1
    (acc.1.set (logIndex - pendingIndex) bl, posHint, if bl.granted then logIndex else acc.2.2)

/-- The entries from `firstLogIndex` to `lastLogIndex` are stable at a peer. The state machine hears
of the new committed index. -/
def commitAt (firstLogIndex lastLogIndex : ℕ) (peer : P) (box : BallotBox P K) :
    CommitCode × BallotBox P K × Option ℕ :=
  if box.pendingIndex = 0 then (.einval, box, none)
  else if lastLogIndex < box.pendingIndex then (.ok, box, none)
  else if box.pendingIndex + box.pendingMetaQueue.length ≤ lastLogIndex then (.erange, box, none)
  else
    let startAt := max box.pendingIndex firstLogIndex
    let acc := (range' startAt (lastLogIndex + 1 - startAt)).foldl
      (grantAt box.pendingIndex peer) (box.pendingMetaQueue, {}, 0)
    if acc.2.2 = 0 then (.ok, { box with pendingMetaQueue := acc.1 }, none)
    else
      (.ok, { box with
          lastCommittedIndex := acc.2.2
          pendingIndex := acc.2.2 + 1
          pendingMetaQueue := acc.1.drop (acc.2.2 + 1 - box.pendingIndex) },
        some acc.2.2)

theorem commitAt_of_eq_zero {box : BallotBox P K} {first last : ℕ} {peer : P}
    (h : box.pendingIndex = 0) : box.commitAt first last peer = (.einval, box, none) := if_pos h

/-! ## What is committed -/

/-- Ballots for the indexes from `pendingIndex` on, each granted only by peers that have its
entry. -/
def SoundFrom (R : ℕ → P → Prop) (pendingIndex : ℕ) (ballots : List (Ballot P)) : Prop :=
  ∀ j bl, ballots[j]? = some bl → ∀ v, bl.Found v → R (pendingIndex + j) v

variable {R R' : ℕ → P → Prop} {box : BallotBox P K} {first last : ℕ} {peer : P}

omit [DecidableEq P] in
theorem SoundFrom.mono {pending : ℕ} {ballots : List (Ballot P)} (h : SoundFrom R pending ballots)
    (hR : ∀ i v, R i v → R' i v) : SoundFrom R' pending ballots :=
  fun j bl hj v hv => hR _ v (h j bl hj v hv)

omit [DecidableEq P] in
theorem SoundFrom.drop {pending k : ℕ} {ballots : List (Ballot P)}
    (h : SoundFrom R pending ballots) : SoundFrom R (pending + k) (ballots.drop k) := by
  intro j bl hj v hv
  rw [getElem?_drop] at hj
  rw [Nat.add_assoc]
  exact h (k + j) bl hj v hv

omit [DecidableEq P] in
theorem SoundFrom.append {pending : ℕ} {ballots : List (Ballot P)} (h : SoundFrom R pending ballots)
    (conf : Configuration P) (oldConf : Option (Configuration P)) (k : ℕ) :
    SoundFrom R pending (ballots ++ replicate k (Ballot.init conf oldConf)) := by
  intro j bl hj v hv
  rw [getElem?_append] at hj
  split_ifs at hj
  · exact h j bl hj v hv
  · obtain rfl := eq_of_mem_replicate (mem_of_getElem? hj)
    exact absurd hv (Ballot.not_found_init conf oldConf v)

omit [DecidableEq P] in
theorem appendPendingTasks_eq (conf : Configuration P) (box : BallotBox P K) (k : ℕ) :
    (appendPendingTask conf none none)^[k] box = { box with
      pendingMetaQueue := box.pendingMetaQueue ++ replicate k (Ballot.init conf none)
      closureQueue := (ClosureQueue.appendPendingClosure none)^[k] box.closureQueue } := by
  induction k with
  | zero => simp
  | succ k ih =>
    rw [Function.iterate_succ_apply', ih, appendPendingTask, append_assoc, ← replicate_succ',
      Function.iterate_succ_apply']

/-- Majorities of the configurations under which the entry at a pending index was proposed have
it. -/
def Decided (R : ℕ → P → Prop) (box : BallotBox P K) (index : ℕ) : Prop :=
  box.pendingIndex ≤ index ∧ ∃ bl, box.pendingMetaQueue[index - box.pendingIndex]? = some bl ∧
    Supported bl.conf bl.oldConf (R index)

/-- What the loop keeps: who may have granted, the configurations, and the index remembered. -/
structure Counted (R : ℕ → P → Prop) (box : BallotBox P K)
    (acc : List (Ballot P) × PosHint × ℕ) : Prop where
  proposals : acc.1.map Ballot.proposal = box.pendingMetaQueue.map Ballot.proposal
  sound : SoundFrom R box.pendingIndex acc.1
  decided : acc.2.2 = 0 ∨ Decided R box acc.2.2

theorem Counted.grantAt {acc : List (Ballot P) × PosHint × ℕ} {i : ℕ} (h : Counted R box acc)
    (hi : box.pendingIndex ≤ i) (hpeer : R i peer) :
    Counted R box (grantAt box.pendingIndex peer acc i) := by
  unfold BallotBox.grantAt
  split
  next => exact h
  next bl hbl =>
    have hlt : i - box.pendingIndex < acc.1.length := (List.getElem?_eq_some_iff.mp hbl).1
    have hindex : box.pendingIndex + (i - box.pendingIndex) = i := Nat.add_sub_cancel' hi
    have hproposal := bl.proposal_grant peer acc.2.1
    have hfound : ∀ v, (bl.grant peer acc.2.1).1.Found v → R i v := by
      intro v hv
      rcases Ballot.found_grant hv with hv | rfl
      · exact hindex ▸ h.sound _ bl hbl v hv
      · exact hpeer
    refine ⟨?_, ?_, ?_⟩
    · rw [← h.proposals]
      refine ext_getElem? fun j => ?_
      rw [getElem?_map, getElem?_map]
      by_cases hj : i - box.pendingIndex = j
      · subst hj
        rw [getElem?_set_self hlt, hbl, map_some, map_some, hproposal]
      · rw [getElem?_set_ne hj]
    · intro j bl' hj v hv
      rw [getElem?_set] at hj
      split_ifs at hj with hji
      · cases hj
        rw [← hji, hindex]
        exact hfound v hv
      · exact h.sound j bl' hj v hv
    · dsimp only
      split
      swap
      · exact h.decided
      next hgranted =>
        have hmap := congrArg (·[i - box.pendingIndex]?) h.proposals
        simp only [getElem?_map, hbl, map_some] at hmap
        obtain ⟨bl₀, hbl₀, heq⟩ := map_eq_some_iff.mp hmap.symm
        have hsupported := (Ballot.supported_of_granted hgranted).mono hfound
        refine .inr ⟨hi, bl₀, hbl₀, ?_⟩
        rw [← hproposal] at heq
        have hconf : bl₀.conf = (bl.grant peer acc.2.1).1.conf := congrArg Prod.fst heq
        have hold : bl₀.oldConf = (bl.grant peer acc.2.1).1.oldConf := congrArg Prod.snd heq
        rw [hconf, hold]
        exact hsupported

/-- The ballots after a call of `commit_at`, where `c` is the index it has committed, if any. -/
structure Committing (R : ℕ → P → Prop) (box box' : BallotBox P K) : Prop where
  closures : box'.closureQueue = box.closureQueue
  sound : SoundFrom R box'.pendingIndex box'.pendingMetaQueue
  proposals : box.pendingIndex ≤ box'.pendingIndex ∧ box'.pendingMetaQueue.map Ballot.proposal =
      (box.pendingMetaQueue.map Ballot.proposal).drop (box'.pendingIndex - box.pendingIndex)
  decided : box'.lastCommittedIndex = box.lastCommittedIndex ∧
      box'.pendingIndex = box.pendingIndex ∨
    box.pendingIndex ≠ 0 ∧ Decided R box box'.lastCommittedIndex ∧
      box'.pendingIndex = box'.lastCommittedIndex + 1

/-- **Either nothing is committed, or an index that majorities of the configurations under which it
was proposed have.** -/
theorem commitAt_cases (hsound : SoundFrom R box.pendingIndex box.pendingMetaQueue)
    (hpeer : ∀ i, box.pendingIndex ≤ i → i ≤ last →
      i < box.pendingIndex + box.pendingMetaQueue.length → R i peer) :
    Committing R box (box.commitAt first last peer).2.1 ∧
      ((box.commitAt first last peer).2.2 = none ∧
          (box.commitAt first last peer).2.1.lastCommittedIndex = box.lastCommittedIndex ∨
        (box.commitAt first last peer).2.2 =
          some (box.commitAt first last peer).2.1.lastCommittedIndex) := by
  have hsame : Committing R box box :=
    ⟨rfl, hsound, ⟨le_rfl, by rw [Nat.sub_self, drop_zero]⟩, .inl ⟨rfl, rfl⟩⟩
  unfold commitAt
  split_ifs with hzero hlt hrange
  · exact ⟨hsame, .inl ⟨rfl, rfl⟩⟩
  · exact ⟨hsame, .inl ⟨rfl, rfl⟩⟩
  · exact ⟨hsame, .inl ⟨rfl, rfl⟩⟩
  dsimp only
  set acc := (range' (max box.pendingIndex first)
    (last + 1 - max box.pendingIndex first)).foldl (grantAt box.pendingIndex peer)
    (box.pendingMetaQueue, {}, 0) with hacc
  have hloop : Counted R box acc := by
    refine foldlRecOn _ _ ⟨rfl, hsound, .inl rfl⟩ fun acc hacc i hi => ?_
    obtain ⟨hstart, hend⟩ := mem_range'_1.mp hi
    have hpending : box.pendingIndex ≤ i := (le_max_left _ _).trans hstart
    exact hacc.grantAt hpending (hpeer i hpending (by omega) (by omega))
  split_ifs with hnone
  · exact ⟨⟨rfl, hloop.sound, ⟨le_rfl, by rw [Nat.sub_self, drop_zero, hloop.proposals]⟩,
      .inl ⟨rfl, rfl⟩⟩, .inl ⟨rfl, rfl⟩⟩
  · have hdecided := hloop.decided.resolve_left hnone
    have hle := hdecided.1
    have hcount : box.pendingIndex + (acc.2.2 + 1 - box.pendingIndex) = acc.2.2 + 1 := by omega
    refine ⟨⟨rfl, ?_, ⟨by dsimp only; omega, ?_⟩, .inr ⟨hzero, hdecided, rfl⟩⟩, .inr rfl⟩
    · have hdrop := hloop.sound.drop (k := acc.2.2 + 1 - box.pendingIndex)
      rwa [hcount] at hdrop
    · rw [map_drop, hloop.proposals]

theorem commitAt_indexes (box : BallotBox P K) (first last : ℕ) (peer : P) :
    let r := box.commitAt first last peer
    r.2.1.closureQueue = box.closureQueue ∧ r.2.1.pendingIndex + r.2.1.pendingMetaQueue.length =
        box.pendingIndex + box.pendingMetaQueue.length ∧
      (∀ c ∈ r.2.2, c = r.2.1.lastCommittedIndex) ∧
      (r.2.1.lastCommittedIndex = box.lastCommittedIndex ∧ r.2.1.pendingIndex = box.pendingIndex ∨
        box.pendingIndex ≤ r.2.1.lastCommittedIndex ∧
          r.2.1.lastCommittedIndex < box.pendingIndex + box.pendingMetaQueue.length ∧
          r.2.1.pendingIndex = r.2.1.lastCommittedIndex + 1) := by
  intro r
  have hcases : Committing (fun _ _ => True) box r.2.1 ∧ _ :=
    commitAt_cases (fun _ _ _ _ _ => trivial) fun _ _ _ _ => trivial
  obtain ⟨hcommitting, houtput⟩ := hcases
  have hlength := congrArg length hcommitting.proposals.2
  have hpending := hcommitting.proposals.1
  rw [length_drop, length_map, length_map] at hlength
  have hdecided : r.2.1.lastCommittedIndex = box.lastCommittedIndex ∧
        r.2.1.pendingIndex = box.pendingIndex ∨
      box.pendingIndex ≤ r.2.1.lastCommittedIndex ∧ r.2.1.lastCommittedIndex <
          box.pendingIndex + box.pendingMetaQueue.length ∧
        r.2.1.pendingIndex = r.2.1.lastCommittedIndex + 1 := by
    rcases hcommitting.decided with hsame | ⟨-, ⟨hle, bl, hbl, -⟩, hnext⟩
    · exact .inl hsame
    · have hlt := (List.getElem?_eq_some_iff.mp hbl).1
      exact .inr ⟨hle, by omega, hnext⟩
  refine ⟨hcommitting.closures, ?_, ?_, hdecided⟩
  · rcases hdecided with ⟨-, hsame⟩ | ⟨-, hlt, hnext⟩ <;> omega
  · intro c hc
    rcases houtput with ⟨hnone, -⟩ | hsome
    · rw [hnone] at hc
      cases hc
    · rw [hsome] at hc
      exact (mem_some_iff.mp hc).symm

end BallotBox

end Braft.Joint
