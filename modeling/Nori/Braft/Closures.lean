import Nori.Braft.Handout
import Nori.Braft.Joint.BallotBox
import Nori.Transition.System

/-!
# Closures complete once

The tasks of a node through its leaderships. A leader gives each task a ballot and its closure a
place in the closure queue, and the log manager an index, unless the log storage has failed. Commits
go to the state machine, which gets to them whenever it does, also after the node has stepped down
and leads again. Stepping down clears first the ballots, then the closures; the state machine may
come in between.

Closures are numbered in the order in which they are submitted.
-/

namespace Braft.Joint

open Transition ClosureQueue List Option

/-- Between `leader` and `follower`, the ballots are cleared and the closures are not. -/
inductive Phase
  | follower
  | leader
  | clearing
deriving DecidableEq

/-- The tasks of a node. `first` is the pending index at `become_leader`; `stored` has, for each
closure, the index at which the task was stored, or `none` if the log manager refused it;
`committed` are the indexes that the state machine was told, and `cleared` the closures that were
run with `EPERM`. -/
structure TaskFlow (P : Type) where
  box : BallotBox P ℕ
  caller : FsmCaller ℕ
  lastLogIndex : ℕ
  hasError : Bool
  phase : Phase
  first : ℕ
  stored : List (Option ℕ)
  committed : List ℕ
  cleared : List ℕ
  popFailed : Bool

/-- A task of the user, or a configuration entry: its configurations, and whether it has a
closure. -/
structure TaskInput (P : Type) where
  conf : Configuration P
  oldConf : Option (Configuration P)
  hasDone : Bool

inductive FlowEvent (P : Type)
  | becomeLeader
  | apply (tasks : List (TaskInput P))
  | storageError
  | commitAt (firstLogIndex lastLogIndex : ℕ) (peer : P)
  | setLastCommittedIndex (index : ℕ)
  | doCommitted (committedIndex : ℕ) (log : CommittedLog) (react : ℕ → Reaction)
  | clearBallots
  | clearClosures
  | replaceLog (lastLogIndex : ℕ)

namespace TaskFlow

section Model

variable {P : Type}

def init : TaskFlow P :=
  ⟨BallotBox.init, FsmCaller.init ⟨0, 0⟩, 0, false, .follower, 0, [], [], [], false⟩

/-- A task gets its ballot, and an index unless the log storage has failed. -/
def appendTask (s : TaskFlow P) (task : TaskInput P) : TaskFlow P :=
  let index := if s.hasError then none else some (s.lastLogIndex + 1)
  let closure := if task.hasDone then some s.stored.length else none
  { s with
    box := s.box.appendPendingTask task.conf task.oldConf closure
    lastLogIndex := index.getD s.lastLogIndex
    stored := s.stored ++ (closure.map fun _ => index).toList }

/-- The entries of a log that the node has. -/
def upTo (log : CommittedLog) (lastLogIndex : ℕ) : CommittedLog :=
  { log with holds := fun i => log.holds i && decide (i ≤ lastLogIndex) }

variable [DecidableEq P]

def step (s : TaskFlow P) : FlowEvent P → Option (TaskFlow P)
  | .becomeLeader =>
    if s.phase = .follower ∧ s.box.lastCommittedIndex < s.lastLogIndex + 1 then
      some { s with
        box := s.box.resetPendingIndex (s.lastLogIndex + 1)
        phase := .leader
        first := s.lastLogIndex + 1 }
    else none
  | .apply tasks => if s.phase = .leader then some (tasks.foldl appendTask s) else none
  | .storageError => some { s with hasError := true }
  | .commitAt firstLogIndex lastLogIndex peer =>
    let r := s.box.commitAt firstLogIndex lastLogIndex peer
    some { s with box := r.2.1, committed := s.committed ++ r.2.2.toList }
  | .setLastCommittedIndex index =>
    -- what an earlier leader has committed is in the log of a node that is elected
    if s.phase = .follower ∨ index < s.first then
      let r := s.box.setLastCommittedIndex index
      some { s with box := r.1, committed := s.committed ++ r.2.toList }
    else none
  | .doCommitted committedIndex log react =>
    if committedIndex ∈ s.committed then
      let r := FsmCaller.doCommitted (upTo log s.lastLogIndex) react committedIndex
        (s.box.closureQueue, s.caller)
      let fails := s.caller.error.isNone && decide (s.caller.lastAppliedIndex < committedIndex) &&
        (s.box.closureQueue.popClosureUntil committedIndex).isNone
      some { s with
        box := { s.box with closureQueue := r.1 }
        caller := r.2
        popFailed := s.popFailed || fails }
    else none
  | .clearBallots =>
    if s.phase = .leader then
      some { s with
        box := { s.box with pendingIndex := 0, pendingMetaQueue := [] }
        phase := .clearing }
    else none
  | .clearClosures =>
    if s.phase = .clearing then
      some { s with
        box := { s.box with closureQueue := s.box.closureQueue.clear.1 }
        phase := .follower
        cleared := s.cleared ++ s.box.closureQueue.clear.2 }
    else none
  | .replaceLog lastLogIndex =>
    if s.phase = .follower then some { s with lastLogIndex := lastLogIndex } else none

/-- The tasks of a node, from its start. -/
def system (P : Type) [DecidableEq P] : System (TaskFlow P) (FlowEvent P) := System.ofStep init step

end Model

section Steps

variable {P : Type} {s : TaskFlow P}

/-! ## The invariant -/

/-- The closures that wait, with the indexes of their places. -/
def waiting (s : TaskFlow P) : List (ℕ × ℕ) := s.box.closureQueue.waiting

/-- The index behind the closure queue. -/
def queueEnd (s : TaskFlow P) : ℕ := s.box.closureQueue.firstIndex + s.box.closureQueue.queue.length

/-- What holds of the closure queue until it is cleared. -/
structure Queued (s : TaskFlow P) : Prop where
  first_le : s.first ≤ s.queueEnd
  applied_lt : s.caller.lastAppliedIndex < s.box.closureQueue.firstIndex
  committed_lt : s.box.lastCommittedIndex < s.queueEnd
  tasks : ∀ x ∈ s.waiting, s.stored[x.2]? = some (some x.1) ∧ x.1 ≤ s.lastLogIndex ∨
    s.stored[x.2]? = some none ∧ s.lastLogIndex < x.1

/-- What holds of the ballots of a leader. -/
structure Balloted (s : TaskFlow P) : Prop where
  pending_ne : s.box.pendingIndex ≠ 0
  committed_lt : s.box.lastCommittedIndex < s.box.pendingIndex
  end_eq : s.box.pendingIndex + s.box.pendingMetaQueue.length = s.queueEnd
  log_le : s.lastLogIndex + 1 ≤ s.queueEnd
  log_eq : s.hasError = false → s.lastLogIndex + 1 = s.queueEnd

/-- What became of the closures. -/
structure Accounted (s : TaskFlow P) : Prop where
  perm : (s.waiting.map Prod.snd ++ (delivered s.caller.calls).map Prod.snd ++
    (failed s.caller.calls).map Prod.snd ++ s.cleared).Perm (range s.stored.length)
  delivered_own : ∀ x ∈ delivered s.caller.calls, s.stored[x.2]? = some (some x.1)
  failed_own : ∀ x ∈ failed s.caller.calls, ∀ j, s.stored[x.2]? = some (some j) → j = x.1

structure Inv (s : TaskFlow P) : Prop where
  committed_le : ∀ c ∈ s.committed, c ≤ s.box.lastCommittedIndex
  applied_le : s.caller.lastAppliedIndex ≤ s.box.lastCommittedIndex
  delivered_le : ∀ x ∈ delivered s.caller.calls, x.1 ≤ s.caller.lastAppliedIndex
  popped : s.popFailed = false
  accounted : s.Accounted
  idle : s.phase = .follower → s.box.closureQueue.queue = []
  unballoted : s.phase ≠ .leader → s.box.pendingIndex = 0 ∧ s.box.pendingMetaQueue = []
  queued : s.phase ≠ .follower → s.Queued
  balloted : s.phase = .leader → s.Balloted

theorem Accounted.lt (h : s.Accounted) {x : ℕ × ℕ} (hx : x ∈ s.waiting ∨
    x ∈ delivered s.caller.calls ∨ x ∈ failed s.caller.calls) : x.2 < s.stored.length := by
  refine mem_range.mp (h.perm.mem_iff.mp ?_)
  have hmem : ∀ {l : List (ℕ × ℕ)}, x ∈ l → x.2 ∈ l.map Prod.snd := fun hl => mem_map_of_mem hl
  simp only [mem_append]
  rcases hx with hx | hx | hx
  · exact .inl (.inl (.inl (hmem hx)))
  · exact .inl (.inl (.inr (hmem hx)))
  · exact .inl (.inr (hmem hx))

theorem lt_queueEnd {x : ℕ × ℕ} (hx : x ∈ s.waiting) : x.1 < s.queueEnd := by
  obtain ⟨j, hj, hget⟩ := mem_indexed hx
  have := (List.getElem?_eq_some_iff.mp hget).1
  rw [hj]
  exact Nat.add_lt_add_left this _

theorem waiting_appendTask (s : TaskFlow P) (task : TaskInput P) : (s.appendTask task).waiting =
      s.waiting ++ (if task.hasDone then [(s.queueEnd, s.stored.length)] else []) := by
  have happend := indexed_append s.box.closureQueue.firstIndex s.box.closureQueue.queue
    [if task.hasDone then some s.stored.length else none]
  refine happend.trans (congrArg (s.waiting ++ ·) ?_)
  cases task.hasDone <;> rfl

theorem queueEnd_appendTask (s : TaskFlow P) (task : TaskInput P) :
    (s.appendTask task).queueEnd = s.queueEnd + 1 := by
  unfold queueEnd
  dsimp only [TaskFlow.appendTask, BallotBox.appendPendingTask, appendPendingClosure]
  rw [length_append, length_singleton, Nat.add_assoc]

theorem stored_appendTask (s : TaskFlow P) (task : TaskInput P) :
    (s.appendTask task).stored = s.stored ++
      if task.hasDone then [if s.hasError then none else some (s.lastLogIndex + 1)] else [] := by
  unfold TaskFlow.appendTask
  cases task.hasDone <;> rfl

theorem Accounted.appendTask (h : s.Accounted) (task : TaskInput P) :
    (s.appendTask task).Accounted := by
  have hkeep : ∀ {x : ℕ × ℕ}, x ∈ delivered s.caller.calls ∨ x ∈ failed s.caller.calls →
      (s.appendTask task).stored[x.2]? = s.stored[x.2]? := fun hx => by
    rw [stored_appendTask]
    exact getElem?_append_left (h.lt (.inr hx))
  refine ⟨?_, fun x hx => ?_, fun x hx => ?_⟩
  · rw [waiting_appendTask, stored_appendTask]
    cases task.hasDone with
    | false =>
      rw [if_neg Bool.false_ne_true, if_neg Bool.false_ne_true, append_nil, append_nil]
      exact h.perm
    | true =>
      -- the new closure waits behind the others
      rw [if_pos rfl, if_pos rfl, length_append, length_singleton, range_succ,
        map_append, map_singleton]
      refine Perm.trans ?_ (h.perm.append_right _)
      have hcaller : (s.appendTask task).caller = s.caller := rfl
      have hcleared : (s.appendTask task).cleared = s.cleared := rfl
      simp only [append_assoc, hcaller, hcleared]
      exact Perm.append_left _ (perm_append_comm.trans (.of_eq (by simp only [append_assoc])))
  · rw [hkeep (.inl hx)]
    exact h.delivered_own x hx
  · rw [hkeep (.inr hx)]
    exact h.failed_own x hx

theorem Inv.appendTask (h : s.Inv) (hphase : s.phase = .leader) (task : TaskInput P) :
    (s.appendTask task).Inv := by
  have hqueued := h.queued (by rw [hphase]; decide)
  have hballoted := h.balloted hphase
  have hlog := hballoted.log_le
  have hend := queueEnd_appendTask s task
  have hlast : (s.appendTask task).lastLogIndex =
      if s.hasError then s.lastLogIndex else s.lastLogIndex + 1 := by
    unfold TaskFlow.appendTask
    cases s.hasError <;> rfl
  refine { h with
    accounted := h.accounted.appendTask task
    idle hfollower := absurd (hphase.symm.trans hfollower) (by decide)
    unballoted hnot := absurd hphase hnot
    queued _ := { hqueued with
      first_le := hend ▸ hqueued.first_le.trans (Nat.le_succ _)
      committed_lt := hend ▸ hqueued.committed_lt.trans (Nat.lt_succ_self _)
      tasks x hx := ?_ }
    balloted _ := { hballoted with
      end_eq := ?_
      log_le := ?_
      log_eq hok := ?_ } }
  · rw [waiting_appendTask] at hx
    rw [hlast, stored_appendTask]
    rcases mem_append.mp hx with hx | hx
    · rw [getElem?_append_left (h.accounted.lt (.inl hx))]
      cases hok : s.hasError with
      | true => exact hqueued.tasks x hx
      | false =>
        -- no task was refused so far
        have hlt := lt_queueEnd hx
        rw [← hballoted.log_eq hok] at hlt
        rcases hqueued.tasks x hx with ⟨hstored, hle⟩ | ⟨-, hrefused⟩
        · exact .inl ⟨hstored, hle.trans (Nat.le_succ _)⟩
        · omega
    · cases hdone : task.hasDone with
      | false =>
        rw [hdone] at hx
        cases hx
      | true =>
        rw [hdone, if_pos rfl] at hx
        rw [mem_singleton.mp hx, if_pos rfl]
        rw [getElem?_append_right le_rfl, Nat.sub_self, getElem?_cons_zero]
        cases hok : s.hasError with
        | true => exact .inr ⟨rfl, hlog⟩
        | false =>
          rw [← hballoted.log_eq hok]
          exact .inl ⟨rfl, le_rfl⟩
  · rw [hend, ← hballoted.end_eq]
    dsimp only [TaskFlow.appendTask, BallotBox.appendPendingTask]
    rw [length_append, length_singleton, Nat.add_assoc]
  · rw [hend, hlast]
    split_ifs <;> omega
  · have hok' : s.hasError = false := hok
    rw [hend, hlast, hok', if_neg Bool.false_ne_true, hballoted.log_eq hok']

theorem Inv.appendTasks (h : s.Inv) (hphase : s.phase = .leader) (tasks : List (TaskInput P)) :
    (tasks.foldl TaskFlow.appendTask s).Inv := by
  induction tasks generalizing s with
  | nil => exact h
  | cons task tasks ih => exact ih (h.appendTask hphase task) hphase

theorem Inv.commitAt [DecidableEq P] (h : s.Inv) (firstLogIndex lastLogIndex : ℕ) (peer : P) :
    Inv { s with
      box := (s.box.commitAt firstLogIndex lastLogIndex peer).2.1
      committed :=
        s.committed ++ (s.box.commitAt firstLogIndex lastLogIndex peer).2.2.toList } := by
  by_cases hphase : s.phase = .leader
  swap
  · rw [BallotBox.commitAt_of_eq_zero (h.unballoted hphase).1, toList_none, append_nil]
    exact h
  have hqueued := h.queued (by rw [hphase]; decide)
  have hballoted := h.balloted hphase
  obtain ⟨hclosures, hsum, houtput, hindexes⟩ :=
    s.box.commitAt_indexes firstLogIndex lastLogIndex peer
  generalize s.box.commitAt firstLogIndex lastLogIndex peer = r at *
  obtain ⟨code, box, output⟩ := r
  dsimp only at *
  have hend := hballoted.end_eq
  have hpending := hballoted.committed_lt
  have hqueueEnd : TaskFlow.queueEnd
      { s with box := box, committed := s.committed ++ output.toList } = s.queueEnd := by
    unfold queueEnd
    rw [hclosures]
  have hwaiting : TaskFlow.waiting
      { s with box := box, committed := s.committed ++ output.toList } = s.waiting := by
    unfold waiting
    rw [hclosures]
  have hmono : s.box.lastCommittedIndex ≤ box.lastCommittedIndex := by
    rcases hindexes with ⟨hsame, -⟩ | ⟨hle, -⟩ <;> omega
  exact { h with
    committed_le := forall_mem_append.mpr ⟨fun c hc => (h.committed_le c hc).trans hmono,
      fun c hc => (houtput c (mem_toList.mp hc)).le⟩
    applied_le := h.applied_le.trans hmono
    accounted := { h.accounted with perm := hwaiting ▸ h.accounted.perm }
    idle hfollower := absurd (hphase.symm.trans hfollower) (by decide)
    unballoted hnot := absurd hphase hnot
    queued _ := {
      first_le := hqueueEnd ▸ hqueued.first_le
      applied_lt := by
        rw [hclosures]
        exact hqueued.applied_lt
      committed_lt := by
        rw [hqueueEnd, ← hend]
        rcases hindexes with ⟨hsame, -⟩ | ⟨-, hlt, -⟩
        · dsimp only
          omega
        · exact hlt
      tasks := hwaiting ▸ hqueued.tasks }
    balloted _ := {
      pending_ne := by
        have := hballoted.pending_ne
        dsimp only
        rcases hindexes with ⟨-, hsame⟩ | ⟨-, -, hnext⟩ <;> omega
      committed_lt := by
        dsimp only
        rcases hindexes with ⟨hlast, hsame⟩ | ⟨-, -, hnext⟩ <;> omega
      end_eq := by
        rw [hqueueEnd, ← hend]
        exact hsum
      log_le := hqueueEnd ▸ hballoted.log_le
      log_eq hok := hqueueEnd ▸ hballoted.log_eq hok } }

theorem Inv.setLastCommittedIndex (h : s.Inv) {index : ℕ}
    (hindex : s.phase = .follower ∨ index < s.first) :
    Inv { s with
      box := (s.box.setLastCommittedIndex index).1
      committed := s.committed ++ (s.box.setLastCommittedIndex index).2.toList } := by
  rcases s.box.setLastCommittedIndex_cases index with heq | ⟨hzero, hlt, heq⟩
  · rw [heq, toList_none, append_nil]
    exact h
  rw [heq]
  have hleader : s.phase ≠ .leader := fun hphase => (h.balloted hphase).pending_ne hzero
  exact { h with
    committed_le := forall_mem_append.mpr ⟨fun c hc => (h.committed_le c hc).trans hlt.le,
      forall_mem_singleton.mpr le_rfl⟩
    applied_le := h.applied_le.trans hlt.le
    accounted := { h.accounted with }
    queued hphase := { h.queued hphase with
      committed_lt := (hindex.resolve_left hphase).trans_le (h.queued hphase).first_le }
    balloted hphase := absurd hphase hleader }

theorem Inv.pop (h : s.Inv) {c : ℕ} (hc : c ≤ s.box.lastCommittedIndex) :
    ∃ cq' popped, s.box.closureQueue.popClosureUntil c = some (cq', popped) ∧
      s.waiting = popped.between (s.caller.lastAppliedIndex + 1) (c + 1) ++ cq'.waiting ∧
      cq'.firstIndex + cq'.queue.length = s.queueEnd ∧
      (s.phase = .follower → cq'.queue = []) ∧ (s.phase ≠ .follower → c < cq'.firstIndex) := by
  by_cases hphase : s.phase = .follower
  · have hnil := h.idle hphase
    refine ⟨_, _, if_pos (.inl hnil), ?_, rfl, fun _ => hnil, fun hnot => absurd hphase hnot⟩
    rw [PoppedClosures.between_eq_nil le_rfl, nil_append]
    rfl
  · have hqueued := h.queued hphase
    obtain ⟨cq', popped, hpop, hwaiting, hlt, hend⟩ :=
      waiting_pop hqueued.applied_lt (hc.trans_lt hqueued.committed_lt)
    exact ⟨cq', popped, hpop, hwaiting, hend, fun hfollower => absurd hfollower hphase,
      fun _ => hlt⟩

theorem le_of_getEntry {log : CommittedLog} {lastLogIndex i : ℕ} {e : FsmEntry}
    (h : (upTo log lastLogIndex).getEntry i = some e) : i ≤ lastLogIndex := by
  unfold CommittedLog.getEntry upTo at h
  split_ifs at h with hholds
  · simp only [Bool.and_eq_true, decide_eq_true_eq] at hholds
    exact hholds.2

theorem Inv.doCommitted (h : s.Inv) {c : ℕ} (hc : c ∈ s.committed) (log : CommittedLog)
    (react : ℕ → Reaction) :
    Inv { s with
      box := { s.box with
        closureQueue := (FsmCaller.doCommitted (upTo log s.lastLogIndex) react c
          (s.box.closureQueue, s.caller)).1 }
      caller := (FsmCaller.doCommitted (upTo log s.lastLogIndex) react c
        (s.box.closureQueue, s.caller)).2
      popFailed := s.popFailed || (s.caller.error.isNone &&
        decide (s.caller.lastAppliedIndex < c) &&
        (s.box.closureQueue.popClosureUntil c).isNone) } := by
  have hle := h.committed_le c hc
  obtain ⟨cq', popped, hpop, hwaiting, hend, hidle, hfirst⟩ := h.pop hle
  have hok : (s.popFailed || (s.caller.error.isNone && decide (s.caller.lastAppliedIndex < c) &&
      (s.box.closureQueue.popClosureUntil c).isNone)) = false := by
    rw [hpop, h.popped, isNone_some, Bool.and_false, Bool.or_false]
  rw [hok]
  have hhandout := FsmCaller.doCommitted_handout (upTo log s.lastLogIndex) react c
    s.box.closureQueue h.delivered_le
  generalize FsmCaller.doCommitted (upTo log s.lastLogIndex) react c
    (s.box.closureQueue, s.caller) = r at *
  rcases hhandout with rfl | ⟨hlt, hlast, hcq, m, hm, hmc, hlog, hdelivered, hfailed⟩
  · exact { h with
      popped := rfl
      accounted := { h.accounted with }
      queued hphase := { h.queued hphase with }
      balloted hphase := { h.balloted hphase with } }
  obtain ⟨cq, caller⟩ := r
  rw [hpop, getD_some] at hcq hdelivered hfailed
  obtain rfl := hcq
  have hm' : s.caller.lastAppliedIndex + 1 ≤ m := hm
  rw [← PoppedClosures.between_append hm' hmc] at hwaiting
  -- what is handed out has waited
  have hwaited : ∀ x, x ∈ popped.between (s.caller.lastAppliedIndex + 1) m ∨
      x ∈ popped.between m (c + 1) ∨ x ∈ cq.waiting → x ∈ s.waiting := by
    intro x hx
    rw [hwaiting]
    simp only [mem_append]
    tauto
  have hqueued : ∀ {x}, x ∈ s.waiting → s.Queued := fun hx => h.queued fun hphase => by
    unfold waiting ClosureQueue.waiting at hx
    rw [h.idle hphase] at hx
    cases hx
  have hqueueEnd : TaskFlow.queueEnd { s with
      box := { s.box with closureQueue := cq }, caller := caller, popFailed := false } =
        s.queueEnd := hend
  exact { h with
    applied_le := hlast ▸ hle
    delivered_le x hx := by
      rw [hdelivered] at hx
      rw [hlast]
      rcases mem_append.mp hx with hx | hx
      · exact (h.delivered_le x hx).trans hlt.le
      · have := (PoppedClosures.mem_between hx).2.1
        omega
    popped := rfl
    accounted := {
      perm := by
        refine Perm.trans ?_ h.accounted.perm
        dsimp only [waiting] at hwaiting ⊢
        rw [hdelivered, hfailed, hwaiting]
        refine perm_iff_count.mpr fun k => ?_
        simp only [map_append, count_append]
        omega
      delivered_own x hx := by
        rw [hdelivered] at hx
        rcases mem_append.mp hx with hx | hx
        · exact h.accounted.delivered_own x hx
        · have hmem := hwaited x (.inl hx)
          obtain ⟨hlo, hhi, -⟩ := PoppedClosures.mem_between hx
          have hinlog := le_of_getEntry (hlog x.1 hlo hhi)
          rcases (hqueued hmem).tasks x hmem with ⟨hstored, -⟩ | ⟨-, hrefused⟩
          · exact hstored
          · omega
      failed_own x hx j hj := by
        rw [hfailed] at hx
        rcases mem_append.mp hx with hx | hx
        · exact h.accounted.failed_own x hx j hj
        · have hmem := hwaited x (.inr (.inl hx))
          rcases (hqueued hmem).tasks x hmem with ⟨hstored, -⟩ | ⟨hstored, -⟩
          · exact some_inj.mp (some_inj.mp (hj.symm.trans hstored))
          · exact absurd (some_inj.mp (hj.symm.trans hstored)) (some_ne_none j) }
    idle := hidle
    queued hphase := {
      first_le := hqueueEnd ▸ (h.queued hphase).first_le
      applied_lt := hlast ▸ hfirst hphase
      committed_lt := hqueueEnd ▸ (h.queued hphase).committed_lt
      tasks x hx := (h.queued hphase).tasks x (hwaited x (.inr (.inr hx))) }
    balloted hphase := { h.balloted hphase with
      end_eq := hqueueEnd ▸ (h.balloted hphase).end_eq
      log_le := hqueueEnd ▸ (h.balloted hphase).log_le
      log_eq hok := hqueueEnd ▸ (h.balloted hphase).log_eq hok } }

theorem Inv.clearClosures (h : s.Inv) (hphase : s.phase = .clearing) : Inv { s with
      box := { s.box with closureQueue := s.box.closureQueue.clear.1 }
      phase := .follower
      cleared := s.cleared ++ s.box.closureQueue.clear.2 } := by
  have hcleared : s.box.closureQueue.clear.2 = s.waiting.map Prod.snd := (map_snd_indexed _ _).symm
  exact { h with
    accounted := { h.accounted with
      perm := by
        refine Perm.trans ?_ h.accounted.perm
        rw [hcleared]
        refine perm_iff_count.mpr fun k => ?_
        dsimp only [waiting, ClosureQueue.waiting, clear, indexed]
        simp only [count_append, map_nil, count_nil]
        omega }
    idle _ := rfl
    unballoted _ := h.unballoted (by rw [hphase]; decide)
    queued hnot := absurd rfl hnot
    balloted := nofun }

theorem Inv.becomeLeader (h : s.Inv) (hphase : s.phase = .follower)
    (hlt : s.box.lastCommittedIndex < s.lastLogIndex + 1) :
    Inv { s with
      box := s.box.resetPendingIndex (s.lastLogIndex + 1)
      phase := .leader
      first := s.lastLogIndex + 1 } := by
  have hnil := h.idle hphase
  have hnone := (h.unballoted (by rw [hphase]; decide)).2
  have hwaiting : ∀ first, indexed first s.box.closureQueue.queue = [] := fun first => by
    rw [hnil]
    rfl
  have hend : s.lastLogIndex + 1 + s.box.closureQueue.queue.length = s.lastLogIndex + 1 := by
    rw [hnil]
    rfl
  exact { h with
    accounted := { h.accounted with
      perm := by
        have hperm := h.accounted.perm
        dsimp only [waiting, ClosureQueue.waiting, BallotBox.resetPendingIndex,
          resetFirstIndex] at hperm ⊢
        rw [hwaiting] at hperm ⊢
        exact hperm }
    idle := nofun
    unballoted hnot := absurd rfl hnot
    queued _ := {
      first_le := hend.ge
      applied_lt := h.applied_le.trans_lt hlt
      committed_lt := hlt.trans_le hend.ge
      tasks x hx := by
        dsimp only [waiting, ClosureQueue.waiting, BallotBox.resetPendingIndex,
          resetFirstIndex] at hx
        rw [hwaiting] at hx
        cases hx }
    balloted _ := {
      pending_ne := Nat.succ_ne_zero _
      committed_lt := hlt
      end_eq := by
        dsimp only [queueEnd, BallotBox.resetPendingIndex, resetFirstIndex]
        rw [hnil, hnone]
        rfl
      log_le := hend.ge
      log_eq _ := hend.symm } }

end Steps

section Runs

variable {P : Type} [DecidableEq P] {s s' : TaskFlow P}

/-- **Every event keeps the invariant.** -/
theorem Inv.step {e : FlowEvent P} (h : s.Inv) (hstep : s.step e = some s') : s'.Inv := by
  cases e with
  | becomeLeader =>
    obtain ⟨⟨hphase, hlt⟩, rfl⟩ := ite_some_none_eq_some.mp hstep
    exact h.becomeLeader hphase hlt
  | apply tasks =>
    obtain ⟨hphase, rfl⟩ := ite_some_none_eq_some.mp hstep
    exact h.appendTasks hphase tasks
  | storageError =>
    cases hstep
    exact { h with
      accounted := { h.accounted with }
      queued hphase := { h.queued hphase with }
      balloted hphase := { h.balloted hphase with
        log_eq := nofun } }
  | commitAt firstLogIndex lastLogIndex peer =>
    cases hstep
    exact h.commitAt firstLogIndex lastLogIndex peer
  | setLastCommittedIndex index =>
    obtain ⟨hindex, rfl⟩ := ite_some_none_eq_some.mp hstep
    exact h.setLastCommittedIndex hindex
  | doCommitted committedIndex log react =>
    obtain ⟨hc, rfl⟩ := ite_some_none_eq_some.mp hstep
    exact h.doCommitted hc log react
  | clearBallots =>
    obtain ⟨hphase, rfl⟩ := ite_some_none_eq_some.mp hstep
    have hqueued := h.queued (by rw [hphase]; decide)
    exact { h with
      accounted := { h.accounted with }
      idle := nofun
      unballoted _ := ⟨rfl, rfl⟩
      queued _ := { hqueued with }
      balloted := nofun }
  | clearClosures =>
    obtain ⟨hphase, rfl⟩ := ite_some_none_eq_some.mp hstep
    exact h.clearClosures hphase
  | replaceLog lastLogIndex =>
    obtain ⟨hphase, rfl⟩ := ite_some_none_eq_some.mp hstep
    exact { h with
      accounted := { h.accounted with }
      queued hnot := absurd hphase hnot
      balloted hleader := absurd (hphase.symm.trans hleader) (by decide) }

theorem Inv.reachable (h : (system P).Reachable s) : s.Inv := by
  refine h.invariant ?_ fun s e s' hstep hinv => hinv.step hstep
  rintro s rfl
  exact {
    committed_le := nofun
    applied_le := le_rfl
    delivered_le := nofun
    popped := rfl
    accounted := {
      perm := .refl _
      delivered_own := nofun
      failed_own := nofun }
    idle _ := rfl
    unballoted _ := ⟨rfl, rfl⟩
    queued hnot := absurd rfl hnot
    balloted := nofun }

/-- **Each closure completes once, with its own entry.** Whatever the log storage refuses, however
late the state machine gets to the commits, and however often the node steps down and leads again:
the closures submitted so far are, without repetition, those that wait, those delivered with an
entry, those run with the error of the state machine, and those run with `EPERM`. A closure is
delivered with the entry of its own task, or run with the error at the index of its own task; none
waits once the node has stepped down, and taking closures out of the queue never fails. -/
theorem closures_complete (h : (system P).Reachable s) :
    (s.waiting.map Prod.snd ++ (delivered s.caller.calls).map Prod.snd ++
        (failed s.caller.calls).map Prod.snd ++ s.cleared).Perm (range s.stored.length) ∧
      (∀ i k, (i, k) ∈ delivered s.caller.calls → s.stored[k]? = some (some i)) ∧
      (∀ i k j, (i, k) ∈ failed s.caller.calls → s.stored[k]? = some (some j) → j = i) ∧
      (s.phase = .follower → s.waiting = []) ∧
      s.popFailed = false := by
  have hinv := Inv.reachable h
  refine ⟨hinv.accounted.perm, fun i k hx => hinv.accounted.delivered_own (i, k) hx,
    fun i k j hx hj => hinv.accounted.failed_own (i, k) hx j hj, fun hphase => ?_, hinv.popped⟩
  unfold waiting ClosureQueue.waiting
  rw [hinv.idle hphase]
  rfl

end Runs

namespace Sample

def data : CommittedLog := ⟨fun _ => ⟨.data, 1⟩, fun _ => true, fun _ _ _ => Nat.le_refl 1⟩

/-- The only peer leads, and steps down with two of four tasks committed; the log storage has
refused the fourth. The state machine gets to the commit between the clearing of the ballots and
that of the closures. -/
def stepDown : List (FlowEvent Unit) :=
  let task : TaskInput Unit := ⟨⟨[()], by decide⟩, none, true⟩
  [.becomeLeader, .apply [task, task, task], .storageError, .apply [task], .commitAt 1 2 (),
    .clearBallots, .doCommitted 2 data fun _ => ⟨10, none⟩, .clearClosures]

def after (events : List (FlowEvent Unit)) : TaskFlow Unit := (events.foldlM step init).getD init

end Sample

open Sample

theorem closures_complete_stepDown : delivered (after stepDown).caller.calls = [(1, 0), (2, 1)] ∧
      (after stepDown).cleared = [2, 3] ∧
      (after stepDown).stored = [some 1, some 2, some 3, none] ∧
      (after stepDown).waiting = [] ∧
      (after stepDown).popFailed = false := by
  have hrun : stepDown.foldlM step init = some (after stepDown) := rfl
  have hreach : (system Unit).Reachable (after stepDown) := ⟨init, rfl, System.run_of_foldlM hrun⟩
  obtain ⟨-, -, -, hidle, hpopped⟩ := closures_complete hreach
  exact ⟨rfl, rfl, rfl, hidle rfl, hpopped⟩

end TaskFlow

end Braft.Joint
