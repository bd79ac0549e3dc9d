import Nori.Braft.Group

/-!
# Election safety

In a term at most one node becomes the leader, and no vote is counted for two candidates. A vote
counts once it is in the meta storage of the voter, where there is at most one for a term: while a
node's own vote is not saved yet, it does not vote for anybody else, and its term is not on disk.

There is one exception. A candidate that hears from its last leader counts its own vote together
with that leader's, whether or not it has been saved. Where the write had failed, the candidate has
taken its vote back, and can give it to another candidate of the same term.
-/

namespace Braft

open List

/-! ## Saved votes -/

namespace MetaStorage

variable {P : Type} {storage : MetaStorage P} {term : ℕ} {votedFor : Option P}

/-- There is at most one vote for a term, and the last term's is the current one. -/
structure Consistent (storage : MetaStorage P) : Prop where
  le : ∀ t c, (t, c) ∈ storage.saved → t ≤ storage.term
  last : ∀ c, (storage.term, c) ∈ storage.saved ↔ storage.votedFor = some c
  unique : ∀ t c c', (t, c) ∈ storage.saved → (t, c') ∈ storage.saved → c = c'

theorem mem_saved_setTermAndVotedfor {t : ℕ} {c : P} :
    (t, c) ∈ (storage.setTermAndVotedfor term votedFor).saved ↔
      (t, c) ∈ storage.saved ∨ t = term ∧ votedFor = some c := by
  simp only [setTermAndVotedfor, mem_append, mem_map, Option.mem_toList, Prod.mk.injEq]
  constructor
  · rintro (h | ⟨c', hc', rfl, rfl⟩)
    · exact .inl h
    · exact .inr ⟨rfl, hc'⟩
  · rintro (h | ⟨rfl, hc⟩)
    · exact .inl h
    · exact .inr ⟨c, hc, rfl, rfl⟩

theorem Consistent.setTermAndVotedfor (h : storage.Consistent) (hle : storage.term ≤ term)
    (hfirst : storage.term = term → storage.votedFor = none) :
    (storage.setTermAndVotedfor term votedFor).Consistent := by
  have hnew : ∀ c, (term, c) ∉ storage.saved := by
    intro c hc
    have heq : storage.term = term := le_antisymm hle (h.le term c hc)
    have hvoted := (h.last c).mp (heq ▸ hc)
    rw [hfirst heq] at hvoted
    cases hvoted
  refine ⟨fun t c hc => ?_, fun c => ?_, fun t c c' hc hc' => ?_⟩
  · rcases mem_saved_setTermAndVotedfor.mp hc with hc | ⟨rfl, -⟩
    · exact (h.le t c hc).trans hle
    · exact le_rfl
  · refine mem_saved_setTermAndVotedfor.trans ⟨?_, fun hc => .inr ⟨rfl, hc⟩⟩
    rintro (hc | ⟨-, hc⟩)
    · exact absurd hc (hnew c)
    · exact hc
  · rw [mem_saved_setTermAndVotedfor] at hc hc'
    rcases hc with hc | ⟨rfl, hc⟩ <;> rcases hc' with hc' | ⟨ht, hc'⟩
    · exact h.unique t c c' hc hc'
    · exact absurd (ht ▸ hc) (hnew c)
    · exact absurd hc' (hnew c')
    · exact Option.some_inj.mp (hc.symm.trans hc')

end MetaStorage

/-! ## Handlers that have released the mutex -/

/-- The caller that a task of the disk thread wakes up. -/
def DiskTask.caller? {D κ ι : Type} : DiskTask D κ ι → Option ι
  | .lastLogId caller => some caller
  | _ => none

namespace LogManager

variable {D κ ι : Type} {lm lm' : LogManager D κ ι}

/-- Who waits for the last log id. -/
def callers (lm : LogManager D κ ι) : List ι := lm.diskQueue.filterMap DiskTask.caller?

@[simp] theorem callers_appendTasks (entries : List (LogEntry D)) (done : ℕ → κ) :
    (lm.appendTasks entries done).callers = lm.callers := by
  simp [callers, appendTasks, DiskTask.caller?]

@[simp] theorem callers_unsafeTruncateSuffix (index : ℕ) :
    (lm.unsafeTruncateSuffix index).callers = lm.callers := by
  unfold unsafeTruncateSuffix
  split <;> simp [callers, DiskTask.caller?]

theorem callers_checkAndResolveConflict {first last : ℕ} {kept : Option ℕ}
    {entries rest : List (LogEntry D)}
    (h : lm.checkAndResolveConflict first entries = .ok (lm', kept, last, rest)) :
    lm'.callers = lm.callers := by
  simp only [checkAndResolveConflict] at h
  split_ifs at h <;> cases h
  · rfl
  · rfl
  · exact callers_unsafeTruncateSuffix _
  · rfl

theorem callers_appendEntries {first : ℕ} {kept : Option ℕ} {entries : List (LogEntry D)} {done : κ}
    (h : lm.appendEntries first entries done = .ok (lm', kept)) : lm'.callers = lm.callers := by
  unfold appendEntries at h
  cases hcheck : lm.checkAndResolveConflict first entries with
  | error stop =>
    rw [hcheck] at h
    cases h
  | ok res =>
    rw [hcheck] at h
    obtain ⟨lm₁, kept, last, rest⟩ := res
    cases h
    rw [← callers_checkAndResolveConflict hcheck]
    simp [callers, DiskTask.caller?]

theorem callers_setSnapshot {id : LogId} (h : lm.setSnapshot id = some lm') :
    lm'.callers = lm.callers := by
  unfold setSnapshot at h
  split_ifs at h <;> cases h <;> rfl

theorem callers_clearMemoryLogs {count : ℕ} (h : lm.clearMemoryLogs count = some lm') :
    lm'.callers = lm.callers := by
  obtain ⟨-, rfl⟩ := Option.ite_some_none_eq_some.mp h
  rfl

theorem callers_diskTask {task : DiskTask D κ ι} {rest : List (DiskTask D κ ι)} (id : LogId)
    (h : lm.diskQueue = task :: rest) :
    lm.callers = task.caller?.toList ++ (lm.diskTask task rest id).callers := by
  have hrest : (lm.diskTask task rest id).diskQueue = rest := by cases task <;> rfl
  rw [callers, callers, hrest, h, filterMap_cons]
  cases task.caller? <;> rfl

end LogManager

namespace Node

variable {P D : Type} {conf : Configuration P}

/-- The handlers that have released the mutex. -/
def callers (nd : Node conf D) : List (Caller P) :=
  nd.reading ++ nd.logManager.callers ++ nd.resumed.map Prod.fst

variable {nd : Node conf D}

theorem metaStorage_becomeLeaderIfGranted {self : P} :
    (nd.becomeLeaderIfGranted self).metaStorage = nd.metaStorage := by
  unfold becomeLeaderIfGranted
  split <;> rfl

variable [DecidableEq P]

theorem callers_callLastLogId {caller : Caller P} (h : caller ∈ nd.reading) :
    (nd.callLastLogId caller).callers.Perm nd.callers := by
  refine perm_iff_count.mpr fun c => ?_
  have hread := (perm_cons_erase h).count_eq c
  unfold callLastLogId LogManager.requestLastLogId
  by_cases hempty : nd.logManager.lastLogIndex = nd.logManager.lastSnapshotId.index
  · simp only [callers, if_pos hempty, count_append, map_append, map_cons,
      map_nil, count_cons, count_nil] at hread ⊢
    omega
  · simp only [callers, if_neg hempty, LogManager.callers, filterMap_append,
      filterMap_cons, DiskTask.caller?, filterMap_nil, count_append,
      count_cons, count_nil] at hread ⊢
    omega

theorem callers_erase_resumed {caller : Caller P} {id : LogId} (h : (caller, id) ∈ nd.resumed) :
    nd.callers.Perm (caller :: callers { nd with resumed := nd.resumed.erase (caller, id) }) := by
  refine perm_iff_count.mpr fun c => ?_
  have hres := ((perm_cons_erase h).map Prod.fst).count_eq c
  simp only [callers, map_cons, count_append, count_cons] at hres ⊢
  omega

/-- How often `elect_self` has released the mutex in a term and not got it back. -/
def electing (nd : Node conf D) (term : ℕ) : ℕ := nd.callers.count (.electSelf term)

theorem electing_erase_resumed {oldTerm : ℕ} {id : LogId}
    (h : (.electSelf oldTerm, id) ∈ nd.resumed) (term : ℕ) :
    nd.electing term =
      electing { nd with resumed := nd.resumed.erase (.electSelf oldTerm, id) } term +
        if oldTerm = term then 1 else 0 := by
  rw [electing, (callers_erase_resumed h).count_eq, count_cons]
  simp only [electing, beq_iff_eq, Caller.electSelf.injEq]

end Node

open Node

/-! ## Steps that have nothing to do with elections -/

section Unmoved

variable {P D : Type} [DecidableEq P] {conf : Configuration P} {nd nd₁ nd₂ : Node conf D}

/-- Term, votes and ballot are the same, no vote was given away, and no `elect_self` is under way
that was not; a node may have stepped down. -/
structure Unmoved (nd nd' : Node conf D) : Prop where
  state : nd'.state = .follower ∨ nd'.state = nd.state
  currentTerm : nd'.currentTerm = nd.currentTerm
  votedId : nd'.votedId = nd.votedId
  ballot : nd'.voteCtx.ballot = nd.voteCtx.ballot
  metaStorage : nd'.metaStorage = nd.metaStorage
  counted : nd'.counted = nd.counted
  elections : nd'.elections = nd.elections
  electing : ∀ t, nd'.electing t ≤ nd.electing t
  answers : ∀ rpc response, .requestVoteResponse rpc response ∈ nd'.sent →
    .requestVoteResponse rpc response ∈ nd.sent

/-- What such a step leaves as it is, if the node does not step down. -/
def Node.seat (nd : Node conf D) :=
  (nd.state, nd.currentTerm, nd.votedId, nd.voteCtx.ballot, nd.metaStorage, nd.counted,
    nd.elections, nd.sent)

namespace Unmoved

theorem refl (nd : Node conf D) : Unmoved nd nd :=
  ⟨.inr rfl, rfl, rfl, rfl, rfl, rfl, rfl, fun _ => le_rfl, fun _ _ h => h⟩

theorem trans (h : Unmoved nd nd₁) (h' : Unmoved nd₁ nd₂) : Unmoved nd nd₂ where
  state := by
    rcases h'.state with heq | heq
    · exact .inl heq
    · rw [heq]
      exact h.state
  currentTerm := h'.currentTerm.trans h.currentTerm
  votedId := h'.votedId.trans h.votedId
  ballot := h'.ballot.trans h.ballot
  metaStorage := h'.metaStorage.trans h.metaStorage
  counted := h'.counted.trans h.counted
  elections := h'.elections.trans h.elections
  electing t := (h'.electing t).trans (h.electing t)
  answers rpc response hmem := h.answers rpc response (h'.answers rpc response hmem)

variable {nd' : Node conf D}

theorem of_electing (hseat : nd'.seat = nd.seat) (h : ∀ t, nd'.electing t ≤ nd.electing t) :
    Unmoved nd nd' := by
  simp only [seat, Prod.mk.injEq] at hseat
  obtain ⟨hstate, hterm, hvoted, hballot, hmeta, hcounted, helections, hsent⟩ := hseat
  exact ⟨.inr hstate, hterm, hvoted, hballot, hmeta, hcounted, helections, h,
    fun _ _ hmem => hsent ▸ hmem⟩

theorem of_eq (hseat : nd'.seat = nd.seat) (hcallers : nd'.callers.Perm nd.callers) :
    Unmoved nd nd' := of_electing hseat fun _ => (hcallers.count_eq _).le

theorem send {m : Message P D} (hm : ∀ rpc response, m ≠ .requestVoteResponse rpc response) :
    Unmoved nd (nd.send m) := by
  refine ⟨.inr rfl, rfl, rfl, rfl, rfl, rfl, rfl, fun _ => le_rfl, fun rpc response hmem => ?_⟩
  rcases mem_append.mp hmem with hmem | hmem
  · exact hmem
  · exact absurd (mem_singleton.mp hmem).symm (hm rpc response)

variable (rpc : AppendEntriesRpc P D)

theorem respondAppend (term : ℕ) (success : Bool) :
    Unmoved nd (nd.respondAppend rpc term success) :=
  send nofun

theorem respondSuccess (term : ℕ) : Unmoved nd (nd.respondSuccess rpc term) :=
  (respondAppend rpc term true).trans (of_eq rfl .rfl)

theorem commitAt (first last : ℕ) (peer : P) : Unmoved nd (nd.commitAt first last peer) :=
  of_eq rfl .rfl

theorem runClosure (self : P) (done : StableClosure P D) :
    Unmoved nd (nd.runClosure self done) := by
  unfold Node.runClosure
  split
  next =>
    split
    · exact respondAppend _ _ _
    · exact respondSuccess _ _
  next => exact commitAt _ _ _

theorem appendTasks (data : List (EntryData D)) : Unmoved nd (nd.appendTasks data) := by
  refine of_eq rfl ?_
  simp [Node.callers, Node.appendTasks]

theorem appendFromLeader : Unmoved nd (nd.appendFromLeader rpc) := by
  unfold Node.appendFromLeader
  dsimp only
  split
  next lm kept hlm =>
    refine of_eq rfl ?_
    simp [callers, LogManager.callers_appendEntries hlm]
  next => exact of_eq rfl .rfl
  next => exact refl nd

theorem diskTask {self : P} {task : DiskTask D (StableClosure P D) (Caller P)}
    {rest : List (DiskTask D (StableClosure P D) (Caller P))} {id : LogId}
    (h : nd.logManager.diskQueue = task :: rest) : Unmoved nd (nd.diskTask self task rest id) := by
  have hcallers := LogManager.callers_diskTask id h
  unfold Node.diskTask
  cases task with
  | stable first entries done =>
    have hdisk : Unmoved nd { nd with
        logManager := nd.logManager.diskTask (.stable first entries done) rest id } := by
      refine of_eq rfl ?_
      simp [callers, hcallers, DiskTask.caller?]
    exact hdisk.trans (runClosure self done)
  | lastLogId caller =>
    refine of_eq rfl ?_
    refine perm_iff_count.mpr fun c => ?_
    simp only [callers, hcallers, DiskTask.caller?, Option.toList_some, map_append,
      map_cons, map_nil, count_append, count_cons, count_nil]
    omega
  | truncateSuffix index term =>
    refine of_eq rfl ?_
    simp [callers, hcallers, DiskTask.caller?]

theorem callLastLogId {caller : Caller P} (h : caller ∈ nd.reading) :
    Unmoved nd (nd.callLastLogId caller) := by
  have hcallers := callers_callLastLogId h
  unfold Node.callLastLogId at hcallers ⊢
  dsimp only at hcallers ⊢
  split at hcallers <;> exact of_eq rfl hcallers

theorem erase_resumed {caller : Caller P} {id : LogId} (h : (caller, id) ∈ nd.resumed) :
    Unmoved nd { nd with resumed := nd.resumed.erase (caller, id) } := by
  refine of_electing rfl fun t => ?_
  rw [Node.electing, Node.electing, (Node.callers_erase_resumed h).count_eq, count_cons]
  exact Nat.le_add_right _ _

theorem diskEnd (id : LogId) : Unmoved nd { nd with logManager := nd.logManager.diskEnd id } := by
  refine of_eq rfl ?_
  simp only [callers, LogManager.diskEnd]
  split <;> rfl

theorem setAppliedId (id : LogId) :
    Unmoved nd { nd with logManager := nd.logManager.setAppliedId id } := by
  refine of_eq rfl ?_
  simp only [callers, LogManager.setAppliedId]
  split <;> rfl

theorem setSnapshot {id : LogId} {lm : LogManager D (StableClosure P D) (Caller P)}
    (h : nd.logManager.setSnapshot id = some lm) :
    Unmoved nd { nd with logManager := lm, saving := none } := by
  refine of_eq rfl ?_
  simp only [callers, LogManager.callers_setSnapshot h]
  rfl

theorem clearMemoryLogs {count : ℕ} {lm : LogManager D (StableClosure P D) (Caller P)}
    (h : nd.logManager.clearMemoryLogs count = some lm) :
    Unmoved nd { nd with logManager := lm } := by
  refine of_eq rfl ?_
  simp only [callers, LogManager.callers_clearMemoryLogs h]
  rfl

theorem stepDown {term : ℕ} (ok : Bool) (hterm : term ≤ nd.currentTerm) :
    Unmoved nd (nd.stepDown term ok) := by
  unfold Node.stepDown
  cases nd.state with
  | leader | candidate | follower =>
    rw [if_neg (not_lt.mpr hterm)]
    exact ⟨.inl rfl, rfl, rfl, rfl, rfl, rfl, rfl, fun _ => le_rfl, fun _ _ h => h⟩

theorem setLastLogId (id : LogId) :
    Unmoved nd { nd with voteCtx := { nd.voteCtx with lastLogId := id } } := of_eq rfl .rfl

theorem requestPeersToVote (self : P) : Unmoved nd (nd.requestPeersToVote self) := by
  refine ⟨.inr rfl, rfl, rfl, rfl, rfl, rfl, rfl, fun _ => le_rfl, fun rpc response hmem => ?_⟩
  rcases mem_append.mp hmem with hmem | hmem
  · exact hmem
  · obtain ⟨peer, -, hpeer⟩ := mem_filterMap.mp hmem
    split at hpeer <;> cases hpeer

end Unmoved

end Unmoved

/-! ## What a node knows of votes -/

section Standing

variable {P D : Type} [DecidableEq P] {conf : Configuration P}

/-- A node's own vote, where `old` are votes that it has saved. Its term may be ahead of the meta
storage; then it has no vote, or only one for itself that is still to be saved. -/
structure Voter (old : List (ℕ × P)) (n : P) (nd : Node conf D) : Prop where
  grown : old ⊆ nd.metaStorage.saved
  consistent : nd.metaStorage.Consistent
  behind : nd.metaStorage.term ≤ nd.currentTerm
  kept : nd.metaStorage.term = nd.currentTerm → nd.votedId = nd.metaStorage.votedFor
  unsaved : nd.metaStorage.term < nd.currentTerm → nd.votedId = none ∨ nd.votedId = some n
  once : ∀ t, nd.electing t ≤ 1
  electingTerm : ∀ t, 0 < nd.electing t → t ≤ nd.currentTerm
  electingVote : 0 < nd.electing nd.currentTerm →
    nd.votedId = some n ∧ nd.metaStorage.term < nd.currentTerm

/-- The votes that a node has given and counted, where `S v t c` says that the vote of `v` for `c`
in term `t` has been saved. -/
structure Poll (S : P → ℕ → P → Prop) (n : P) (nd : Node conf D) : Prop where
  saved : ∀ t c, (t, c) ∈ nd.metaStorage.saved → S n t c
  answers : ∀ rpc response, .requestVoteResponse rpc response ∈ nd.sent →
    rpc.request.peerId = n → response.granted → S n rpc.request.term rpc.request.serverId
  ballot : nd.state = .candidate ∨ 0 < nd.electing nd.currentTerm →
    ∀ v, nd.voteCtx.ballot.Found v → S v nd.currentTerm n
  counted : ∀ t v, (t, v) ∈ nd.counted → S v t n
  elected : ∀ t L, (t, L) ∈ nd.elections → ∃ Q, Consensus.Majority conf.members Q ∧ ∀ v ∈ Q, S v t n
  leader : nd.state = .leader → ∃ L, (nd.currentTerm, L) ∈ nd.elections

variable {old : List (ℕ × P)} {S S' : P → ℕ → P → Prop} {n : P} {nd nd' : Node conf D}

theorem Poll.mono (h : Poll S n nd) (hS : S ≤ S') : Poll S' n nd := { h with
  saved t c hc := hS _ _ _ (h.saved t c hc)
  answers rpc response hmem hpeer hgranted := hS _ _ _ (h.answers rpc response hmem hpeer hgranted)
  ballot hstate v hv := hS _ _ _ (h.ballot hstate v hv)
  counted t v hv := hS _ _ _ (h.counted t v hv)
  elected t L hL := by
    obtain ⟨Q, hQ, hvotes⟩ := h.elected t L hL
    exact ⟨Q, hQ, fun v hv => hS _ _ _ (hvotes v hv)⟩ }

theorem Voter.unmoved (h : Voter old n nd) (hu : Unmoved nd nd') : Voter old n nd' where
  grown := hu.metaStorage ▸ h.grown
  consistent := hu.metaStorage ▸ h.consistent
  behind := by
    rw [hu.metaStorage, hu.currentTerm]
    exact h.behind
  kept := by
    rw [hu.metaStorage, hu.currentTerm, hu.votedId]
    exact h.kept
  unsaved := by
    rw [hu.metaStorage, hu.currentTerm, hu.votedId]
    exact h.unsaved
  once t := (hu.electing t).trans (h.once t)
  electingTerm t ht := by
    rw [hu.currentTerm]
    exact h.electingTerm t (ht.trans_le (hu.electing t))
  electingVote ht := by
    rw [hu.currentTerm] at ht
    rw [hu.votedId, hu.metaStorage, hu.currentTerm]
    exact h.electingVote (ht.trans_le (hu.electing _))

theorem Poll.unmoved (h : Poll S n nd) (hu : Unmoved nd nd') : Poll S n nd' where
  saved := hu.metaStorage ▸ h.saved
  answers rpc response hmem := h.answers rpc response (hu.answers rpc response hmem)
  ballot hstate v hv := by
    rw [hu.ballot] at hv
    rw [hu.currentTerm] at hstate ⊢
    refine h.ballot ?_ v hv
    rcases hstate with hcand | hopen
    · refine .inl ?_
      rcases hu.state with hfollower | heq
      · rw [hfollower] at hcand
        cases hcand
      · exact heq ▸ hcand
    · exact .inr (hopen.trans_le (hu.electing _))
  counted := hu.counted ▸ h.counted
  elected := hu.elections ▸ h.elected
  leader hleader := by
    rw [hu.currentTerm, hu.elections]
    refine h.leader ?_
    rcases hu.state with hfollower | heq
    · rw [hfollower] at hleader
      cases hleader
    · exact heq ▸ hleader

/-! ### Stepping down -/

theorem Voter.raise (h : Voter old n nd) {term : ℕ} {ok : Bool} (hlt : nd.currentTerm < term) :
    Voter old n
      ({ nd with currentTerm := term, votedId := none }.setTermAndVotedfor term none ok) := by
  have hnew : nd.metaStorage.term < term := h.behind.trans_lt hlt
  have hnone : ¬ 0 < nd.electing term := fun hpos => absurd (h.electingTerm term hpos) (by omega)
  have hraised : Voter old n { nd with currentTerm := term, votedId := none } := { h with
    behind := hnew.le
    kept heq := absurd heq hnew.ne
    unsaved _ := .inl rfl
    electingTerm t ht := (h.electingTerm t ht).trans hlt.le
    electingVote hpos := absurd hpos hnone }
  unfold setTermAndVotedfor
  split
  · exact { hraised with
      grown v hv := mem_append_left _ (h.grown hv)
      consistent := h.consistent.setTermAndVotedfor hnew.le fun heq => absurd heq hnew.ne
      behind := le_rfl
      kept _ := rfl
      unsaved _ := .inl rfl
      electingVote hpos := absurd hpos hnone }
  · exact hraised

theorem Poll.raise (h : Poll S n nd) (hv : Voter old n nd) {term : ℕ} {ok : Bool}
    (hlt : nd.currentTerm < term) (hstate : nd.state = .follower) :
    Poll S n
      ({ nd with currentTerm := term, votedId := none }.setTermAndVotedfor term none ok) := by
  have hnone : ¬ (nd.state = .candidate ∨ 0 < nd.electing term) := by
    rintro (hcand | hpos)
    · rw [hstate] at hcand
      cases hcand
    · exact absurd (hv.electingTerm term hpos) (by omega)
  have hleader : nd.state ≠ .leader := hstate.trans_ne State.noConfusion
  have hraised : Poll S n { nd with currentTerm := term, votedId := none } := { h with
    ballot hcand := absurd hcand hnone
    leader hl := absurd hl hleader }
  unfold setTermAndVotedfor
  split
  · exact { hraised with
      saved t c hc := by
        rcases MetaStorage.mem_saved_setTermAndVotedfor.mp hc with hc | ⟨-, hc⟩
        · exact h.saved t c hc
        · cases hc }
  · exact hraised

theorem Voter.not_electing (h : Voter old n nd) (hnone : nd.votedId = none) :
    ¬ 0 < nd.electing nd.currentTerm := by
  intro hpos
  have hvoted := (h.electingVote hpos).1
  rw [hnone] at hvoted
  cases hvoted

theorem Voter.save (h : Voter old n nd) (hfirst : nd.metaStorage.term = nd.currentTerm →
    nd.metaStorage.votedFor = none) (hopen : ¬ 0 < nd.electing nd.currentTerm) (c : P) :
    Voter old n { nd with
      votedId := some c
      metaStorage := nd.metaStorage.setTermAndVotedfor nd.currentTerm (some c) } := { h with
  grown _ hv := mem_append_left _ (h.grown hv)
  consistent := h.consistent.setTermAndVotedfor h.behind hfirst
  behind := le_rfl
  kept _ := rfl
  unsaved hlt := absurd hlt (lt_irrefl _)
  electingVote hpos := absurd hpos hopen }

/-- What a node knows of votes: its own, and those that it has counted. -/
def Standing (old : List (ℕ × P)) (S : P → ℕ → P → Prop) (n : P) (nd : Node conf D) : Prop :=
  Voter old n nd ∧ Poll S n nd

namespace Standing

theorem init (S : P → ℕ → P → Prop) (n : P) : Standing [] S n (init conf D) where
  left := {
    grown := Subset.refl _
    consistent := ⟨nofun, fun c => (by simp [Node.init]), nofun⟩
    behind := le_rfl
    kept _ := rfl
    unsaved hlt := absurd hlt (lt_irrefl _)
    once _ := Nat.zero_le _
    electingTerm _ ht := absurd ht (lt_irrefl _)
    electingVote ht := absurd ht (lt_irrefl _) }
  right := {
    saved := nofun
    answers := nofun
    ballot _ v hv := absurd hv (Ballot.not_found_init v)
    counted := nofun
    elected := nofun
    leader := nofun }

variable (h : Standing old S n nd)
include h

theorem unmoved (hu : Unmoved nd nd') : Standing old S n nd' := ⟨h.1.unmoved hu, h.2.unmoved hu⟩

theorem stepDown (term : ℕ) (ok : Bool) : Standing old S n (nd.stepDown term ok) := by
  rcases lt_or_ge nd.currentTerm term with hlt | hge
  · have hu : Unmoved nd (nd.stepDown nd.currentTerm true) := Unmoved.stepDown true le_rfl
    have hdown := h.unmoved hu
    have hlt' : (nd.stepDown nd.currentTerm true).currentTerm < term := by rwa [hu.currentTerm]
    rw [stepDown_of_lt hlt]
    exact ⟨hdown.1.raise hlt', hdown.2.raise hdown.1 hlt' state_stepDown⟩
  · exact h.unmoved (Unmoved.stepDown ok hge)

theorem voteFor {candidate : P} {term : ℕ} {ok : Bool}
    (hnone : nd.votedId = none) (hterm : term ≤ nd.currentTerm)
    (hS : ∀ t c, (t, c) ∈ (nd.voteFor candidate term ok).metaStorage.saved → S n t c) :
    Standing old S n (nd.voteFor candidate term ok) := by
  have hu : Unmoved nd (nd.stepDown term ok) := Unmoved.stepDown ok hterm
  have hdown := h.unmoved hu
  have hnone' : (nd.stepDown term ok).votedId = none := hu.votedId.trans hnone
  cases ok with
  | false =>
    refine ⟨hdown.1.unmoved ?_, hdown.2.unmoved ?_⟩ <;>
      exact ⟨.inr rfl, rfl, hnone'.symm, rfl, rfl, rfl, rfl, fun _ => le_rfl, fun _ _ h => h⟩
  | true =>
    have hsave := hdown.1.save (fun heq => (hdown.1.kept heq).symm.trans hnone')
      (hdown.1.not_electing hnone') candidate
    exact ⟨hsave, { hdown.2 with
      saved := hS
      leader := hdown.2.leader }⟩

theorem respondVote (rpc : RequestVoteRpc P) : Standing old S n (nd.respondVote rpc) := by
  refine ⟨{ h.1 with }, { h.2 with answers := ?_ }⟩
  intro rpc' response hmem hpeer hgranted
  rcases mem_append.mp hmem with hmem | hmem
  · exact h.2.answers rpc' response hmem hpeer hgranted
  · cases mem_singleton.mp hmem
    obtain ⟨hterm, hvoted⟩ := of_decide_eq_true hgranted
    refine h.2.saved _ _ ?_
    rcases h.1.behind.lt_or_eq with hlt | heq
    · rcases h.1.unsaved hlt with hnone | hself
      · rw [hnone] at hvoted
        cases hvoted
      · rw [hself, Option.some_inj, ← hpeer] at hvoted
        exact absurd hvoted.symm rpc.request.distinct
    · rw [hterm, ← heq]
      exact (h.1.consistent.last _).mpr ((h.1.kept heq).symm.trans hvoted)

theorem handleRequestVoteRequest (rpc : RequestVoteRpc P) :
    Standing old S n (nd.handleRequestVoteRequest rpc) := by
  unfold Node.handleRequestVoteRequest
  split
  · exact h.respondVote rpc
  · refine h.unmoved (.of_electing rfl fun t => ?_)
    simp [electing, callers]

theorem handleRequestVoteRelocked {rpc : RequestVoteRpc P} {previousTerm : ℕ} {id : LogId}
    {ok ok' : Bool}
    (hS : ∀ t c, (t, c) ∈ (nd.handleRequestVoteRelocked rpc previousTerm id ok
      ok').metaStorage.saved → S n t c) :
    Standing old S n (nd.handleRequestVoteRelocked rpc previousTerm id ok ok') := by
  unfold Node.handleRequestVoteRelocked at hS ⊢
  refine Standing.respondVote ?_ rpc
  by_cases hprev : previousTerm = nd.currentTerm
  swap
  · rw [if_neg hprev]
    exact h
  simp only [if_pos hprev] at hS ⊢
  set nd₁ := if nd.currentTerm < rpc.request.term then nd.stepDown rpc.request.term ok else nd
    with hnd₁
  obtain ⟨h₁, hterm⟩ : Standing old S n nd₁ ∧ rpc.request.term ≤ nd₁.currentTerm := by
    rw [hnd₁]
    split_ifs with hlt
    · exact ⟨h.stepDown _ ok, currentTerm_stepDown ▸ le_max_right _ _⟩
    · exact ⟨h, not_lt.mp hlt⟩
  by_cases hvote : id.le rpc.request.lastLogId ∧ nd₁.votedId = none
  · rw [if_pos hvote] at hS ⊢
    exact h₁.voteFor hvote.2 hterm hS
  · rw [if_neg hvote]
    exact h₁

/-! ### Electing itself -/

theorem electSelf : Standing old S n (nd.electSelf n) := by
  unfold Node.electSelf
  split
  swap
  · exact h
  have hcount : ∀ t, electing { nd with
      leaderId := none
      state := .candidate
      currentTerm := nd.currentTerm + 1
      votedId := some n
      voteCtx := nd.voteCtx.init
      reading := nd.reading ++ [.electSelf (nd.currentTerm + 1)] } t =
      nd.electing t + if t = nd.currentTerm + 1 then 1 else 0 := by
    intro t
    simp only [electing, callers, count_append, count_cons, count_nil,
      beq_iff_eq, Caller.electSelf.injEq]
    split_ifs <;> omega
  have hfresh : nd.electing (nd.currentTerm + 1) = 0 := by
    by_contra hpos
    exact absurd (h.1.electingTerm _ (Nat.pos_of_ne_zero hpos)) (by omega)
  have hbehind := h.1.behind
  refine ⟨{ h.1 with
    behind := hbehind.trans (Nat.le_succ _)
    kept heq := absurd heq (by dsimp only; omega)
    unsaved _ := .inr rfl
    once t := ?_
    electingTerm t ht := ?_
    electingVote _ := ⟨rfl, Nat.lt_succ_of_le hbehind⟩ }, { h.2 with
    ballot _ v hv := absurd hv (Ballot.not_found_init v)
    leader := nofun }⟩
  · rw [hcount]
    split
    next heq => rw [heq, hfresh]
    next => exact h.1.once t
  · rw [hcount] at ht
    split at ht
    next heq => exact heq.le
    next => exact (h.1.electingTerm t ht).trans (Nat.le_succ _)

theorem grant {peer : P} (hpeer : S peer nd.currentTerm n) : Standing old S n (nd.grant peer) := by
  refine ⟨{ h.1 with }, { h.2 with ballot := ?_, counted := ?_ }⟩
  · exact fun hstate => Ballot.forall_found_grant (h.2.ballot hstate) hpeer
  · intro t v hv
    rcases mem_append.mp hv with hv | hv
    · exact h.2.counted t v hv
    · cases mem_singleton.mp hv
      exact hpeer

open Unmoved Ballot

theorem becomeLeaderIfGranted (hballot : ∀ v, nd.voteCtx.ballot.Found v → S v nd.currentTerm n) :
    Standing old S n (nd.becomeLeaderIfGranted n) := by
  unfold Node.becomeLeaderIfGranted
  split
  swap
  · exact h
  next hgranted =>
    obtain ⟨Q, hQ, hfound⟩ := majority_of_granted hgranted
    refine Standing.unmoved ?_ (appendTasks _)
    refine ⟨{ h.1 with }, { h.2 with
      ballot _ := hballot
      elected t L hL := ?_
      leader _ := ⟨_, mem_append_right _ (mem_singleton_self _)⟩ }⟩
    rcases mem_append.mp hL with hL | hL
    · exact h.2.elected t L hL
    · cases mem_singleton.mp hL
      exact ⟨Q, hQ, fun v hv => hballot v (hfound v hv)⟩

/-- `elect_self` has the mutex again, in the term for which it released it: the node has no vote but
its own, and nothing of the term is saved. -/
theorem electSelfRelocked {oldTerm : ℕ} {id : LogId} {ok : Bool}
    (hmem : (.electSelf oldTerm, id) ∈ nd.resumed)
    (hS : ∀ t c, (t, c) ∈ (electSelfRelocked n oldTerm id ok
      { nd with resumed := nd.resumed.erase (.electSelf oldTerm, id) }).metaStorage.saved →
      S n t c) :
    Standing old S n (electSelfRelocked n oldTerm id ok
      { nd with resumed := nd.resumed.erase (.electSelf oldTerm, id) }) := by
  set nd₀ : Node conf D := { nd with resumed := nd.resumed.erase (.electSelf oldTerm, id) }
    with hnd₀
  have hcount : ∀ t, nd.electing t = nd₀.electing t + if oldTerm = t then 1 else 0 :=
    electing_erase_resumed hmem
  have h₀ : Standing old S n nd₀ := h.unmoved (.of_electing rfl fun t => by rw [hcount]; omega)
  unfold Node.electSelfRelocked at hS ⊢
  split
  swap
  · exact h₀
  next hterm =>
    rw [if_pos hterm] at hS
    have hopen : 0 < nd.electing nd.currentTerm := by
      rw [hcount, if_pos hterm]
      omega
    have hclosed : ¬ 0 < nd₀.electing nd₀.currentTerm := by
      have honce := h.1.once nd₀.currentTerm
      rw [hcount, if_pos hterm] at honce
      omega
    obtain ⟨hvoted, hmeta⟩ := h.1.electingVote hopen
    have hballot := h.2.ballot (.inr hopen)
    have hu : Unmoved nd₀ ({ nd₀ with
        voteCtx := { nd₀.voteCtx with lastLogId := id } }.requestPeersToVote n) :=
      (setLastLogId id).trans (requestPeersToVote n)
    have h₁ := h₀.unmoved hu
    cases ok with
    | false =>
      refine ⟨{ h₁.1 with
        kept heq := absurd heq hmeta.ne
        unsaved _ := .inl rfl
        electingVote hpos := absurd hpos hclosed }, { h₁.2 with }⟩
    | true =>
      have hsave := h₁.1.save (fun heq => absurd heq hmeta.ne) hclosed n
      have hown : S n nd₀.currentTerm n := by
        refine hS _ _ ?_
        rw [if_pos rfl, metaStorage_becomeLeaderIfGranted]
        exact MetaStorage.mem_saved_setTermAndVotedfor.mpr (.inr ⟨rfl, rfl⟩)
      have h₂ : Standing old S n (setTermAndVotedfor nd₀.currentTerm (some n) true
          ({ nd₀ with voteCtx := { nd₀.voteCtx with lastLogId := id } }.requestPeersToVote n)) := by
        refine ⟨{ hsave with kept := fun _ => hvoted, unsaved := ?_, electingVote := ?_ },
          { h₁.2 with saved := ?_ }⟩
        · exact fun hlt => absurd hlt (lt_irrefl _)
        · exact fun hpos => absurd hpos hclosed
        · intro t c hc
          refine hS t c ?_
          rw [if_pos rfl, metaStorage_becomeLeaderIfGranted]
          exact hc
      exact (h₂.grant hown).becomeLeaderIfGranted (forall_found_grant hballot hown)

theorem handleRequestVoteResponse {rpc : RequestVoteRpc P} {response : RequestVoteResponse}
    {ok : Bool}
    (hpeer : response.granted → S rpc.request.peerId rpc.request.term n)
    (hown : nd.state = .candidate → rpc.request.term = nd.currentTerm → response.granted →
      nd.lastLeader = some rpc.request.peerId → S n nd.currentTerm n) :
    Standing old S n (nd.handleRequestVoteResponse n rpc response ok) := by
  unfold Node.handleRequestVoteResponse
  split_ifs with hversion hstate hterm hhigher hgranted hleader
  · exact h
  · exact h
  · exact h
  · exact h.stepDown _ ok
  all_goals try exact h
  all_goals
    have hcand : nd.state = .candidate := not_not.mp hstate
    have heq : rpc.request.term = nd.currentTerm := not_not.mp hterm
    have hvote : S rpc.request.peerId nd.currentTerm n := heq ▸ hpeer hgranted
    have hballot := h.2.ballot (.inl hcand)
  · have hself := hown hcand heq hgranted hleader
    exact ((h.grant hvote).grant hself).becomeLeaderIfGranted
      (forall_found_grant (forall_found_grant hballot hvote) hself)
  · exact (h.grant hvote).becomeLeaderIfGranted (forall_found_grant hballot hvote)

/-! ### Everything else -/

theorem checkStepDown (term : ℕ) (serverId : P) (ok : Bool) :
    Standing old S n (nd.checkStepDown term serverId ok) := by
  unfold Node.checkStepDown
  set nd₁ := if nd.currentTerm < term ∨ nd.state ≠ .follower ∨ nd.leaderId = none then
    nd.stepDown term ok else nd with hnd₁
  have h₁ : Standing old S n nd₁ := by
    rw [hnd₁]
    split
    · exact h.stepDown term ok
    · exact h
  dsimp only
  split
  · exact ⟨{ h₁.1 with }, { h₁.2 with }⟩
  · exact h₁

theorem handleAppendEntriesRequest (rpc : AppendEntriesRpc P D)
    (ok ok' : Bool) : Standing old S n (nd.handleAppendEntriesRequest rpc ok ok') := by
  unfold Node.handleAppendEntriesRequest
  split
  · exact h.unmoved (respondAppend _ _ _)
  have h₁ := h.checkStepDown rpc.request.term rpc.request.serverId ok
  set nd₁ := nd.checkStepDown rpc.request.term rpc.request.serverId ok
  dsimp only
  split
  · exact (h₁.stepDown _ ok').unmoved (respondAppend _ _ _)
  have h₂ : Standing old S n { nd₁ with lastLeader := nd₁.leaderId } :=
    ⟨{ h₁.1 with }, { h₁.2 with }⟩
  split
  · exact h₂.unmoved (respondAppend _ _ _)
  split
  · exact h₂.unmoved (respondSuccess _ _)
  · exact h₂.unmoved (appendFromLeader _)

theorem onRpcReturned (rpc : AppendEntriesRpc P D)
    (response : AppendEntriesResponse) (first : ℕ) (ok : Bool) :
    Standing old S n (nd.onRpcReturned rpc response first ok) := by
  unfold Node.onRpcReturned
  split_ifs
  · exact h
  · exact h
  · exact h.unmoved (commitAt _ _ _)
  · exact h.stepDown _ ok
  · exact h

theorem restart : Standing old S n nd.restart where
  left := { h.1 with
    behind := le_rfl
    kept _ := rfl
    unsaved hlt := absurd hlt (lt_irrefl _)
    once _ := Nat.zero_le _
    electingTerm _ ht := absurd ht (lt_irrefl _)
    electingVote ht := absurd ht (lt_irrefl _) }
  right := { h.2 with
    ballot _ v hv := absurd hv (not_found_init v)
    leader := nofun }

/-- What arrives at a node: a granted vote was saved, and so was the node's own one when it is
counted with that of the last leader. -/
theorem receive {m : Message P D} {first : ℕ} {ok ok' : Bool}
    (hvote : ∀ rpc response, m = .requestVoteResponse rpc response → response.granted →
      S rpc.request.peerId rpc.request.term n ∧
      (nd.state = .candidate → rpc.request.term = nd.currentTerm →
        nd.lastLeader = some rpc.request.peerId → S n nd.currentTerm n)) :
    Standing old S n (nd.receive n m first ok ok') := by
  cases m with
  | requestVote rpc => exact h.handleRequestVoteRequest rpc
  | requestVoteResponse rpc response =>
    unfold Node.receive
    dsimp only
    split
    · refine h.handleRequestVoteResponse (fun hg => (hvote rpc response rfl hg).1) ?_
      exact fun hcand hterm hg hleader => (hvote rpc response rfl hg).2 hcand hterm hleader
    · exact h
  | appendEntries rpc => exact h.handleAppendEntriesRequest rpc ok ok'
  | appendEntriesResponse rpc response =>
    unfold Node.receive
    dsimp only
    split
    · exact h.onRpcReturned rpc response first ok
    · exact h

theorem does [DecidableEq D] {a : Act P D} (hdoes : Does n nd a nd')
    (hS : ∀ t c, (t, c) ∈ nd'.metaStorage.saved → S n t c)
    (hvote : ∀ rpc response first ok ok',
      a = .receive (.requestVoteResponse rpc response) first ok ok' → response.granted →
      S rpc.request.peerId rpc.request.term n ∧
      (nd.state = .candidate → rpc.request.term = nd.currentTerm →
        nd.lastLeader = some rpc.request.peerId → S n nd.currentTerm n)) :
    Standing old S n nd' := by
  cases hdoes with
  | electSelf => exact h.electSelf
  | lastLogId hmem => exact h.unmoved (callLastLogId hmem)
  | @relock caller id ok ok' hmem =>
    cases caller with
    | electSelf oldTerm => exact h.electSelfRelocked hmem hS
    | requestVote rpc previousTerm =>
      exact (h.unmoved (erase_resumed hmem)).handleRequestVoteRelocked hS
  | receive =>
    refine h.receive fun rpc response hm hg => ?_
    subst hm
    exact hvote rpc response _ _ _ rfl hg
  | diskBegin => exact h.unmoved (of_eq rfl .rfl)
  | diskTask hid hqueue => exact h.unmoved (Unmoved.diskTask hqueue)
  | diskEnd hid => exact h.unmoved (Unmoved.diskEnd _)
  | @runClosure done hmem =>
    have h₁ : Standing old S n { nd with bthreads := nd.bthreads.erase done } :=
      ⟨{ h.1 with }, { h.2 with }⟩
    exact h₁.unmoved (Unmoved.runClosure n done)
  | setLastCommittedIndex hmem | onApply hlt he => exact ⟨{ h.1 with }, { h.2 with }⟩
  | apply hstate => exact h.unmoved (appendTasks _)
  | sendEntries hstate hprev => exact h.unmoved (send nofun)
  | setAppliedId => exact h.unmoved (Unmoved.setAppliedId _)
  | clearMemoryLogs hclear => exact h.unmoved (Unmoved.clearMemoryLogs hclear)
  | doSnapshotSave => exact h.unmoved (of_eq rfl .rfl)
  | setSnapshot hid hset => exact h.unmoved (Unmoved.setSnapshot hset)
  | stepDown => exact h.stepDown _ true
  | increaseTermTo => exact h.stepDown _ _
  | restart => exact h.restart

end Standing

end Standing

/-! ## Runs -/

section Runs

variable {P D : Type} [DecidableEq P] {conf : Configuration P}

/-- A vote has been saved. -/
def World.Saved (w : World conf D) (v : P) (t : ℕ) (c : P) : Prop :=
  (t, c) ∈ (w v).metaStorage.saved

/-- All nodes know of saved votes only. -/
def World.Polled (w : World conf D) : Prop := ∀ n, Standing (w n).metaStorage.saved w.Saved n (w n)

/-- Where a node is about to count the vote of its last leader, it has saved its own vote. -/
def Node.ownVoteSaved (self : P) (nd : Node conf D) : Act P D → Bool
  | .receive (.requestVoteResponse rpc response) _ _ _ =>
    response.granted → nd.state = .candidate → rpc.request.term = nd.currentTerm →
      nd.lastLeader = some rpc.request.peerId →
      nd.metaStorage.term = nd.currentTerm ∧ nd.metaStorage.votedFor = some self
  | _ => true

/-- A candidate that counts the vote of its last leader has saved its own vote. -/
def OwnVoteSaved (w : World conf D) (e : P × Act P D) : Prop := (w e.1).ownVoteSaved e.1 e.2

instance (w : World conf D) (e : P × Act P D) : Decidable (OwnVoteSaved w e) :=
  inferInstanceAs (Decidable (_ = true))

/-- At most one node becomes the leader in a term, and no vote is counted for two candidates. -/
structure ElectionSafe (w : World conf D) : Prop where
  leader : ∀ n, (w n).state = .leader → ∃ L, ((w n).currentTerm, L) ∈ (w n).elections
  elected : ∀ t n m L L', (t, L) ∈ (w n).elections → (t, L') ∈ (w m).elections → n = m
  counted : ∀ t v c c', (t, v) ∈ (w c).counted → (t, v) ∈ (w c').counted → c = c'

variable {w : World conf D}

theorem World.Polled.electionSafe (h : w.Polled) : ElectionSafe w where
  leader n := (h n).2.leader
  elected t n m L L' hn hm := by
    obtain ⟨Q, hQ, hQvotes⟩ := (h n).2.elected t L hn
    obtain ⟨R, hR, hRvotes⟩ := (h m).2.elected t L' hm
    obtain ⟨v, hvQ, hvR⟩ := hQ.meet hR
    exact (h v).1.consistent.unique t n m (hQvotes v hvQ) (hRvotes v hvR)
  counted t v c c' hc hc' :=
    (h v).1.consistent.unique t c c' ((h c).2.counted t v hc) ((h c').2.counted t v hc')

theorem World.Polled.init : World.Polled (fun _ => init conf D) := fun n => Standing.init _ n

theorem World.saved_set {n : P} {nd : Node conf D}
    (h : (w n).metaStorage.saved ⊆ nd.metaStorage.saved) : w.Saved ≤ (w.set n nd).Saved := by
  intro v t c hv
  by_cases hvn : v = n
  · subst hvn
    rw [World.Saved, World.set_self]
    exact h hv
  · rwa [World.Saved, World.set_of_ne w nd hvn]

theorem World.Polled.set {n : P} {nd : Node conf D} (h : w.Polled)
    (hstand : Standing (w n).metaStorage.saved
      (fun v t c => w.Saved v t c ∨ v = n ∧ (t, c) ∈ nd.metaStorage.saved) n nd) :
    (w.set n nd).Polled := by
  have hsaved : ∀ v t c, w.Saved v t c ∨ v = n ∧ (t, c) ∈ nd.metaStorage.saved →
      (w.set n nd).Saved v t c := by
    rintro v t c (hv | ⟨rfl, hv⟩)
    · exact World.saved_set hstand.1.grown v t c hv
    · rwa [World.Saved, World.set_self]
  refine (Function.forall_update_iff w fun m nd' =>
    Standing nd'.metaStorage.saved (w.set n nd).Saved m nd').mpr ⟨?_, fun m _ => ?_⟩
  · exact ⟨{ hstand.1 with grown := Subset.refl _ }, hstand.2.mono hsaved⟩
  · exact ⟨(h m).1, (h m).2.mono fun v t c hv => hsaved v t c (.inl hv)⟩

variable [DecidableEq D]

theorem World.Polled.step {w' : World conf D} {e : P × Act P D} (h : w.Polled)
    (hown : OwnVoteSaved w e) (hstep : w.step e = some w') : w'.Polled := by
  obtain ⟨n, a⟩ := e
  obtain ⟨hdeliver, nd, hdoes, rfl⟩ := World.step_cases hstep
  have hmono : ∀ v t c, w.Saved v t c →
      w.Saved v t c ∨ v = n ∧ (t, c) ∈ nd.metaStorage.saved := fun v t c hv => .inl hv
  have hstand : Standing (w n).metaStorage.saved
      (fun v t c => w.Saved v t c ∨ v = n ∧ (t, c) ∈ nd.metaStorage.saved) n nd := by
    refine Standing.does ⟨(h n).1, (h n).2.mono hmono⟩ hdoes (fun t c hc => .inr ⟨rfl, hc⟩) ?_
    rintro rpc response first ok ok' rfl hgranted
    obtain ⟨hreceiver, hsent⟩ := hdeliver _ _ _ _ rfl
    refine ⟨.inl ?_, fun hcand hterm hleader => .inl ?_⟩
    · rw [← hreceiver]
      exact (h _).2.answers rpc response hsent rfl hgranted
    · obtain ⟨hmeta, hvoted⟩ := of_decide_eq_true hown hgranted hcand hterm hleader
      rw [← hmeta]
      exact ((h n).1.consistent.last n).mpr hvoted
  exact h.set hstand

/-- **Election safety.** In every run in which a candidate that counts the vote of its last leader
has saved its own vote, at most one node becomes the leader in a term, and no vote is counted for
two candidates of a term: whatever happens to messages, wherever nodes crash, whichever writes
fail, and however the handlers that have released the mutex are interleaved. -/
theorem election_safety {w : World conf D}
    (h : ((group conf D).restrict OwnVoteSaved).Reachable w) : ElectionSafe w := by
  refine World.Polled.electionSafe (Transition.System.Reachable.invariant ?_ ?_ h)
  · rintro w rfl
    exact World.Polled.init
  · rintro w e w' ⟨hown, hstep⟩ hpolled
    exact hpolled.step hown hstep

end Runs

/-! ## Two leaders of one term -/

namespace Sample

scoped instance neZero : @NeZero ℕ Zero.ofOfNat0 3 := ⟨nofun⟩

def conf : Configuration (Fin 3) := ⟨[0, 1, 2], by decide⟩

abbrev Event := Fin 3 × Act (Fin 3) Unit

def start : World conf Unit := fun _ => init conf Unit

/-- The first request for votes of a node, in a term. -/
def voteRpc (candidate peer : Fin 3) (term : ℕ) (lastLogId : LogId)
    (h : candidate ≠ peer := by decide) : RequestVoteRpc (Fin 3) :=
  ⟨⟨candidate, peer, term, lastLogId, h⟩, 1, 0⟩

/-- A vote, by a node with an empty log. -/
def voteEmpty (rpc : RequestVoteRpc (Fin 3)) : List Event :=
  [(rpc.request.peerId, .receive (.requestVote rpc) 0 true true),
   (rpc.request.peerId, .lastLogId (.requestVote rpc 1)),
   (rpc.request.peerId, .relock (.requestVote rpc 1) ⟨0, 0⟩ true true)]

/-- The first entry of the leader of term 2. -/
def entry : LogEntry Unit := ⟨2, .configuration⟩

def entryRpc (peer : Fin 3) : AppendEntriesRpc (Fin 3) Unit := ⟨⟨0, peer, 2, 0, 0, [entry], 0⟩, 0⟩

/-- Node `0` leads term 2 with an empty log, and has appended its first entry. -/
def elected : List Event :=
  [(0, .electSelf), (0, .lastLogId (.electSelf 2)), (0, .relock (.electSelf 2) ⟨0, 0⟩ true true)] ++
  voteEmpty (voteRpc 0 1 2 ⟨0, 0⟩) ++
  [(0, .receive (.requestVoteResponse (voteRpc 0 1 2 ⟨0, 0⟩) ⟨2, true⟩) 0 true true)]

/-- Both others have its entry. -/
def firstTerm : List Event :=
  elected ++
  [(0, .sendEntries 1 0 1), (1, .receive (.appendEntries (entryRpc 1)) 0 true true),
   (0, .sendEntries 2 0 1), (2, .receive (.appendEntries (entryRpc 2)) 0 true true)]

/-- A candidate for term 3; `ok` is whether it can save its vote. -/
def candidacy (n : Fin 3) (ok : Bool) : List Event :=
  [(n, .electSelf), (n, .lastLogId (.electSelf 3)), (n, .diskBegin), (n, .diskTask), (n, .diskTask),
   (n, .relock (.electSelf 3) ⟨1, 2⟩ ok ok)]

def nextRpc : RequestVoteRpc (Fin 3) := voteRpc 1 0 3 ⟨1, 2⟩

/-- The request of node `2`, whose log is empty, in its second candidacy. -/
def lateRpc : RequestVoteRpc (Fin 3) := ⟨⟨2, 1, 3, ⟨0, 0⟩, by decide⟩, 2, 0⟩

/-- The old leader votes for node `1`. -/
def oldLeaderVotes : List Event :=
  [(0, .receive (.requestVote nextRpc) 0 true true), (0, .lastLogId (.requestVote nextRpc 2)),
   (0, .diskBegin), (0, .diskTask), (0, .diskTask),
   (0, .relock (.requestVote nextRpc 2) ⟨1, 2⟩ true true),
   (1, .receive (.requestVoteResponse nextRpc ⟨3, true⟩) 0 true true)]

/-- Node `1` saves its vote for itself, and is elected with the vote of its last leader. -/
def reelection : List Event := firstTerm ++ candidacy 1 true ++ oldLeaderVotes

/-- Node `1` cannot save its vote. The request of node `2` finds it without a vote; before node `1`
goes on with it, node `1` becomes the leader. -/
def unsavedVote : List Event :=
  firstTerm ++ candidacy 1 false ++ candidacy 2 true ++
  [(1, .receive (.requestVote (voteRpc 2 1 3 ⟨1, 2⟩)) 0 true true),
   (1, .lastLogId (.requestVote (voteRpc 2 1 3 ⟨1, 2⟩) 3)), (1, .diskTask)] ++
  oldLeaderVotes ++
  [(1, .relock (.requestVote (voteRpc 2 1 3 ⟨1, 2⟩) 3) ⟨1, 2⟩ true true),
   (2, .receive (.requestVoteResponse (voteRpc 2 1 3 ⟨1, 2⟩) ⟨3, true⟩) 0 true true)]

def after (events : List Event) : World conf Unit := (events.foldlM World.step start).getD start

end Sample

open Sample

open Transition

theorem election_safety_reelected : ElectionSafe (after reelection) ∧
      (after reelection 1).elections = [(3, [entry])] ∧
      (after reelection 1).counted = [(3, 1), (3, 0), (3, 1)] := by
  have hrun : reelection.foldlM (System.guardStep OwnVoteSaved World.step) start =
      some (after reelection) := rfl
  have hreach : ((group conf Unit).restrict OwnVoteSaved).Reachable (after reelection) :=
    ⟨start, rfl, System.run_restrict_of_foldlM hrun⟩
  exact ⟨election_safety hreach, rfl, rfl⟩

/-- **A vote that could not be saved counts.** The candidate becomes the leader with its own vote
and that of its last leader, although it has taken its vote back; it gives it to another candidate
of the term, which becomes the leader too. -/
theorem unsaved_vote_counts : (group conf Unit).Reachable (after unsavedVote) ∧
      ¬ ElectionSafe (after unsavedVote) := by
  have hrun : unsavedVote.foldlM World.step start = some (after unsavedVote) := rfl
  refine ⟨⟨start, rfl, System.run_of_foldlM hrun⟩, fun hsafe => ?_⟩
  have hsame : (1 : Fin 3) = 2 := hsafe.elected 3 1 2 [entry] [entry]
    (mem_singleton.mpr rfl) (mem_singleton.mpr rfl)
  cases hsame

end Braft
