import Nori.Braft.Election
import Nori.Consensus.Local

/-!
# What a node knows of the logs

The nodes of a group follow the abstract history of elections, votes and acknowledgements. What a
node has recorded (its votes and elections, the messages it has sent, what waits for its disk
thread) stays true as the history goes on; its term, its log and its ballot box go along with the
steps that the node takes itself.
-/

namespace Braft

open Consensus (Extends Inv Committed Pinned)
open Joint.BallotBox (SoundFrom)
open List

abbrev History (P D : Type) := Consensus.State P (LogEntry D)

section Facts

variable {P D : Type} (conf : Configuration P) (a : History P D) (S : P → ℕ → P → Prop) (n : P)

/-- The id of the last entry of a log that a node has had, or of a beginning of it. -/
def Known (id : LogId) : Prop := ∃ K ∈ a.past n, ∃ L, L <+: K ∧ LogId.last L = id

/-- A request for a vote names a log that the candidate has had, and comes after its own vote was
saved. -/
structure VoteOk (rpc : RequestVoteRpc P) : Prop where
  known : Known a rpc.request.serverId rpc.request.lastLogId
  term_le : rpc.request.lastLogId.term ≤ rpc.request.term
  saved : S rpc.request.serverId rpc.request.term rpc.request.serverId

/-- The peer has acknowledged everything up to the last entry of a request. -/
def Acked (request : AppendEntriesRequest P D) : Prop :=
  ∀ i ≤ request.lastLogIndex, a.acked n request.term i

def CallerOk : Caller P → Prop
  | .electSelf _ => True
  | .requestVote rpc _ => VoteOk a S rpc

def ClosureOk : StableClosure P D → Prop
  | .follower rpc term => term = rpc.request.term ∧ Acked a n rpc.request
  | .leader _ _ => True

/-- What a task of the disk thread leads to: the last id is one that the node has had. -/
def TaskOk : DiskTask D (StableClosure P D) (Caller P) → Prop
  | .stable first entries done => ClosureOk a n done ∧
      ∀ id, LogManager.writtenId first entries id = id ∨
        Known a n (LogManager.writtenId first entries id)
  | .lastLogId caller => CallerOk a S caller
  | .truncateSuffix index term => Known a n ⟨index, term⟩

variable [DecidableEq P]

/-- A leader sends a part of the book of its term; what it says to be committed there is. -/
structure AppendOk (request : AppendEntriesRequest P D) : Prop where
  elected : a.elected request.term ≠ none
  length_le : request.lastLogIndex ≤ (a.book request.term).length
  entries : ∀ j < request.entries.length,
    request.entries[j]? = (a.book request.term)[request.prevLogIndex + j]?
  prev : request.prevLogIndex = 0 ∨ ∃ e, 0 < request.prevLogIndex ∧
    (a.book request.term)[request.prevLogIndex - 1]? = some e ∧ e.term = request.prevLogTerm
  committed : ∀ k ≤ request.lastLogIndex, k ≤ request.committedIndex → k = 0 ∨
    ∃ t i, Committed conf.members a t i ∧ t ≤ request.term ∧
      (a.book request.term).take k <+: (a.book t).take i

/-- What a message of the node `n` says. -/
def MessageOk : Message P D → Prop
  | .requestVote rpc => VoteOk a S rpc
  | .requestVoteResponse rpc _ => VoteOk a S rpc
  | .appendEntries rpc => AppendOk conf a rpc.request
  | .appendEntriesResponse rpc response => response.success → Acked a n rpc.request

end Facts

section Mono

variable {P D : Type} {conf : Configuration P} {a a' : History P D} {S S' : P → ℕ → P → Prop}
  {n : P}

theorem Known.last {L K : List (LogEntry D)} (hK : K ∈ a.past n) (hL : L <+: K) :
    Known a n (LogId.last L) := ⟨K, hK, L, hL, rfl⟩

variable (hx : Extends a a')
include hx

theorem Known.mono {id : LogId} (h : Known a n id) : Known a' n id := by
  obtain ⟨K, hK, L, hL, hid⟩ := h
  exact ⟨K, hx.past n hK, L, hL, hid⟩

theorem VoteOk.mono {rpc : RequestVoteRpc P} (h : VoteOk a S rpc) (hS : S ≤ S') :
    VoteOk a' S' rpc :=
  ⟨h.known.mono hx, h.term_le, hS _ _ _ h.saved⟩

theorem Acked.mono {request : AppendEntriesRequest P D} (h : Acked a n request) :
    Acked a' n request :=
  fun i hi => hx.acked n _ i (h i hi)

theorem CallerOk.mono {caller : Caller P} (h : CallerOk a S caller) (hS : S ≤ S') :
    CallerOk a' S' caller := by
  cases caller with
  | electSelf oldTerm => exact trivial
  | requestVote rpc previousTerm => exact VoteOk.mono hx h hS

theorem ClosureOk.mono {done : StableClosure P D} (h : ClosureOk a n done) :
    ClosureOk a' n done := by
  cases done with
  | follower rpc term => exact ⟨h.1, h.2.mono hx⟩
  | leader first nentries => exact trivial

theorem TaskOk.mono {task : DiskTask D (StableClosure P D) (Caller P)} (h : TaskOk a S n task)
    (hS : S ≤ S') : TaskOk a' S' n task := by
  cases task with
  | stable first entries done =>
    exact ⟨h.1.mono hx, fun id => (h.2 id).imp_right fun hknown => hknown.mono hx⟩
  | lastLogId caller => exact CallerOk.mono hx h hS
  | truncateSuffix index term => exact Known.mono hx h

variable [DecidableEq P]

theorem AppendOk.mono {request : AppendEntriesRequest P D} (h : AppendOk conf a request) :
    AppendOk conf a' request where
  elected := hx.ne_none h.elected
  length_le := h.length_le.trans (hx.book _).length_le
  entries j hj := by
    have hlen := h.length_le
    unfold AppendEntriesRequest.lastLogIndex at hlen
    obtain ⟨R, hR⟩ := hx.book request.term
    rw [h.entries j hj, ← hR, getElem?_append_left (by omega)]
  prev := by
    rcases h.prev with hzero | ⟨e, hpos, he, hterm⟩
    · exact .inl hzero
    · obtain ⟨R, hR⟩ := hx.book request.term
      refine .inr ⟨e, hpos, ?_, hterm⟩
      rw [← hR, List.getElem?_append_left (List.getElem?_eq_some_iff.mp he).1, he]
  committed k hk hcommitted := by
    refine (h.committed k hk hcommitted).imp_right ?_
    rintro ⟨t, i, hc, ht, hpre⟩
    have hi : i ≤ (a.book t).length := hc.1.choose_spec.2.2
    refine ⟨t, i, hx.committed hc, ht, ?_⟩
    rwa [hx.take_book hi, hx.take_book (hk.trans h.length_le)]

theorem MessageOk.mono {m : Message P D} (h : MessageOk conf a S n m) (hS : S ≤ S') :
    MessageOk conf a' S' n m := by
  cases m with
  | requestVote rpc | requestVoteResponse rpc response => exact VoteOk.mono hx h hS
  | appendEntries rpc => exact AppendOk.mono hx h
  | appendEntriesResponse rpc response => exact fun hs => (h hs).mono hx

end Mono

/-! ## What a node has applied -/

section Applied

variable {D κ ι : Type} {applied applied' : List (LogEntry D)} {id : LogId}

/-- The id of the last entry of a beginning of what is applied. -/
def HasApplied (applied : List (LogEntry D)) (id : LogId) : Prop :=
  ∃ L, L <+: applied ∧ LogId.last L = id

namespace HasApplied

theorem mono (h : HasApplied applied id) (hpre : applied <+: applied') :
    HasApplied applied' id := by
  obtain ⟨L, hL, hid⟩ := h
  exact ⟨L, hL.trans hpre, hid⟩

theorem index_le (h : HasApplied applied id) : id.index ≤ applied.length := by
  obtain ⟨L, hL, rfl⟩ := h
  exact hL.length_le

theorem term_eq {logs : List (LogEntry D)} (h : HasApplied applied id)
    (happlied : applied <+: logs) : id.term = termAt logs id.index := by
  obtain ⟨L, hL, rfl⟩ := h
  have hpre := hL.trans happlied
  have hlast := LogId.last_take hpre.length_le
  rw [← prefix_iff_eq_take.mp hpre] at hlast
  exact congrArg LogId.term hlast

/-- An id that is not above that of an applied entry has no higher index either, as the terms of a
log do not fall. -/
theorem le_of_le {logs : List (LogEntry D)} {i : ℕ} {e : LogEntry D} (h : HasApplied applied id)
    (happlied : applied <+: logs)
    (hmono : ∀ {i j : ℕ} {e e' : LogEntry D}, i ≤ j → logs[i]? = some e → logs[j]? = some e' →
      e.term ≤ e'.term)
    (he : logs[i]? = some e) (hle : (⟨i + 1, e.term⟩ : LogId).le id) : i + 1 ≤ id.index := by
  rcases hle with hlt | ⟨-, hle⟩
  swap
  · exact hle
  by_contra hnot
  have hterm := h.term_eq happlied
  cases hindex : id.index with
  | zero =>
    rw [hindex] at hterm
    exact Nat.not_lt_zero _ (hterm ▸ hlt)
  | succ k =>
    have hk : k < logs.length := by
      have := h.index_le.trans happlied.length_le
      omega
    rw [hindex, termAt_succ, getElem?_eq_getElem hk, Option.map_some, Option.getD_some] at hterm
    have := hmono (by omega) (getElem?_eq_getElem hk) he
    dsimp only at hlt
    omega

end HasApplied

/-- The ids that a node remembers are of entries that it has applied, in this order: those of the
two last snapshots, that of a snapshot which is being saved, and the last applied id. What is not in
memory is on disk. -/
structure Remembers (lm : LogManager D κ ι) (applied : List (LogEntry D)) (saving : Option LogId) :
    Prop where
  first : lm.firstLogIndex = lm.virtualFirstLogId.index + 1
  virtual_le : lm.virtualFirstLogId.index ≤ lm.lastSnapshotId.index
  snapshot_le : lm.lastSnapshotId.index ≤ lm.appliedId.index
  virtual : HasApplied applied lm.virtualFirstLogId
  snapshot : HasApplied applied lm.lastSnapshotId
  appliedId : HasApplied applied lm.appliedId
  saving : ∀ id, saving = some id →
    HasApplied applied id ∧ id.index ≤ lm.appliedId.index ∧ id.le lm.appliedId
  held : ∃ m, lm.HeldFrom m

namespace Remembers

theorem init : Remembers (.init [] : LogManager D κ ι) [] none where
  first := rfl
  virtual_le := le_rfl
  snapshot_le := le_rfl
  virtual := ⟨[], prefix_rfl, rfl⟩
  snapshot := ⟨[], prefix_rfl, rfl⟩
  appliedId := ⟨[], prefix_rfl, rfl⟩
  saving := nofun
  held := ⟨0, le_rfl, rfl, nofun⟩

variable {lm lm' : LogManager D κ ι} {saving : Option LogId} (h : Remembers lm applied saving)
include h

theorem legible (happlied : applied <+: lm.logs) : lm.Legible := { h with
  virtual := h.virtual.term_eq happlied
  snapshot := h.snapshot.term_eq happlied }

theorem grow (hpre : applied <+: applied') : Remembers lm applied' saving := { h with
  virtual := h.virtual.mono hpre
  snapshot := h.snapshot.mono hpre
  appliedId := h.appliedId.mono hpre
  saving id hid := ⟨(h.saving id hid).1.mono hpre, (h.saving id hid).2⟩ }

theorem setAppliedId : Remembers (lm.setAppliedId (LogId.last applied)) applied saving := by
  unfold LogManager.setAppliedId
  split_ifs with hle
  swap
  · exact h
  obtain ⟨m, hm⟩ := h.held
  exact { h with
    snapshot_le := h.snapshot.index_le
    appliedId := ⟨applied, prefix_rfl, rfl⟩
    saving id hid := ⟨(h.saving id hid).1, (h.saving id hid).1.index_le,
      (h.saving id hid).2.2.trans hle⟩
    held := ⟨m, { hm with le := hm.le.trans h.appliedId.index_le }⟩ }

theorem save : Remembers lm applied (some lm.appliedId) := { h with
  saving id hid := by
    cases hid
    exact ⟨h.appliedId, le_rfl, LogId.le_refl _⟩ }

theorem setSnapshot {id : LogId} (hid : saving = some id) (hset : lm.setSnapshot id = some lm') :
    Remembers lm' applied none := by
  obtain ⟨hhas, hle, hle'⟩ := h.saving id hid
  obtain ⟨m, hm⟩ := h.held
  unfold LogManager.setSnapshot at hset
  rw [if_pos hle'] at hset
  split_ifs at hset with hold hterm hbefore
  · cases hset
    exact { h with saving := nofun }
  · cases hset
    have hm' : LogManager.HeldFrom { lm with
        lastSnapshotId := id, virtualFirstLogId := lm.lastSnapshotId } m := { hm with }
    exact { h with
      first := rfl
      virtual_le := (Nat.not_le.mp hold).le
      snapshot_le := hle
      virtual := h.snapshot
      snapshot := hhas
      saving := nofun
      held := hm'.truncatePrefix (Nat.succ_le_succ h.snapshot_le)
        (h.first.le.trans (Nat.succ_le_succ h.virtual_le)) }
  · cases hset
    exact { h with
      virtual_le := h.virtual_le.trans (Nat.not_le.mp hold).le
      snapshot_le := hle
      snapshot := hhas
      saving := nofun
      held := ⟨m, { hm with }⟩ }

end Remembers

end Applied

/-! ## The state of a node -/

section Replica

variable {P D : Type} {conf : Configuration P}

/-- What a leader knows of the book of its term, and of its ballots. -/
structure Leading (conf : Configuration P) (a : History P D) (term : ℕ) (logs : List (LogEntry D))
    (box : Joint.BallotBox P Unit) : Prop where
  log : logs = a.book term
  sound : SoundFrom (fun i v => a.acked v term i) box.pendingIndex box.pendingMetaQueue
  proposals : ∀ bl ∈ box.pendingMetaQueue, bl.proposal = (conf, none)
  pending : box.pendingIndex + box.pendingMetaQueue.length = logs.length + 1
  own : ∃ L₀, a.elected term = some L₀ ∧ L₀.length < box.pendingIndex
  committed : box.lastCommittedIndex < box.pendingIndex

section Leading

variable {a a' : History P D} {term : ℕ} {logs : List (LogEntry D)} {box : Joint.BallotBox P Unit}
  (h : Leading conf a term logs box) (hx : Extends a a')
include h hx

theorem Leading.mono_sound :
    SoundFrom (fun i v => a'.acked v term i) box.pendingIndex box.pendingMetaQueue :=
  h.sound.mono fun i v => hx.acked v _ i

theorem Leading.mono (hbook : a'.book term = a.book term) :
    Leading conf a' term logs box := { h with
  log := h.log.trans hbook.symm
  sound := h.mono_sound hx
  own := by
    obtain ⟨L₀, hL₀, hlen⟩ := h.own
    exact ⟨L₀, hx.elected _ L₀ hL₀, hlen⟩ }

end Leading

/-- An index that is committed as far as a node is concerned: the last one, one that it was told, or
one that it will be told when entries are stable. -/
inductive Pins (last : ℕ) (told : List ℕ) (bthreads : List (StableClosure P D))
    (tasks : List (DiskTask D (StableClosure P D) (Caller P))) : ℕ → Prop
  | committed : Pins last told bthreads tasks last
  | committing {k : ℕ} (h : k ∈ told) : Pins last told bthreads tasks k
  | bthread {rpc : AppendEntriesRpc P D} {term : ℕ} (h : .follower rpc term ∈ bthreads) :
    Pins last told bthreads tasks (min rpc.request.committedIndex rpc.request.lastLogIndex)
  | task {rpc : AppendEntriesRpc P D} {term first : ℕ} {entries : List (LogEntry D)}
      (h : .stable first entries (.follower rpc term) ∈ tasks) :
    Pins last told bthreads tasks (min rpc.request.committedIndex rpc.request.lastLogIndex)

def Node.Pins (nd : Node conf D) : ℕ → Prop :=
  Braft.Pins nd.ballotBox.lastCommittedIndex nd.committing nd.bthreads nd.logManager.diskQueue

theorem Pins.mono {last k : ℕ} {told told' : List ℕ} {bthreads bthreads' : List (StableClosure P D)}
    {tasks tasks' : List (DiskTask D (StableClosure P D) (Caller P))}
    (h : Pins last told' bthreads' tasks' k) (htold : told' ⊆ told)
    (hbthreads : bthreads' ⊆ bthreads) (htasks : tasks' ⊆ tasks) :
    Pins last told bthreads tasks k := by
  cases h with
  | committed => exact .committed
  | committing h => exact .committing (htold h)
  | bthread h => exact .bthread (hbthreads h)
  | task h => exact .task (htasks h)

variable [DecidableEq P]

/-- What a node has recorded; `old` are elections that it has won before. -/
structure Record (old : List (ℕ × List (LogEntry D))) (a : History P D) (S : P → ℕ → P → Prop)
    (n : P) (nd : Node conf D) : Prop where
  grown : old ⊆ nd.elections
  voted : ∀ t c, (t, c) ∈ nd.metaStorage.saved → a.voted n t c
  elections : ∀ t L, (t, L) ∈ nd.elections → a.elected t = some L
  commits : ∀ t L, (t, L) ∈ nd.commits → ∃ i, Committed conf.members a t i ∧ L = (a.book t).take i
  sent : ∀ m ∈ nd.sent, MessageOk conf a S n m
  reading : ∀ caller ∈ nd.reading, CallerOk a S caller
  resumed : ∀ caller id, (caller, id) ∈ nd.resumed → CallerOk a S caller ∧ Known a n id
  tasks : ∀ task ∈ nd.logManager.diskQueue, TaskOk a S n task
  bthreads : ∀ done ∈ nd.bthreads, ClosureOk a n done
  diskId : Known a n nd.logManager.diskId
  lastId : ∀ id, nd.logManager.lastId = some id → Known a n id

/-- Where a node stands in the history. -/
structure Current (a : History P D) (n : P) (nd : Node conf D) : Prop where
  term : a.term n = nd.currentTerm
  log : a.log n = nd.logManager.logs
  pos : 0 < nd.currentTerm
  electedTerm : ∀ t L, (t, L) ∈ nd.elections → t ≤ nd.currentTerm ∧ 0 < t
  notYet : nd.state = .candidate ∨ 0 < nd.electing nd.currentTerm →
    ∀ L, (nd.currentTerm, L) ∉ nd.elections
  leader : nd.state = .leader → Leading conf a nd.currentTerm nd.logManager.logs nd.ballotBox
  idle : nd.state ≠ .leader → nd.ballotBox.pendingIndex = 0 ∧ nd.ballotBox.pendingMetaQueue = []
  pinned : ∀ k, nd.Pins k → Pinned conf.members a n k
  applied : nd.applied <+: nd.logManager.logs
  appliedLength : nd.applied.length ≤ nd.ballotBox.lastCommittedIndex
  remembers : Remembers nd.logManager nd.applied nd.saving
  safe : ∀ t ∈ nd.truncations, t.Safe

variable {old : List (ℕ × List (LogEntry D))} {a a' : History P D} {S S' : P → ℕ → P → Prop}
  {n : P} {nd nd' : Node conf D}

theorem Record.mono (h : Record old a S n nd) (hx : Extends a a')
    (hS : S ≤ S') : Record old a' S' n nd := { h with
  voted t c hc := hx.voted n t c (h.voted t c hc)
  elections t L hL := hx.elected t L (h.elections t L hL)
  commits t L hL := by
    obtain ⟨i, hc, rfl⟩ := h.commits t L hL
    exact ⟨i, hx.committed hc, (hx.take_book hc.1.choose_spec.2.2).symm⟩
  sent m hm := (h.sent m hm).mono hx hS
  reading caller hcaller := (h.reading caller hcaller).mono hx hS
  resumed caller id hcaller :=
    ⟨(h.resumed caller id hcaller).1.mono hx hS, (h.resumed caller id hcaller).2.mono hx⟩
  tasks task htask := (h.tasks task htask).mono hx hS
  bthreads done hdone := (h.bthreads done hdone).mono hx
  diskId := h.diskId.mono hx
  lastId id hid := (h.lastId id hid).mono hx }

theorem Current.mono (h : Current a n nd) (hx : Extends a a') (hterm : a'.term n = a.term n)
    (hlog : a'.log n = a.log n)
    (hbook : nd.state = .leader → a'.book nd.currentTerm = a.book nd.currentTerm) :
    Current a' n nd := { h with
  term := hterm.trans h.term
  log := hlog.trans h.log
  leader hstate := (h.leader hstate).mono hx (hbook hstate)
  pinned k hk := (h.pinned k hk).of_extends hx (hlog ▸ take_prefix k _) }

theorem Current.appliedId (h : Current a n nd) :
    nd.logManager.appliedId.index ≤ nd.applied.length := h.remembers.appliedId.index_le

theorem Current.legible (h : Current a n nd) : nd.logManager.Legible :=
  h.remembers.legible h.applied

/-- What a node knows, and where it stands. -/
def Replica (old : List (ℕ × List (LogEntry D))) (a : History P D) (S : P → ℕ → P → Prop) (n : P)
    (nd : Node conf D) : Prop :=
  Record old a S n nd ∧ Current a n nd

theorem Replica.mono (h : Replica old a S n nd) (hx : Extends a a') (hterm : a'.term n = a.term n)
    (hlog : a'.log n = a.log n)
    (hbook : nd.state = .leader → a'.book nd.currentTerm = a.book nd.currentTerm)
    (hS : S ≤ S') : Replica old a' S' n nd :=
  ⟨h.1.mono hx hS, h.2.mono hx hterm hlog hbook⟩

/-! ## Steps that leave the history as it is -/

variable {old : List (ℕ × List (LogEntry D))} {own : ℕ → Prop} {a a' : History P D}
  {S S' : P → ℕ → P → Prop} {n : P} {nd nd' : Node conf D}

/-- A node that stands for election, or is about to, stands as before. -/
theorem Current.notYet_of_unmoved (h : Current a n nd) (hu : Unmoved nd nd')
    (hstate : nd'.state = nd.state)
    (hstand : nd'.state = .candidate ∨ 0 < nd'.electing nd'.currentTerm) (L : List (LogEntry D)) :
    (nd'.currentTerm, L) ∉ nd'.elections := by
  rw [hstate, hu.currentTerm] at hstand
  rw [hu.currentTerm, hu.elections]
  exact h.notYet (hstand.imp_right fun hpos => hpos.trans_le (hu.electing _)) L

namespace Replica

variable (h : Replica old a S n nd)
include h

theorem send {m : Message P D} (hm : MessageOk conf a S n m) : Replica old a S n (nd.send m) := by
  have hsent := forall_mem_append.mpr ⟨h.1.sent, forall_mem_singleton.mpr hm⟩
  exact ⟨{ h.1 with sent := hsent }, { h.2 with }⟩

theorem respondFailure (rpc : AppendEntriesRpc P D) (term : ℕ) :
    Replica old a S n (nd.respondAppend rpc term false) :=
  h.send nofun

theorem respondSuccess {rpc : AppendEntriesRpc P D}
    (hacked : Acked a n rpc.request) (hpinned : Pinned conf.members a n
      (min rpc.request.committedIndex rpc.request.lastLogIndex)) (term : ℕ) :
    Replica old a S n (nd.respondSuccess rpc term) := by
  have hsend : Replica old a S n (nd.respondAppend rpc term true) := h.send fun _ => hacked
  refine ⟨{ hsend.1 with }, { h.2 with
    notYet := h.2.notYet_of_unmoved (Unmoved.respondSuccess rpc term) rfl
    pinned := fun k hk => ?_ }⟩
  cases hk with
  | committed => exact h.2.pinned _ .committed
  | committing hk =>
    rcases mem_append.mp hk with hk | hk
    · exact h.2.pinned k (.committing hk)
    · exact mem_singleton.mp hk ▸ hpinned
  | bthread hk => exact h.2.pinned _ (.bthread hk)
  | task hk => exact h.2.pinned _ (.task hk)

theorem callLastLogId {caller : Caller P} (hs : Inv conf.members LogEntry.term a)
    (hmem : caller ∈ nd.reading) : Replica old a S n (nd.callLastLogId caller) := by
  have hu := Unmoved.callLastLogId hmem
  have hcaller := h.1.reading caller hmem
  have hreading : ∀ c ∈ nd.reading.erase caller, CallerOk a S c :=
    fun c hc => h.1.reading c (mem_of_mem_erase hc)
  unfold Node.callLastLogId LogManager.requestLastLogId at hu ⊢
  by_cases hempty : nd.logManager.lastLogIndex = nd.logManager.lastSnapshotId.index
  · simp only [if_pos hempty] at hu ⊢
    refine ⟨{ h.1 with reading := hreading, resumed := ?_ }, { h.2 with
      notYet := h.2.notYet_of_unmoved hu rfl }⟩
    intro c id hc
    rcases mem_append.mp hc with hc | hc
    · exact h.1.resumed c id hc
    · cases mem_singleton.mp hc
      obtain ⟨L, hL, hid⟩ := h.2.remembers.snapshot
      exact ⟨hcaller, a.log n, hs.current n, L, h.2.log ▸ hL.trans h.2.applied, hid⟩
  · simp only [if_neg hempty] at hu ⊢
    obtain ⟨m, hm⟩ := h.2.remembers.held
    have hheld : LogManager.HeldFrom { nd.logManager with
        diskQueue := nd.logManager.diskQueue ++ [.lastLogId caller] } m := { hm with
      written i hi hread := { hm.written i hi hread with
        kept k t hk := (hm.written i hi hread).kept k t (by simpa using hk) } }
    refine ⟨{ h.1 with reading := hreading, tasks := ?_ }, { h.2 with
      notYet := h.2.notYet_of_unmoved hu rfl
      remembers := { h.2.remembers with held := ⟨m, hheld⟩ }
      pinned := fun k hk => h.2.pinned k ?_ }⟩
    · exact forall_mem_append.mpr ⟨h.1.tasks, forall_mem_singleton.mpr hcaller⟩
    · cases hk with
      | committed => exact .committed
      | committing hk => exact .committing hk
      | bthread hk => exact .bthread hk
      | task hk =>
        rcases mem_append.mp hk with hk | hk
        · exact .task hk
        · cases mem_singleton.mp hk

theorem erase_resumed {caller : Caller P} {id : LogId} (hmem : (caller, id) ∈ nd.resumed) :
    Replica old a S n { nd with resumed := nd.resumed.erase (caller, id) } := by
  refine ⟨{ h.1 with resumed := ?_ }, { h.2 with
    notYet := h.2.notYet_of_unmoved (Unmoved.erase_resumed hmem) rfl }⟩
  exact fun c id' hc => h.1.resumed c id' (mem_of_mem_erase hc)

theorem diskBegin : Replica old a S n { nd with logManager := nd.logManager.diskBegin } := by
  obtain ⟨m, hm⟩ := h.2.remembers.held
  refine ⟨{ h.1 with lastId := ?_ }, { h.2 with
    remembers := { h.2.remembers with held := ⟨m, { hm with }⟩ } }⟩
  intro id hid
  cases hid
  exact h.1.diskId

theorem diskEnd {id : LogId} (hid : nd.logManager.lastId = some id) :
    Replica old a S n { nd with logManager := nd.logManager.diskEnd id } := by
  unfold LogManager.diskEnd
  have hnone : ∀ id : LogId, none = some id → Known a n id := by
    intro id hid
    cases hid
  obtain ⟨m, hm⟩ := h.2.remembers.held
  split_ifs
  · exact ⟨{ h.1 with diskId := h.1.lastId id hid, lastId := hnone },
      { h.2 with remembers := { h.2.remembers with held := ⟨m, { hm with }⟩ } }⟩
  · exact ⟨{ h.1 with lastId := hnone },
      { h.2 with remembers := { h.2.remembers with held := ⟨m, { hm with }⟩ } }⟩

/-- **What the ballot box of a leader commits is committed.** -/
theorem commitAt {first last : ℕ} {peer : P}
    (hpeer : nd.state = .leader → ∀ i ≤ last, i ≤ nd.logManager.logs.length →
      a.acked peer nd.currentTerm i) :
    Replica old a S n (nd.commitAt first last peer) := by
  by_cases hstate : nd.state = .leader
  swap
  · rw [Node.commitAt, Joint.BallotBox.commitAt_of_eq_zero (h.2.idle hstate).1, if_pos rfl]
    exact h
  have hlead := h.2.leader hstate
  have hpending := hlead.pending
  obtain ⟨L₀, hL₀, hown⟩ := hlead.own
  have hgrants : ∀ i, nd.ballotBox.pendingIndex ≤ i → i ≤ last →
      i < nd.ballotBox.pendingIndex + nd.ballotBox.pendingMetaQueue.length →
      a.acked peer nd.currentTerm i := fun i _ hi hlt => hpeer hstate i hi (by omega)
  have hlen := (nd.ballotBox.commitAt_indexes first last peer).2.1
  obtain ⟨⟨-, hsound, ⟨-, hqueue⟩, hcases⟩, -⟩ := Joint.BallotBox.commitAt_cases hlead.sound hgrants
  unfold Node.commitAt
  dsimp only at hlen ⊢
  set box := (nd.ballotBox.commitAt first last peer).2.1
  have hproposals : ∀ bl ∈ box.pendingMetaQueue, bl.proposal = (conf, none) := by
    intro bl hbl
    have hmem := hqueue ▸ mem_map_of_mem hbl
    obtain ⟨bl₀, hbl₀, heq⟩ := mem_map.mp (mem_of_mem_drop hmem)
    exact heq ▸ hlead.proposals bl₀ hbl₀
  rcases hcases with ⟨hlast, hindex⟩ | ⟨-, ⟨hge, bl, hbl, hmost⟩, hindex⟩
  · rw [if_pos hlast]
    refine ⟨{ h.1 with }, { h.2 with
      leader _ :=
        ⟨hlead.log, hsound, hproposals, hlen.trans hpending, ⟨L₀, hL₀, hindex ▸ hown⟩, ?_⟩
      idle hnot := absurd hstate hnot
      pinned k hk := h.2.pinned k (show Pins _ _ _ _ _ from hlast ▸ hk)
      appliedLength := hlast ▸ h.2.appliedLength }⟩
    rw [hlast, hindex]
    exact hlead.committed
  · have hlt := (List.getElem?_eq_some_iff.mp hbl).1
    have hbook : box.lastCommittedIndex ≤ (a.book nd.currentTerm).length := by
      rw [← hlead.log]
      omega
    have hconf : bl.conf = conf :=
      congrArg Prod.fst (hlead.proposals bl (mem_of_getElem? hbl))
    obtain ⟨Q, hQ, hacked⟩ := hconf ▸ hmost.1
    have hcommitted : Committed conf.members a nd.currentTerm box.lastCommittedIndex :=
      ⟨⟨L₀, hL₀, hown.trans_le hge, hbook⟩, Q, hQ, hacked⟩
    have hpin : Pinned conf.members a n box.lastCommittedIndex := by
      refine ⟨?_, .inr ⟨nd.currentTerm, box.lastCommittedIndex, hcommitted, h.2.term.ge, ?_⟩⟩
      · rwa [h.2.log, hlead.log]
      · rw [h.2.log, hlead.log]
    refine ⟨{ h.1 with commits := ?_ }, { h.2 with
      leader _ := ⟨hlead.log, hsound, hproposals, hlen.trans hpending, ⟨L₀, hL₀, ?_⟩, ?_⟩
      idle hnot := absurd hstate hnot
      pinned := ?_
      appliedLength := h.2.appliedLength.trans (hlead.committed.le.trans hge) }⟩
    · intro t L hL
      split at hL
      · exact h.1.commits t L hL
      · rcases mem_append.mp hL with hL | hL
        · exact h.1.commits t L hL
        · cases mem_singleton.mp hL
          exact ⟨_, hcommitted, by rw [hlead.log]⟩
    · rw [hindex]
      exact hown.trans_le (hge.trans (Nat.le_succ _))
    · rw [hindex]
      exact Nat.lt_succ_self _
    · intro k hk
      cases hk with
      | committed => exact hpin
      | committing hk => exact h.2.pinned k (.committing hk)
      | bthread hk => exact h.2.pinned _ (.bthread hk)
      | task hk => exact h.2.pinned _ (.task hk)

theorem setLastCommittedIndex {index : ℕ} (hmem : index ∈ nd.committing) :
    Replica old a S n { nd with
      committing := nd.committing.erase index
      ballotBox := (nd.ballotBox.setLastCommittedIndex index).1 } := by
  have hcommitting : nd.committing.erase index ⊆ nd.committing := erase_subset
  have hkeep : Replica old a S n { nd with committing := nd.committing.erase index } :=
    ⟨{ h.1 with }, { h.2 with
      pinned k hk := h.2.pinned k
        (hk.mono hcommitting (.refl _) (.refl _)) }⟩
  rcases nd.ballotBox.setLastCommittedIndex_cases index with heq | ⟨hpending, hlt, heq⟩
  · rw [heq]
    exact hkeep
  · rw [heq]
    refine ⟨{ h.1 with }, { h.2 with
      leader hstate := ?_
      pinned := ?_
      appliedLength := h.2.appliedLength.trans hlt.le }⟩
    · have hpos := (h.2.leader hstate).committed
      omega
    · intro k hk
      cases hk with
      | committed => exact h.2.pinned index (.committing hmem)
      | committing hk => exact h.2.pinned k (.committing (hcommitting hk))
      | bthread hk => exact h.2.pinned _ (.bthread hk)
      | task hk => exact h.2.pinned _ (.task hk)

theorem onApply {e : LogEntry D} (hlt : nd.applied.length < nd.ballotBox.lastCommittedIndex)
    (he : nd.logManager.getEntry (nd.applied.length + 1) = some e) :
    Replica old a S n { nd with applied := nd.applied ++ [e] } := by
  have hfirst := h.2.remembers.first
  have hvirtual := h.2.remembers.virtual.index_le
  rw [h.2.legible.getEntry_eq (by omega), Nat.add_sub_cancel] at he
  refine ⟨{ h.1 with }, { h.2 with
    applied := ?_
    appliedLength := ?_
    remembers := h.2.remembers.grow (prefix_append _ _) }⟩
  · rw [prefix_iff_eq_take, length_append, length_singleton, take_add_one, he,
      ← prefix_iff_eq_take.mp h.2.applied]
    rfl
  · rw [length_append]
    exact hlt

theorem setAppliedId : Replica old a S n { nd with
      logManager := nd.logManager.setAppliedId
        ⟨nd.applied.length, nd.logManager.unsafeGetTerm nd.applied.length⟩ } := by
  -- the term that is read is that of the last entry applied
  have hid : LogId.last nd.applied =
      ⟨nd.applied.length, nd.logManager.unsafeGetTerm nd.applied.length⟩ := by
    rw [h.2.legible.unsafeGetTerm_eq h.2.remembers.virtual.index_le,
      ← LogId.last_take h.2.applied.length_le, ← prefix_iff_eq_take.mp h.2.applied]
  rw [← hid]
  have hr := h.2.remembers.setAppliedId
  unfold LogManager.setAppliedId at hr ⊢
  split_ifs at hr ⊢
  · exact ⟨{ h.1 with }, { h.2 with remembers := hr }⟩
  · exact h

/-- **Entries that are on disk can leave the memory.** They are among those that are applied, as the
terms of a log do not fall. -/
theorem clearMemoryLogs {count : ℕ} {lm : LogManager D (StableClosure P D) (Caller P)}
    (hs : Inv conf.members LogEntry.term a)
    (hclear : nd.logManager.clearMemoryLogs count = some lm)
    (hflushed : nd.logManager.Flushed count) :
    Replica old a S n { nd with logManager := lm } := by
  obtain ⟨hids, rfl⟩ := Option.ite_some_none_eq_some.mp hclear
  obtain ⟨m, hm⟩ := h.2.remembers.held
  have hheld := hm.clear hflushed fun i e he hmem =>
    h.2.remembers.appliedId.le_of_le h.2.applied
      (fun hij he he' => hs.le_of_lt (h.2.log ▸ hs.traced n _ (hs.current n)) hij he he')
      he (hids _ hmem).2
  exact ⟨{ h.1 with }, { h.2 with remembers := { h.2.remembers with held := hheld } }⟩

theorem doSnapshotSave : Replica old a S n { nd with saving := some nd.logManager.appliedId } :=
  ⟨{ h.1 with }, { h.2 with remembers := h.2.remembers.save }⟩

theorem setSnapshot {id : LogId} {lm : LogManager D (StableClosure P D) (Caller P)}
    (hid : nd.saving = some id) (hset : nd.logManager.setSnapshot id = some lm) :
    Replica old a S n { nd with logManager := lm, saving := none } := by
  have hr := h.2.remembers.setSnapshot hid hset
  unfold LogManager.setSnapshot at hset
  split_ifs at hset
  all_goals
    cases hset
    exact ⟨{ h.1 with }, { h.2 with remembers := hr }⟩

theorem stepDown_of_le {term : ℕ} (ok : Bool)
    (hle : term ≤ nd.currentTerm) : Replica old a S n (nd.stepDown term ok) := by
  have hnotYet : State.follower = .candidate ∨ 0 < nd.electing nd.currentTerm →
      ∀ L, (nd.currentTerm, L) ∉ nd.elections := by
    rintro (hcand | hpos)
    · cases hcand
    · exact h.2.notYet (.inr hpos)
  unfold Node.stepDown
  cases hstate : nd.state with
  | leader =>
    rw [if_neg (not_lt.mpr hle)]
    exact ⟨{ h.1 with }, { h.2 with
      notYet := hnotYet
      leader := nofun
      idle _ := ⟨rfl, rfl⟩ }⟩
  | candidate | follower =>
    rw [if_neg (not_lt.mpr hle)]
    exact ⟨{ h.1 with }, { h.2 with
      notYet := hnotYet
      leader := nofun
      idle _ := h.2.idle fun heq => (by rw [hstate] at heq; cases heq) }⟩

end Replica

end Replica

end Braft
