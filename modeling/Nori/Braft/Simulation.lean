import Nori.Braft.Replication

/-!
# The steps of a node as steps of the history

Whatever a node does while its writes succeed is a run of the abstract history in which only this
node moves: it raises its term, votes, is elected, appends, takes over entries and acknowledges
them. The one thing it has to be trusted with is the comparison of a candidate's log with its own.

## Main results

* `Moves.becomeLeader`, `Moves.appendTasks`, `Moves.appendFromLeader`, `Moves.runClosure`: the
  steps that change the log of a node, or what is committed
* `Moves.handleRequestVoteRelocked`: the vote
-/

namespace Braft

open Option

open Consensus (Extends Inv Committed Pinned Local)
open List
open Node
open Consensus.State
open LogEntry

section Simulation

variable {P D : Type} [DecidableEq P] {conf : Configuration P}
  {old : List (ℕ × List (LogEntry D))} {own : ℕ → Prop} {a a' : History P D}
  {S S' : P → ℕ → P → Prop} {n : P} {nd nd' : Node conf D}

/-- A step of the node `n`, seen as a run of the history. -/
def Moves (old : List (ℕ × List (LogEntry D))) (own : ℕ → Prop) (a : History P D)
    (S : P → ℕ → P → Prop) (n : P) (nd' : Node conf D) : Prop :=
  ∃ a', Local conf.members LogEntry.term n own a a' ∧ Replica old a' S n nd'

theorem Moves.stay (h : Replica old a S n nd') : Moves old own a S n nd' := ⟨a, .refl a, h⟩

theorem Moves.after (hlocal : Local conf.members term n own a a')
    (h : Moves old own a' S n nd') : Moves old own a S n nd' := by
  obtain ⟨a₁, hlocal', hreplica⟩ := h
  exact ⟨a₁, hlocal.trans hlocal', hreplica⟩

/-! ## Terms -/

/-- A node that does not lead goes on to a later term. -/
theorem Current.raise {term : ℕ} (st : State) (h : Current a n nd) (hlt : nd.currentTerm < term)
    (hstate : nd.state ≠ .leader) (hst : st ≠ .leader) :
    Current (a.raise n term) n { nd with state := st, currentTerm := term } := by
  have hx : Extends a (a.raise n term) := Consensus.raise_extends (h.term ▸ hlt)
  exact { h with
    term := by simp [Consensus.State.raise]
    pos := h.pos.trans hlt
    electedTerm t L hL := ⟨(h.electedTerm t L hL).1.trans hlt.le, (h.electedTerm t L hL).2⟩
    notYet _ L hL := absurd (h.electedTerm term L hL).1 (not_le.mpr hlt)
    leader hleader := absurd hleader hst
    idle _ := h.idle hstate
    pinned k hk := (h.pinned k (hk.mono (.refl _) (.refl _)
      (.refl _))).of_extends hx <| take_prefix k _ }

namespace Moves

/-- The term is raised, and no vote is saved for it yet. -/
theorem raise {term : ℕ} (h : Replica old a S n nd) (hstate : nd.state = .follower)
    (hlt : nd.currentTerm < term) :
    Moves old own a S n
      ({ nd with currentTerm := term, votedId := none }.setTermAndVotedfor term none true) := by
  have hlt' : a.term n < term := h.2.term ▸ hlt
  have hx : Extends a (a.raise n term) := Consensus.raise_extends hlt'
  have hnot : nd.state ≠ .leader := hstate.trans_ne State.noConfusion
  have hrecord := h.1.mono hx le_rfl
  have hcurrent := h.2.raise nd.state hlt hnot hnot
  refine ⟨a.raise n term, Local.raise hlt', { hrecord with voted := ?_ }, { hcurrent with
    leader hleader := absurd hleader hnot }⟩
  intro t c hc
  rcases MetaStorage.mem_saved_setTermAndVotedfor.mp hc with hc | ⟨-, hc⟩
  · exact hrecord.voted t c hc
  · cases hc

/-- A node that steps down raises its term, or stays in the one it is in. -/
theorem stepDown (h : Replica old a S n nd) (term : ℕ) :
    Moves old own a S n (nd.stepDown term true) := by
  rcases lt_or_ge nd.currentTerm term with hlt | hge
  · have hdown := h.stepDown_of_le true (le_refl nd.currentTerm)
    rw [stepDown_of_lt hlt]
    refine raise hdown state_stepDown ?_
    rwa [currentTerm_stepDown, max_self]
  · exact .stay (h.stepDown_of_le true hge)

theorem electSelf (h : Replica old a S n nd) (hstate : nd.state ≠ .leader) :
    Moves old own a S n (nd.electSelf n) := by
  unfold Node.electSelf
  split
  swap
  · exact .stay h
  have hlt : nd.currentTerm < nd.currentTerm + 1 := Nat.lt_succ_self _
  have hlt' : a.term n < nd.currentTerm + 1 := h.2.term ▸ hlt
  have hrecord := h.1.mono (Consensus.raise_extends hlt') le_rfl
  have hcurrent := h.2.raise .candidate hlt hstate State.noConfusion
  exact ⟨a.raise n (nd.currentTerm + 1), Local.raise hlt',
    { hrecord with
      reading := forall_mem_append.mpr ⟨hrecord.reading, forall_mem_singleton.mpr trivial⟩ },
    { hcurrent with
      notYet _ L hL := absurd (h.2.electedTerm _ L hL).1 (not_le.mpr hlt)
      leader := State.noConfusion }⟩

end Moves

/-! ## Votes -/

/-- An id that is known at a node is of no later term. -/
theorem Known.term_le {id : LogId} (h : Known a n id) (hs : Inv conf.members term a) :
    id.term ≤ a.term n := by
  obtain ⟨K, hK, L, hL, rfl⟩ := h
  by_cases hne : L = []
  · subst hne
    exact Nat.zero_le _
  · obtain ⟨e, he, hterm, -⟩ := Consensus.exists_last term hne
    rw [LogId.last, hterm]
    exact hs.pastTerm n K hK e (hL.subset (mem_of_getElem? he))

theorem Replica.grant (h : Replica old a S n nd) (peer : P) : Replica old a S n (nd.grant peer) :=
  ⟨{ h.1 with }, { h.2 with }⟩

/-- A vote is given to a candidate that has been compared with the log as it is now. -/
theorem Replica.vote {c : P} {id : LogId} (h : Replica old a S n nd) (hknown : Known a c id)
    (hterm : id.term ≤ nd.currentTerm) (hup : (LogId.last nd.logManager.logs).le id)
    (votedId : Option P) :
    Local conf.members term n own a (a.vote n c) ∧ Replica old (a.vote n c) S n { nd with
        votedId
        metaStorage := nd.metaStorage.setTermAndVotedfor nd.currentTerm (some c) } := by
  obtain ⟨K, hK, L, hL, rfl⟩ := hknown
  have hbound : Consensus.lastTerm term L ≤ a.term n := by
    rw [h.2.term]
    exact hterm
  have hlog : Consensus.UpToDate term L (a.log n) := by
    rw [h.2.log, ← LogId.last_le]
    exact hup
  have hvote : Replica old (a.vote n c) S n nd :=
    h.mono Consensus.vote_extends rfl rfl (fun _ => rfl) le_rfl
  refine ⟨Local.vote hK hL hbound hlog, { hvote.1 with voted := ?_ }, { hvote.2 with }⟩
  intro t c' hc'
  rcases MetaStorage.mem_saved_setTermAndVotedfor.mp hc' with hc' | ⟨rfl, heq⟩
  · exact hvote.1.voted t c' hc'
  · cases heq
    exact .inr ⟨rfl, h.2.term.symm, rfl⟩

/-! ## Leading -/

namespace Moves

section

variable (h : Replica old a S n nd) (hs : Inv conf.members term a)
include h hs

/-- A leader appends to its log and to the book of its term. -/
theorem appendTasks (hstate : nd.state = .leader) (hown : own nd.currentTerm)
    (data : List (EntryData D)) :
    Moves old own a S n (nd.appendTasks data) := by
  have hlead := h.2.leader hstate
  obtain ⟨L₀, hL₀, hlen⟩ := hlead.own
  set es : List (LogEntry D) := data.map (⟨nd.currentTerm, ·⟩) with hes
  have hmoved : Local conf.members term n own a (a.appendAll n es) := by
    refine Local.appendAll ?_ ?_ ?_ (h.2.term.symm ▸ hown)
    · rw [h.2.term, hL₀]
      exact some_ne_none L₀
    · rw [h.2.log, hlead.log, h.2.term]
    · intro e he
      obtain ⟨d, -, rfl⟩ := mem_map.mp he
      exact h.2.term.symm
  obtain ⟨hs', hx⟩ := hs.run hmoved.run
  have hlog : (a.appendAll n es).log n = nd.logManager.logs ++ es := by rw [log_appendAll, h.2.log]
  have hbook : (a.appendAll n es).book nd.currentTerm = a.book nd.currentTerm ++ es := by
    rw [← h.2.term, book_appendAll]
  have hrecord := h.1.mono hx le_rfl
  obtain ⟨m, hm⟩ := h.2.remembers.held
  have hbox := Joint.BallotBox.appendPendingTasks_eq conf nd.ballotBox data.length
  have hsound := (hlead.mono_sound hx).append conf none data.length
  unfold Node.appendTasks
  rw [hbox]
  refine ⟨a.appendAll n es, hmoved, { hrecord with tasks := ?_ }, { h.2 with
    term := by rw [term_appendAll, h.2.term]
    log := hlog
    notYet := ?_
    leader _ := ⟨?_, hsound, ?_, ?_, ⟨L₀, hx.elected _ L₀ hL₀, hlen⟩, hlead.committed⟩
    idle hnot := absurd hstate hnot
    pinned := ?_
    applied := h.2.applied.trans (prefix_append _ _)
    remembers := { h.2.remembers with
      held := ⟨m, hm.append (h.2.appliedId.trans h.2.applied.length_le) (fun _ => rfl) _⟩ } }⟩
  · refine forall_mem_append.mpr ⟨hrecord.tasks, forall_mem_singleton.mpr ⟨trivial, fun id => ?_⟩⟩
    by_cases hnil : es = []
    · rw [← hes, hnil]
      exact .inl rfl
    · refine .inr ?_
      rw [LogManager.lastLogIndex, LogManager.writtenId_eq hnil, ← hlog]
      exact Known.last (hs'.current n) prefix_rfl
  · intro hstand
    have hu : Unmoved nd (nd.appendTasks data) := Unmoved.appendTasks data
    exact h.2.notYet (hstand.imp_right fun hpos => hpos.trans_le (hu.electing nd.currentTerm))
  · rw [hbook, ← hlead.log]
    rfl
  · refine forall_mem_append.mpr ⟨hlead.proposals, fun bl hbl => ?_⟩
    rw [eq_of_mem_replicate hbl, Joint.Ballot.proposal_init]
  · have hpending := hlead.pending
    simp only [LogManager.appendTasks, length_append, length_replicate, length_map]
    omega
  · intro k hk
    have hold : nd.Pins k := by
      cases hk with
      | committed => exact .committed
      | committing hk => exact .committing hk
      | bthread hk => exact .bthread hk
      | task hk =>
        rcases mem_append.mp hk with hk | hk
        · exact .task hk
        · cases mem_singleton.mp hk
    refine (h.2.pinned k hold).of_extends hx ?_
    rw [hlog, ← h.2.log]
    have hprefix := take_prefix k (a.log n)
    exact hprefix.trans (prefix_append _ _)

/-- A candidate with a majority of votes is elected, and appends its first entry. -/
theorem becomeLeader {Q : Finset P} (hstate : nd.state ≠ .leader)
    (hQ : Consensus.Majority conf.members Q) (hvotes : ∀ v ∈ Q, a.voted v nd.currentTerm n)
    (hnone : a.elected nd.currentTerm = none) (hopen : ¬ 0 < nd.electing nd.currentTerm)
    (hown : own nd.currentTerm) : Moves old own a S n (nd.becomeLeader n) := by
  rw [← h.2.term] at hvotes hnone hown
  have hx : Extends a (a.elect n) := Consensus.elect_extends hs hnone
  have hmoved : Local conf.members term n own a (a.elect n) := Local.elect hQ hvotes hnone hown
  have helected : (a.elect n).elected nd.currentTerm = some nd.logManager.logs := by
    simp [elect, h.2.term, h.2.log]
  have hbook : (a.elect n).book nd.currentTerm = nd.logManager.logs := by
    simp [elect, h.2.term, h.2.log]
  have hnext : Replica old (a.elect n) S n nd :=
    h.mono hx rfl rfl (fun hleader => absurd hleader hstate) le_rfl
  have hqueue := (h.2.idle hstate).2
  have hlead : Replica old (a.elect n) S n { nd with
      voteCtx := nd.voteCtx.reset
      state := .leader
      leaderId := some n
      lastLeader := none
      ballotBox := nd.ballotBox.resetPendingIndex (nd.logManager.lastLogIndex + 1)
      elections := nd.elections ++ [(nd.currentTerm, nd.logManager.logs)] } := by
    refine ⟨{ hnext.1 with grown := ?_, elections := ?_ }, { hnext.2 with
      electedTerm := ?_
      notYet := ?_
      leader _ := {
        log := hbook.symm
        sound := ?_
        proposals := ?_
        pending := ?_
        own := ⟨_, helected, Nat.lt_succ_self _⟩
        committed := ?_ }
      idle hnot := absurd rfl hnot }⟩
    · exact fun e he => mem_append_left _ (h.1.grown he)
    · intro t L hL
      rcases mem_append.mp hL with hL | hL
      · exact hnext.1.elections t L hL
      · cases mem_singleton.mp hL
        exact helected
    · intro t L hL
      rcases mem_append.mp hL with hL | hL
      · exact h.2.electedTerm t L hL
      · cases mem_singleton.mp hL
        exact ⟨le_rfl, h.2.pos⟩
    · rintro (hcand | hpos)
      · cases hcand
      · exact absurd hpos hopen
    · rw [Joint.BallotBox.resetPendingIndex, hqueue]
      exact fun j bl hj => absurd hj (by simp)
    · rw [Joint.BallotBox.resetPendingIndex, hqueue]
      exact forall_mem_nil _
    · rw [Joint.BallotBox.resetPendingIndex, hqueue]
      rfl
    · have hlast := (h.2.pinned _ .committed).1
      rw [h.2.log] at hlast
      exact Nat.lt_succ_of_le hlast
  obtain ⟨hs', -⟩ := hs.run hmoved.run
  exact after hmoved (appendTasks hlead hs' rfl (h.2.term ▸ hown) [.configuration])

theorem becomeLeaderIfGranted (hstate : nd.state ≠ .leader)
    (hvotes : ∀ v, nd.voteCtx.ballot.Found v → a.voted v nd.currentTerm n)
    (hwin : nd.voteCtx.ballot.granted → a.elected nd.currentTerm = none ∧ own nd.currentTerm)
    (hopen : ¬ 0 < nd.electing nd.currentTerm) :
    Moves old own a S n (nd.becomeLeaderIfGranted n) := by
  unfold Node.becomeLeaderIfGranted
  split
  swap
  · exact .stay h
  next hgranted =>
    obtain ⟨Q, hQ, hfound⟩ := Ballot.majority_of_granted hgranted
    obtain ⟨hnone, hown⟩ := hwin hgranted
    exact becomeLeader h hs hstate hQ (fun v hv => hvotes v (hfound v hv)) hnone hopen hown

end

end Moves

omit [DecidableEq P] in
theorem Node.mem_elections_becomeLeaderIfGranted {nd : Node conf D}
    (h : nd.voteCtx.ballot.granted) :
    (nd.currentTerm, nd.logManager.logs) ∈ (nd.becomeLeaderIfGranted n).elections := by
  rw [becomeLeaderIfGranted, if_pos h]
  exact mem_append_right _ (mem_singleton_self _)

theorem Replica.requestPeersToVote {id : LogId} (h : Replica old a S n nd)
    (hs : Inv conf.members term a) (hknown : Known a n id)
    (hS : S n nd.currentTerm n) :
    Replica old a S n
      ({ nd with voteCtx := { nd.voteCtx with lastLogId := id } }.requestPeersToVote n) := by
  refine ⟨{ h.1 with sent := forall_mem_append.mpr ⟨h.1.sent, fun m hm => ?_⟩ }, { h.2 with }⟩
  obtain ⟨peer, -, hpeer⟩ := mem_filterMap.mp hm
  split at hpeer
  swap
  · cases hpeer
  cases hpeer
  exact ⟨hknown, h.2.term ▸ hknown.term_le hs, hS⟩

namespace Moves

/-- `elect_self` has the mutex again; the node votes for itself and asks its peers. -/
theorem electSelfRelocked {o : List (ℕ × P)} {oldTerm : ℕ} {id : LogId} (h : Replica old a S n nd)
    (hs : Inv conf.members term a) (hvoter : Voter o n nd)
    (hmem : (.electSelf oldTerm, id) ∈ nd.resumed)
    (hleader : nd.state = .leader → ∃ L, (nd.currentTerm, L) ∈ nd.elections)
    (hvotes : 0 < nd.electing nd.currentTerm →
      ∀ v, nd.voteCtx.ballot.Found v → a.voted v nd.currentTerm n)
    (hS : oldTerm = nd.currentTerm → S n nd.currentTerm n)
    (hwin : ∀ L, (nd.currentTerm, L) ∈ (electSelfRelocked n oldTerm id true
        { nd with resumed := nd.resumed.erase (.electSelf oldTerm, id) }).elections →
      ((∀ L', (nd.currentTerm, L') ∉ nd.elections) → a.elected nd.currentTerm = none) ∧
        own nd.currentTerm) :
    Moves old own a S n (electSelfRelocked n oldTerm id true
      { nd with resumed := nd.resumed.erase (.electSelf oldTerm, id) }) := by
  have hknown := (h.1.resumed _ _ hmem).2
  have h₀ := h.erase_resumed hmem
  have hcount : ∀ t, nd.electing t = electing
      { nd with resumed := nd.resumed.erase (.electSelf oldTerm, id) } t +
        if oldTerm = t then 1 else 0 := electing_erase_resumed hmem
  set nd₀ : Node conf D := { nd with resumed := nd.resumed.erase (.electSelf oldTerm, id) }
    with hnd₀
  unfold Node.electSelfRelocked at hwin ⊢
  split
  swap
  · exact .stay h₀
  next hterm =>
    simp only [if_pos hterm, if_true] at hwin ⊢
    have hopen : 0 < nd.electing nd.currentTerm := by
      rw [hcount, if_pos hterm]
      omega
    have hclosed : ¬ 0 < nd₀.electing nd₀.currentTerm := by
      have honce := hvoter.once nd₀.currentTerm
      rw [hcount, if_pos hterm] at honce
      omega
    have hnotYet := h.2.notYet (.inr hopen)
    have hstate : nd.state ≠ .leader := by
      intro hlead
      obtain ⟨L, hL⟩ := hleader hlead
      exact hnotYet L hL
    have h₁ := h₀.requestPeersToVote hs hknown (hS hterm)
    have hself : Known a n (LogId.last nd₀.logManager.logs) := by
      rw [← h₀.2.log]
      exact Known.last (hs.current n) prefix_rfl
    obtain ⟨hmoved, h₂⟩ : Local conf.members term n own a (a.vote n n) ∧ _ :=
      h₁.vote hself (h₀.2.term ▸ hself.term_le hs) (.inr ⟨rfl, le_rfl⟩) nd.votedId
    obtain ⟨hs₁, hx₁⟩ := hs.run hmoved.run
    refine after hmoved (becomeLeaderIfGranted (h₂.grant n) hs₁ hstate ?_ ?_ hclosed)
    · exact Ballot.forall_found_grant (fun v hv => hx₁.voted v _ n (hvotes hopen v hv))
        (h₂.1.voted _ _ (MetaStorage.mem_saved_setTermAndVotedfor.mpr (.inr ⟨rfl, rfl⟩)))
    · intro hgranted
      obtain ⟨hnone, hown⟩ := hwin _ (mem_elections_becomeLeaderIfGranted hgranted)
      exact ⟨hnone hnotYet, hown⟩

/-- A vote of a peer is counted, and it may be the last one that is needed. -/
theorem handleRequestVoteResponse {rpc : RequestVoteRpc P} {response : RequestVoteResponse}
    (h : Replica old a S n nd) (hs : Inv conf.members term a)
    (hvotes : nd.state = .candidate → ∀ v, nd.voteCtx.ballot.Found v → a.voted v nd.currentTerm n)
    (hpeer : response.granted → a.voted rpc.request.peerId rpc.request.term n)
    (hself : a.voted n rpc.request.term n)
    (hopen : rpc.request.term = nd.currentTerm → ¬ 0 < nd.electing nd.currentTerm)
    (hwin : ∀ L, (nd.currentTerm, L) ∈
        (nd.handleRequestVoteResponse n rpc response true).elections →
      ((∀ L', (nd.currentTerm, L') ∉ nd.elections) → a.elected nd.currentTerm = none) ∧
        own nd.currentTerm) :
    Moves old own a S n (nd.handleRequestVoteResponse n rpc response true) := by
  unfold Node.handleRequestVoteResponse at hwin ⊢
  dsimp only at hwin ⊢
  split_ifs at hwin ⊢ with hversion hcand hterm hhigher hgranted hleader
  · exact .stay h
  · exact .stay h
  · exact .stay h
  all_goals rw [not_not] at hcand hterm
  · exact stepDown h _
  · refine becomeLeaderIfGranted ((h.grant _).grant n) hs ?_ ?_ ?_ (hopen hterm)
    · exact fun hl => by cases hcand.symm.trans hl
    · exact Ballot.forall_found_grant
        (Ballot.forall_found_grant (hvotes hcand) (hterm ▸ hpeer hgranted)) (hterm ▸ hself)
    · intro hg
      obtain ⟨hnone, hown⟩ := hwin _ (mem_elections_becomeLeaderIfGranted hg)
      exact ⟨hnone (h.2.notYet (.inl hcand)), hown⟩
  · refine becomeLeaderIfGranted (h.grant _) hs ?_ ?_ ?_ (hopen hterm)
    · exact fun hl => by cases hcand.symm.trans hl
    · exact Ballot.forall_found_grant (hvotes hcand) (hterm ▸ hpeer hgranted)
    · intro hg
      obtain ⟨hnone, hown⟩ := hwin _ (mem_elections_becomeLeaderIfGranted hg)
      exact ⟨hnone (h.2.notYet (.inl hcand)), hown⟩
  · exact .stay h

end Moves

theorem Replica.handleRequestVoteRequest {rpc : RequestVoteRpc P} (h : Replica old a S n nd)
    (hrpc : VoteOk a S rpc) : Replica old a S n (nd.handleRequestVoteRequest rpc) := by
  unfold Node.handleRequestVoteRequest
  split
  · exact h.send hrpc
  · have hu : Unmoved nd
        { nd with reading := nd.reading ++ [.requestVote rpc nd.currentTerm] } := by
      refine .of_electing rfl fun t => ?_
      simp [electing, callers]
    refine ⟨{ h.1 with reading := ?_ }, { h.2 with
      notYet := h.2.notYet_of_unmoved hu rfl }⟩
    exact forall_mem_append.mpr ⟨h.1.reading, forall_mem_singleton.mpr hrpc⟩

namespace Moves

/-- `handle_request_vote_request` has the mutex again. The id that it has read is compared with the
candidate's; it has to be the voter's last id still, or a later one. -/
theorem handleRequestVoteRelocked {rpc : RequestVoteRpc P} {previousTerm : ℕ} {id : LogId}
    (h : Replica old a S n nd) (hs : Inv conf.members term a) (hrpc : VoteOk a S rpc)
    (hid : previousTerm = nd.currentTerm → (LogId.last nd.logManager.logs).le id) :
    Moves old own a S n (nd.handleRequestVoteRelocked rpc previousTerm id true true) := by
  unfold Node.handleRequestVoteRelocked
  by_cases hprev : previousTerm = nd.currentTerm
  swap
  · rw [if_neg hprev]
    exact .stay (h.send hrpc)
  simp only [if_pos hprev]
  set nd₁ := if nd.currentTerm < rpc.request.term then nd.stepDown rpc.request.term true else nd
    with hnd₁
  obtain ⟨⟨a₁, hmoved, h₁⟩, hlm, hterm⟩ : Moves old own a S n nd₁ ∧
      nd₁.logManager = nd.logManager ∧ rpc.request.term ≤ nd₁.currentTerm := by
    rw [hnd₁]
    split_ifs with hlt
    · exact ⟨stepDown h _, logManager_stepDown, currentTerm_stepDown ▸ le_max_right _ _⟩
    · exact ⟨.stay h, rfl, not_lt.mp hlt⟩
  obtain ⟨hs₁, hx₁⟩ := hs.run hmoved.run
  have hrpc₁ := hrpc.mono hx₁ le_rfl
  refine after hmoved ?_
  split_ifs with hvote
  swap
  · exact .stay (h₁.send hrpc₁)
  have hdown := h₁.stepDown_of_le true hterm
  have hdownTerm : (nd₁.stepDown rpc.request.term true).currentTerm = nd₁.currentTerm := by
    rw [currentTerm_stepDown, max_eq_left hterm]
  have hup : (LogId.last (nd₁.stepDown rpc.request.term true).logManager.logs).le
      rpc.request.lastLogId := by
    rw [logManager_stepDown, hlm]
    exact (hid hprev).trans hvote.1
  obtain ⟨hvoted, h₂⟩ : Local conf.members term n own a₁ (a₁.vote n rpc.request.serverId) ∧ _ :=
    hdown.vote hrpc₁.known (hrpc₁.term_le.trans (hdownTerm ▸ hterm)) hup (some rpc.request.serverId)
  obtain ⟨-, hx₂⟩ := hs₁.run hvoted.run
  exact after hvoted (.stay (h₂.send (hrpc₁.mono hx₂ le_rfl)))

end Moves

/-! ## Following a leader -/

omit [DecidableEq P] in
theorem pos_of_traced {L : List (LogEntry D)} (hpos : ∀ t, a.elected t ≠ none → 0 < t)
    (hL : Consensus.Traced term a L) : ∀ e ∈ L, 0 < e.term := by
  intro e he
  obtain ⟨i, hi⟩ := mem_iff_getElem?.mp he
  exact hpos _ (hL i e hi).1

section

variable {request : AppendEntriesRequest P D} (h : AppendOk conf a request)
  (hcurrent : Current a n nd) (hs : Inv conf.members LogEntry.term a)
  (hpos : ∀ t, a.elected t ≠ none → 0 < t)
include h hcurrent hs hpos

/-- Where the terms agree, the logs agree up to there. -/
theorem AppendOk.take_prev
    (hterm : termAt nd.logManager.logs request.prevLogIndex = request.prevLogTerm) :
    request.prevLogIndex ≤ nd.logManager.logs.length ∧
      nd.logManager.logs.take request.prevLogIndex =
        (a.book request.term).take request.prevLogIndex := by
  rcases h.prev with hzero | ⟨e, hprev, he, heterm⟩
  · rw [hzero]
    exact ⟨Nat.zero_le _, rfl⟩
  obtain ⟨i, hi⟩ : ∃ i, request.prevLogIndex = i + 1 := ⟨request.prevLogIndex - 1, by omega⟩
  rw [hi, Nat.add_sub_cancel] at he
  rw [hi, termAt_succ, ← heterm] at hterm
  have htraced := hs.traced n _ (hs.current n)
  rw [hcurrent.log] at htraced
  have hepos := pos_of_traced hpos (hs.tracedBook _) e (List.mem_of_getElem? he)
  cases hlog : nd.logManager.logs[i]? with
  | none =>
    rw [hlog] at hterm
    simp only [map_none, getD_none] at hterm
    omega
  | some e' =>
    rw [hlog] at hterm
    rw [hi]
    exact ⟨(List.getElem?_eq_some_iff.mp hlog).1,
      Inv.take_eq htraced (hs.tracedBook _) hlog he hterm⟩

theorem AppendOk.sent
    (hprev : termAt nd.logManager.logs request.prevLogIndex = request.prevLogTerm) :
    nd.logManager.Sent (a.book request.term) request.prevLogIndex request.entries := by
  obtain ⟨hprevLe, htake⟩ := h.take_prev hcurrent hs hpos hprev
  have htraced := hs.traced n _ (hs.current n)
  rw [hcurrent.log] at htraced
  exact { h with
    entries_eq := h.entries
    matching i e e' he he' heq := Inv.take_eq htraced (hs.tracedBook _) he he' heq
    pos := pos_of_traced hpos (hs.tracedBook _)
    prev_le := hprevLe
    take_prev := htake }

/-- The term before the entries is read as the log has it, unless they are said to begin at `1`;
then it is not looked at. -/
theorem AppendOk.readable
    (hterm : nd.logManager.unsafeGetTerm request.prevLogIndex = request.prevLogTerm) :
    termAt nd.logManager.logs request.prevLogIndex = request.prevLogTerm ∧
      (request.prevLogIndex = 0 ∨
        nd.logManager.virtualFirstLogId.index ≤ request.prevLogIndex) := by
  rcases h.prev with hzero | ⟨e, hprev, he, heterm⟩
  · rw [hzero] at hterm ⊢
    exact ⟨hterm, .inl rfl⟩
  · have hpos := pos_of_traced hpos (hs.tracedBook _) e (List.mem_of_getElem? he)
    have hle : nd.logManager.virtualFirstLogId.index ≤ request.prevLogIndex := by
      by_contra hlt
      rw [hcurrent.legible.unsafeGetTerm_of_lt (not_le.mp hlt)] at hterm
      omega
    rw [hcurrent.legible.unsafeGetTerm_eq hle] at hterm
    exact ⟨hterm, .inr hle⟩

end

theorem Current.committed_le (h : Current a n nd) :
    nd.ballotBox.lastCommittedIndex ≤ nd.logManager.logs.length :=
  h.log ▸ (h.pinned _ .committed).1

/-- What is committed at a follower is in the log of the leader of its term. -/
theorem AppendOk.committed_book {request : AppendEntriesRequest P D} (h : AppendOk conf a request)
    (hcurrent : Current a n nd) (hs : Inv conf.members term a)
    (hterm : nd.currentTerm = request.term) :
    nd.logManager.logs.take nd.ballotBox.lastCommittedIndex <+: a.book request.term := by
  have hterm' : a.term n = request.term := hcurrent.term.trans hterm
  have hbook := (hcurrent.pinned _ .committed).prefix_book hs (hterm' ▸ h.elected)
  rwa [hcurrent.log, hterm'] at hbook

/-- What a request tells to be committed is committed once the log has its entries. -/
theorem AppendOk.pinned {request : AppendEntriesRequest P D} (h : AppendOk conf a request)
    (hterm : a.term n = request.term)
    (hlog : (a.book request.term).take request.lastLogIndex <+: a.log n) :
    Pinned conf.members a n (min request.committedIndex request.lastLogIndex) := by
  set k := min request.committedIndex request.lastLogIndex
  have hk : k ≤ request.lastLogIndex := min_le_right _ _
  have hle := h.length_le
  have htake : (a.log n).take k = (a.book request.term).take k := by
    obtain ⟨R, hR⟩ := hlog
    rw [← hR, take_append_of_le_length (by rw [length_take]; omega), take_take, min_eq_left hk]
  refine ⟨?_, (h.committed k hk (min_le_left _ _)).imp_right ?_⟩
  · have hlen := hlog.length_le
    rw [length_take] at hlen
    omega
  · rintro ⟨t, i, hc, ht, hpre⟩
    exact ⟨t, i, hc, hterm ▸ ht, htake ▸ hpre⟩

theorem Replica.setLastLeader (h : Replica old a S n nd) (p : Option P) :
    Replica old a S n { nd with lastLeader := p } :=
  ⟨{ h.1 with }, { h.2 with }⟩

namespace Moves

theorem checkStepDown {requestTerm : ℕ} (h : Replica old a S n nd)
    (hle : nd.currentTerm ≤ requestTerm) (serverId : P) :
    Moves old own a S n (nd.checkStepDown requestTerm serverId true) ∧
      (nd.checkStepDown requestTerm serverId true).currentTerm = requestTerm ∧
      (nd.checkStepDown requestTerm serverId true).state = .follower := by
  unfold Node.checkStepDown
  set nd₁ := if nd.currentTerm < requestTerm ∨ nd.state ≠ .follower ∨ nd.leaderId = none then
    nd.stepDown requestTerm true else nd with hnd₁
  have h₁ : Moves old own a S n nd₁ ∧ nd₁.currentTerm = requestTerm ∧ nd₁.state = .follower := by
    rw [hnd₁]
    split_ifs with hdown
    · exact ⟨stepDown h _, by rw [currentTerm_stepDown, max_eq_right hle], state_stepDown⟩
    · rw [not_or, not_or, not_not] at hdown
      exact ⟨.stay h, le_antisymm hle (not_lt.mp hdown.1), hdown.2.1⟩
  obtain ⟨⟨a₁, hmoved, h₁⟩, hterm, hstate⟩ := h₁
  dsimp only
  split
  · refine ⟨⟨a₁, hmoved, { h₁.1 with }, { h₁.2 with }⟩, hterm, hstate⟩
  · exact ⟨⟨a₁, hmoved, h₁⟩, hterm, hstate⟩

section

variable (h : Replica old a S n nd) (hs : Inv conf.members term a)
include h hs

/-- A follower that has the entries of a request acknowledges them. -/
theorem ack {request : AppendEntriesRequest P D} (hrequest : AppendOk conf a request)
    (hterm : nd.currentTerm = request.term)
    (hlog : (a.book request.term).take request.lastLogIndex <+: nd.logManager.logs) :
    ∃ a', Local conf.members term n own a a' ∧ Replica old a' S n nd ∧ Acked a' n request ∧
      Pinned conf.members a' n (min request.committedIndex request.lastLogIndex) := by
  have hterm' : a.term n = request.term := h.2.term.trans hterm
  have hpre : (a.book (a.term n)).take request.lastLogIndex <+: a.log n := by
    rw [hterm', h.2.log]
    exact hlog
  have hmoved : Local conf.members term n own a (a.ackUpTo n request.lastLogIndex) :=
    Local.ackUpTo (hterm'.symm ▸ hrequest.length_le) hpre
  obtain ⟨-, hx⟩ := hs.run hmoved.run
  refine ⟨_, hmoved, h.mono hx rfl rfl (fun _ => rfl) le_rfl, ?_, ?_⟩
  · intro i hi
    rw [← hterm']
    exact acked_ackUpTo hi
  · refine (hrequest.mono hx).pinned hterm' ?_
    rw [← hterm']
    exact hpre

/-- A follower takes the entries of its leader over, and acknowledges them all. -/
theorem appendFromLeader {rpc : AppendEntriesRpc P D} (hpos : ∀ t, a.elected t ≠ none → 0 < t)
    (hrequest : AppendOk conf a rpc.request) (hterm : nd.currentTerm = rpc.request.term)
    (hstate : nd.state ≠ .leader)
    (hprev : termAt nd.logManager.logs rpc.request.prevLogIndex = rpc.request.prevLogTerm)
    (hreads : nd.logManager.virtualFirstLogId.index ≤ rpc.request.prevLogIndex + 1 ∨
      rpc.request.lastLogIndex ≤ nd.logManager.appliedId.index)
    (hne : rpc.request.entries ≠ []) : Moves old own a S n (nd.appendFromLeader rpc) := by
  have hterm' : a.term n = rpc.request.term := h.2.term.trans hterm
  have helected : a.elected (a.term n) ≠ none := hterm' ▸ hrequest.elected
  have hsent := hrequest.sent h.2 hs hpos hprev
  have hbook := hrequest.committed_book h.2 hs hterm
  have hlast := h.2.committed_le
  have happlied := h.2.appliedId.trans h.2.appliedLength
  have hkeep : nd.logManager.logs.take nd.logManager.appliedId.index <+:
      a.book rpc.request.term := (take_prefix_take_left happlied).trans hbook
  have hu : Unmoved nd (nd.appendFromLeader rpc) := Unmoved.appendFromLeader rpc
  unfold Node.appendFromLeader at hu ⊢
  rcases LogManager.appendEntries_cases hsent h.2.legible hreads hne (happlied.trans hlast) hkeep
      (.follower rpc nd.currentTerm) with
    ⟨herror, hpre⟩ | ⟨logs, memory, queue, kept, hok, hlogs, hheld, hsafe, htasks⟩
  · simp only [herror] at hu ⊢
    obtain ⟨a', hmoved, h', hacked, hpinned⟩ := ack h hs hrequest hterm hpre
    refine ⟨a', hmoved, { h'.1 with bthreads := ?_ }, { h'.2 with
      notYet := h'.2.notYet_of_unmoved hu rfl
      pinned := fun k hk => ?_ }⟩
    · exact forall_mem_append.mpr ⟨h'.1.bthreads, forall_mem_singleton.mpr ⟨hterm, hacked⟩⟩
    · cases hk with
      | committed => exact h'.2.pinned _ .committed
      | committing hk => exact h'.2.pinned _ (.committing hk)
      | bthread hk =>
        rcases mem_append.mp hk with hk | hk
        · exact h'.2.pinned _ (.bthread hk)
        · cases mem_singleton.mp hk
          exact hpinned
      | task hk => exact h'.2.pinned _ (.task hk)
  · simp only [hok] at hu ⊢
    set j := rpc.request.prevLogIndex + rpc.request.entries.length with hj
    have hlog₁ : (a.accept n j).log n = logs := by
      rw [hlogs]
      simp [accept, setLog, h.2.log, hterm']
    have hpre₁ : (a.book rpc.request.term).take j <+: logs := by
      rw [hlogs]
      exact Consensus.prefix_overlay
    have hmoved₁ : Local conf.members term n own a (a.accept n j) := Local.accept helected
    have hmoved₂ : Local conf.members term n own (a.accept n j) ((a.accept n j).ackUpTo n j) := by
      refine Local.ackUpTo ?_ ?_
      · exact hterm' ▸ hrequest.length_le
      · rw [hlog₁]
        exact hterm' ▸ hpre₁
    obtain ⟨hs₁, hx₁⟩ := hs.run hmoved₁.run
    obtain ⟨hs₂, hx₂⟩ := hs₁.run hmoved₂.run
    set a₂ := (a.accept n j).ackUpTo n j with ha₂
    have hx := hx₁.trans hx₂
    have hrecord := h.1.mono hx le_rfl
    have hacked : Acked a₂ n rpc.request := fun i hi => hterm' ▸ acked_ackUpTo hi
    have hpinned : Pinned conf.members a₂ n
        (min rpc.request.committedIndex rpc.request.lastLogIndex) :=
      (hrequest.mono hx).pinned hterm' (hlog₁ ▸ hpre₁)
    have hpins : ∀ k, nd.Pins k → Pinned conf.members a₂ n k := fun k hk =>
      ((h.2.pinned k hk).accept hs helected).of_extends hx₂ <| take_prefix k _
    refine ⟨a₂, hmoved₁.trans hmoved₂, { hrecord with tasks := ?_ }, { h.2 with
      log := hlog₁
      notYet hstand := h.2.notYet (hstand.imp_right fun hp => hp.trans_le (hu.electing _))
      leader hleader := absurd hleader hstate
      pinned := ?_
      applied := ?_
      remembers := { h.2.remembers with held := hheld }
      safe := ?_ }⟩
    · intro task htask
      rcases htasks task htask with htask | ⟨k, hk, rfl⟩ | ⟨first, rest, rfl, hwritten⟩
      · exact hrecord.tasks task htask
      · have hknown : Known a n (LogId.last (nd.logManager.logs.take k)) :=
          Known.last (hs.current n) (h.2.log ▸ take_prefix k _)
        rw [LogId.last_take hk] at hknown
        exact hknown.mono hx
      · refine ⟨⟨hterm, hacked⟩, fun id => (hwritten id).imp_right fun hid => ?_⟩
        rw [hid, ← hlog₁]
        exact Known.last (hs₂.current n) prefix_rfl
    · intro k hk
      cases hk with
      | committed => exact hpins _ .committed
      | committing hk => exact hpins k (.committing hk)
      | bthread hk => exact hpins _ (.bthread hk)
      | task hk =>
        rcases htasks _ hk with hk | ⟨_, _, heq⟩ | ⟨_, _, heq, _⟩
        · exact hpins _ (.task hk)
        · cases heq
        · cases heq
          exact hpinned
    · have hcommitted := take_prefix nd.ballotBox.lastCommittedIndex nd.logManager.logs
      have hshort : nd.applied <+: a.book rpc.request.term :=
        (prefix_of_prefix_length_le h.2.applied hcommitted (by
          rw [length_take, min_eq_left hlast]
          exact h.2.appliedLength)).trans hbook
      rw [hlogs]
      exact Consensus.overlay_keeps h.2.applied hshort <| take_prefix _ _
    · refine forall_mem_append.mpr ⟨h.2.safe, fun t ht => ?_⟩
      obtain ⟨k, hk, rfl⟩ := map_eq_some_iff.mp (mem_toList.mp ht)
      exact hsafe k hk

/-- A node that hears of a leader is in its term afterwards, and follows it. -/
theorem follow {request : AppendEntriesRequest P D} (own : ℕ → Prop)
    (hpos : ∀ t, a.elected t ≠ none → 0 < t)
    (hown : ∀ t, own t → 0 < t) (hrequest : AppendOk conf a request)
    (hle : nd.currentTerm ≤ request.term) :
    ∃ a₁, Local conf.members term n own a a₁ ∧
      Replica old a₁ S n (nd.checkStepDown request.term request.serverId true) ∧
      Inv conf.members term a₁ ∧ (∀ t, a₁.elected t ≠ none → 0 < t) ∧
      AppendOk conf a₁ request ∧
      (nd.checkStepDown request.term request.serverId true).currentTerm = request.term ∧
      (nd.checkStepDown request.term request.serverId true).state = .follower := by
  obtain ⟨⟨a₁, hmoved, h₁⟩, hterm, hstate⟩ : Moves old own a S n _ ∧ _ :=
    checkStepDown h hle request.serverId
  obtain ⟨hs₁, hx₁⟩ := hs.run hmoved.run
  refine ⟨a₁, hmoved, h₁, hs₁, fun t ht => ?_, hrequest.mono hx₁, hterm, hstate⟩
  rcases hmoved.elected t with heq | hot
  · exact hpos t (heq ▸ ht)
  · exact hown t hot

/-- The answer to a request of a leader, or to a heartbeat. -/
theorem handleAppendEntriesRequest {rpc : AppendEntriesRpc P D}
    (hpos : ∀ t, a.elected t ≠ none → 0 < t)
    (hown : ∀ t, own t → 0 < t) (hrequest : AppendOk conf a rpc.request)
    (hreadable : nd.currentTerm ≤ rpc.request.term →
      nd.logManager.Readable rpc.request.prevLogIndex rpc.request.lastLogIndex) :
    Moves old own a S n (nd.handleAppendEntriesRequest rpc true true) := by
  unfold Node.handleAppendEntriesRequest
  split
  · exact .stay (h.respondFailure rpc _)
  rename_i hlt
  obtain ⟨a₁, hmoved, h₁, hs₁, hpos₁, hrequest₁, hterm, hstate⟩ :=
    follow h hs own hpos hown hrequest (not_lt.mp hlt)
  set nd₁ := nd.checkStepDown rpc.request.term rpc.request.serverId true
  refine after hmoved ?_
  dsimp only
  split
  · obtain ⟨a₂, hmoved₂, h₂⟩ : Moves old own a₁ S n (nd₁.stepDown (rpc.request.term + 1) true) :=
      stepDown h₁ _
    exact ⟨a₂, hmoved₂, h₂.respondFailure rpc _⟩
  have h₂ := h₁.setLastLeader nd₁.leaderId
  have hnot : nd₁.state ≠ .leader := hstate.trans_ne State.noConfusion
  split
  · exact .stay (h₂.respondFailure rpc _)
  rename_i hterm₁
  obtain ⟨hprev, hreads⟩ := hrequest₁.readable h₂.2 hs₁ hpos₁ (not_not.mp hterm₁)
  split
  next hempty =>
    -- a heartbeat, or a probe: the log agrees up to the entry before
    have hlast : rpc.request.lastLogIndex = rpc.request.prevLogIndex := by
      rw [AppendEntriesRequest.lastLogIndex, hempty, length_nil, Nat.add_zero]
    obtain ⟨-, htake⟩ := hrequest₁.take_prev h₂.2 hs₁ hpos₁ hprev
    obtain ⟨a₂, hmoved₂, h₃, hacked, hpinned⟩ := ack h₂ hs₁ hrequest₁ hterm (by
      rw [hlast, ← htake]
      exact take_prefix _ _)
    exact ⟨a₂, hmoved₂, h₃.respondSuccess hacked hpinned _⟩
  next hempty =>
    refine appendFromLeader h₂ hs₁ hpos₁ hrequest₁ hterm hnot hprev ?_ hempty
    have hfirst := h.2.remembers.first
    have hlm : nd₁.logManager = nd.logManager := logManager_checkStepDown
    dsimp only
    rw [hlm] at hreads ⊢
    rcases hreads with hzero | hle
    · refine (hreadable (not_lt.mp hlt) hzero).imp_left fun hle => ?_
      omega
    · exact .inl (Nat.le_succ_of_le hle)

/-! ## Entries that are stable -/

/-- The closure of written entries acknowledges them to the leader, or commits its own ones. -/
theorem runClosure {done : StableClosure P D} (hdone : ClosureOk a n done)
    (hpinned : ∀ rpc term, done = .follower rpc term → Pinned conf.members a n
      (min rpc.request.committedIndex rpc.request.lastLogIndex)) :
    Moves old own a S n (nd.runClosure n done) := by
  cases done with
  | follower rpc term =>
    unfold Node.runClosure
    dsimp only
    split
    · exact .stay (h.respondFailure rpc _)
    · exact .stay (h.respondSuccess hdone.2 (hpinned rpc term rfl) term)
  | leader first nentries =>
    unfold Node.runClosure
    by_cases hstate : nd.state = .leader
    swap
    · exact .stay (h.commitAt fun hleader => absurd hleader hstate)
    -- the leader's log is the book of its term, so it can acknowledge all of it
    have hlog : a.log n = a.book (a.term n) := by rw [h.2.log, (h.2.leader hstate).log, h.2.term]
    have hmoved : Local conf.members term n own a (a.ackUpTo n (a.book (a.term n)).length) :=
      Local.ackUpTo le_rfl (by rw [hlog, take_length])
    obtain ⟨-, hx⟩ := hs.run hmoved.run
    have h' : Replica old (a.ackUpTo n (a.book (a.term n)).length) S n nd :=
      h.mono hx rfl rfl (fun _ => rfl) le_rfl
    refine ⟨_, hmoved, h'.commitAt fun _ i _ hi => ?_⟩
    rw [← h.2.term]
    refine acked_ackUpTo ?_
    rwa [← hlog, h.2.log]

/-- The disk thread has dealt with the first task of its queue. -/
theorem diskTask {task : DiskTask D (StableClosure P D) (Caller P)}
    {rest : List (DiskTask D (StableClosure P D) (Caller P))} {id : LogId}
    (hid : nd.logManager.lastId = some id) (hqueue : nd.logManager.diskQueue = task :: rest) :
    Moves old own a S n (nd.diskTask n task rest id) := by
  have htask : task ∈ nd.logManager.diskQueue := hqueue ▸ mem_cons_self
  have hrest : rest ⊆ nd.logManager.diskQueue := hqueue ▸ subset_cons_self _ _
  have hok := h.1.tasks task htask
  have hlast := h.1.lastId id hid
  have hrestOk : ∀ task ∈ rest, TaskOk a S n task := fun task ht => h.1.tasks task (hrest ht)
  have hcallers := LogManager.callers_diskTask id hqueue
  obtain ⟨m, hm⟩ := h.2.remembers.held
  have hheld := hm.diskTask id hqueue
  cases task with
  | stable first entries done =>
    have hu : Unmoved nd { nd with
        logManager := nd.logManager.diskTask (.stable first entries done) rest id } := by
      refine Unmoved.of_eq rfl ?_
      simp [callers, hcallers, DiskTask.caller?]
    have h₁ : Replica old a S n { nd with
        logManager := nd.logManager.diskTask (.stable first entries done) rest id } := by
      refine ⟨{ h.1 with tasks := hrestOk, lastId := ?_ }, { h.2 with
        notYet := h.2.notYet_of_unmoved hu rfl
        remembers := { h.2.remembers with held := ⟨m, hheld⟩ }
        pinned := fun k hk => h.2.pinned k (hk.mono (.refl _) (.refl _) hrest) }⟩
      intro id' hid'
      cases hid'
      rcases hok.2 id with heq | hknown
      · exact heq.symm ▸ hlast
      · exact hknown
    refine runClosure h₁ hs hok.1 ?_
    rintro rpc term rfl
    exact h.2.pinned _ (.task htask)
  | lastLogId caller =>
    have hu : Unmoved nd (nd.diskTask n (.lastLogId caller) rest id) := Unmoved.diskTask hqueue
    refine .stay ⟨{ h.1 with tasks := hrestOk, resumed := ?_ }, { h.2 with
      notYet := h.2.notYet_of_unmoved hu rfl
      remembers := { h.2.remembers with held := ⟨m, hheld⟩ }
      pinned := fun k hk => h.2.pinned k (hk.mono (.refl _) (.refl _) hrest) }⟩
    intro c id' hc
    rcases mem_append.mp hc with hc | hc
    · exact h.1.resumed c id' hc
    · cases mem_singleton.mp hc
      exact ⟨hok, hlast⟩
  | truncateSuffix index term =>
    have hu : Unmoved nd (nd.diskTask n (.truncateSuffix index term) rest id) :=
      Unmoved.diskTask hqueue
    refine .stay ⟨{ h.1 with tasks := hrestOk, lastId := ?_ }, { h.2 with
      notYet := h.2.notYet_of_unmoved hu rfl
      remembers := { h.2.remembers with held := ⟨m, hheld⟩ }
      pinned := fun k hk => h.2.pinned k (hk.mono (.refl _) (.refl _) hrest) }⟩
    intro id' hid'
    cases hid'
    exact hok

end

end Moves

/-! ## The leader and its peers -/

/-- A leader sends entries of its term's book. -/
theorem Replica.sendEntries {prev count : ℕ} (h : Replica old a S n nd)
    (hstate : nd.state = .leader)
    (hprev : prev ≤ nd.logManager.lastLogIndex)
    (hread : nd.logManager.firstLogIndex ≤ prev + 1 ∨ prev = 0 ∧ count = 0) (peer : P) :
    Replica old a S n (nd.sendEntries n peer prev count) := by
  have hlead := h.2.leader hstate
  have hfirst := h.2.remembers.first
  have hentries : nd.logManager.getEntries (prev + 1) count =
      (nd.logManager.logs.drop prev).take count := by
    rcases hread with hle | ⟨-, rfl⟩
    · exact h.2.legible.getEntries_eq hle count
    · exact take_zero.symm
  obtain ⟨L₀, hL₀, -⟩ := hlead.own
  unfold LogManager.lastLogIndex at hprev
  refine h.send {
    elected := ?_
    length_le := ?_
    entries := ?_
    prev := ?_
    committed := ?_ }
  · rw [hL₀]
    exact some_ne_none L₀
  · rw [AppendEntriesRequest.lastLogIndex, ← hlead.log, hentries, length_take, length_drop]
    dsimp only
    omega
  · intro j hj
    dsimp only at hj ⊢
    rw [hentries, length_take] at hj
    rw [hentries, getElem?_take_of_lt (by omega), getElem?_drop, hlead.log]
  · cases prev with
    | zero => exact .inl rfl
    | succ i =>
      refine .inr ⟨nd.logManager.logs[i], Nat.succ_pos i, ?_, ?_⟩
      · rw [← hlead.log]
        exact getElem?_eq_getElem hprev
      · have hle : nd.logManager.virtualFirstLogId.index ≤ i + 1 := by omega
        rw [h.2.legible.unsafeGetTerm_eq hle, termAt_succ, getElem?_eq_getElem hprev]
        rfl
  · intro k hk hcommitted
    have hpinned := h.2.pinned _ .committed
    rcases hpinned.2 with hzero | ⟨t, i, hc, ht, hpre⟩
    · exact .inl (Nat.le_zero.mp (hzero ▸ hcommitted))
    · refine .inr ⟨t, i, hc, h.2.term ▸ ht, ?_⟩
      rw [h.2.log, hlead.log] at hpre
      exact (take_prefix_take_left hcommitted).trans hpre

theorem Moves.onRpcReturned {rpc : AppendEntriesRpc P D} {response : AppendEntriesResponse}
    (h : Replica old a S n nd) (hterm : rpc.request.term = nd.currentTerm)
    (hacked : response.success → Acked a rpc.request.peerId rpc.request) (first : ℕ) :
    Moves old own a S n (nd.onRpcReturned rpc response first true) := by
  unfold Node.onRpcReturned
  split_ifs with hsuccess
  · exact .stay h
  · exact .stay h
  · refine .stay (h.commitAt fun _ i hi _ => ?_)
    rw [← hterm]
    exact hacked hsuccess i hi
  · exact stepDown h _
  · exact .stay h

end Simulation

end Braft
