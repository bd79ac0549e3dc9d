import Nori.Braft.AppendEntries
import Nori.Braft.Joint.BallotBox

/-!
# A node of a group

What a node does on an election timeout, on a request or a response of a peer, and when the disk
thread has written something. A handler holds the node's mutex; where it releases the mutex to ask
for the last log id that is flushed, the rest of it is a step of its own, and what it remembers
meanwhile is a `Caller`.

Leases are disabled: `votable_time_from_now()` is `0`, so that a node votes and grants itself at
once. The configuration is fixed, a node takes snapshots of its own but is not sent any, and a
leader that transfers its leadership counts as the leader that it is until it steps down. A write of
the meta storage that fails has no effect; whether a write succeeds is up to whoever calls the
handler.

The node also has the history that the results speak about: the messages it has sent, the votes it
has saved, when it was elected and with which log, whose votes it has counted, what its ballot box
has committed as a leader, where it was asked to cut its log off. The code does not read it.
-/

namespace Braft

/-! ## Messages -/

/-- A candidate does not ask itself for a vote. -/
structure RequestVoteRequest (P : Type) where
  serverId : P
  peerId : P
  term : ℕ
  lastLogId : LogId
  distinct : serverId ≠ peerId
deriving DecidableEq

/-- A request for a vote, and what its sender keeps until the answer arrives. The answer reaches
only the process that has sent the request. -/
structure RequestVoteRpc (P : Type) where
  request : RequestVoteRequest P
  ctxVersion : ℕ
  boot : ℕ
deriving DecidableEq

structure RequestVoteResponse where
  term : ℕ
  granted : Bool
deriving DecidableEq

structure AppendEntriesRequest (P D : Type) where
  serverId : P
  peerId : P
  term : ℕ
  prevLogIndex : ℕ
  prevLogTerm : ℕ
  entries : List (LogEntry D)
  committedIndex : ℕ
deriving DecidableEq

namespace AppendEntriesRequest

variable {P D : Type}

/-- The index of the last entry sent, or of the one before them. -/
def lastLogIndex (request : AppendEntriesRequest P D) : ℕ :=
  request.prevLogIndex + request.entries.length

end AppendEntriesRequest

structure AppendEntriesRpc (P D : Type) where
  request : AppendEntriesRequest P D
  boot : ℕ
deriving DecidableEq

structure AppendEntriesResponse where
  term : ℕ
  success : Bool
deriving DecidableEq

inductive Message (P D : Type)
  | requestVote (rpc : RequestVoteRpc P)
  | requestVoteResponse (rpc : RequestVoteRpc P) (response : RequestVoteResponse)
  | appendEntries (rpc : AppendEntriesRpc P D)
  | appendEntriesResponse (rpc : AppendEntriesRpc P D) (response : AppendEntriesResponse)
deriving DecidableEq

namespace Message

variable {P D : Type}

def sender : Message P D → P
  | .requestVote rpc => rpc.request.serverId
  | .requestVoteResponse rpc _ => rpc.request.peerId
  | .appendEntries rpc => rpc.request.serverId
  | .appendEntriesResponse rpc _ => rpc.request.peerId

def receiver : Message P D → P
  | .requestVote rpc => rpc.request.peerId
  | .requestVoteResponse rpc _ => rpc.request.serverId
  | .appendEntries rpc => rpc.request.peerId
  | .appendEntriesResponse rpc _ => rpc.request.serverId

end Message

/-! ## The state of a node -/

inductive State
  | leader
  | candidate
  | follower
deriving DecidableEq

/-- A handler that has released the mutex to ask for the last log id. -/
inductive Caller (P : Type)
  | electSelf (oldTerm : ℕ)
  | requestVote (rpc : RequestVoteRpc P) (previousTerm : ℕ)
deriving DecidableEq

/-- What is run when entries are stable. -/
inductive StableClosure (P D : Type)
  | follower (rpc : AppendEntriesRpc P D) (term : ℕ)
  | leader (firstLogIndex nentries : ℕ)
deriving DecidableEq

structure VoteBallotCtx {P : Type} (conf : Configuration P) where
  version : ℕ
  ballot : Ballot conf
  lastLogId : LogId

namespace VoteBallotCtx

variable {P : Type} {conf : Configuration P}

/-- The ballot stays as it is. -/
def reset (ctx : VoteBallotCtx conf) : VoteBallotCtx conf :=
  { ctx with version := ctx.version + 1, lastLogId := ⟨0, 0⟩ }

def init (ctx : VoteBallotCtx conf) : VoteBallotCtx conf :=
  { ctx.reset with ballot := Ballot.init conf }

end VoteBallotCtx

/-- The term and vote that a node finds when it restarts, and all votes that were ever there. -/
structure MetaStorage (P : Type) where
  term : ℕ
  votedFor : Option P
  saved : List (ℕ × P)

namespace MetaStorage

variable {P : Type}

def setTermAndVotedfor (term : ℕ) (votedFor : Option P) (storage : MetaStorage P) :
    MetaStorage P where
  term := term
  votedFor := votedFor
  saved := storage.saved ++ votedFor.toList.map (term, ·)

end MetaStorage

/-- `reading` are the handlers about to ask for the last log id, `resumed` those that have got it;
`saving` is the last applied id of a snapshot that is being saved. The fields from `sent` on are
history. -/
structure Node {P : Type} (conf : Configuration P) (D : Type) where
  state : State
  currentTerm : ℕ
  votedId : Option P
  leaderId : Option P
  voteCtx : VoteBallotCtx conf
  lastLeader : Option P
  ballotBox : Joint.BallotBox P Unit
  logManager : LogManager D (StableClosure P D) (Caller P)
  metaStorage : MetaStorage P
  boot : ℕ
  reading : List (Caller P)
  resumed : List (Caller P × LogId)
  bthreads : List (StableClosure P D)
  committing : List ℕ
  applied : List (LogEntry D)
  saving : Option LogId
  sent : List (Message P D)
  elections : List (ℕ × List (LogEntry D))
  counted : List (ℕ × P)
  commits : List (ℕ × List (LogEntry D))
  truncations : List (Truncation D)

namespace Node

variable {P D : Type} {conf : Configuration P}

/-- A node on its first start. -/
def init (conf : Configuration P) (D : Type) : Node conf D where
  state := .follower
  currentTerm := 1
  votedId := none
  leaderId := none
  voteCtx := ⟨0, Ballot.init conf, ⟨0, 0⟩⟩
  lastLeader := none
  ballotBox := Joint.BallotBox.init
  logManager := LogManager.init []
  metaStorage := ⟨1, none, []⟩
  boot := 0
  reading := []
  resumed := []
  bthreads := []
  committing := []
  applied := []
  saving := none
  sent := []
  elections := []
  counted := []
  commits := []
  truncations := []

/-- The process dies and is started again. Term and vote come from the meta storage, the log from
what was written of it. -/
def restart (nd : Node conf D) : Node conf D :=
  { nd with
    state := .follower
    currentTerm := nd.metaStorage.term
    votedId := nd.metaStorage.votedFor
    leaderId := none
    voteCtx := ⟨0, Ballot.init conf, ⟨0, 0⟩⟩
    lastLeader := none
    ballotBox := Joint.BallotBox.init
    logManager := LogManager.init nd.logManager.storage
    boot := nd.boot + 1
    reading := []
    resumed := []
    bthreads := []
    committing := []
    applied := []
    saving := none }

def send (m : Message P D) (nd : Node conf D) : Node conf D := { nd with sent := nd.sent ++ [m] }

/-- A write of the meta storage; `ok` is its outcome. -/
def setTermAndVotedfor (term : ℕ) (votedFor : Option P) (ok : Bool) (nd : Node conf D) :
    Node conf D :=
  if ok then { nd with metaStorage := nd.metaStorage.setTermAndVotedfor term votedFor } else nd

/-- A step down to the term, or to a follower in the current one; a failed write is ignored. -/
def stepDown (term : ℕ) (ok : Bool) (nd : Node conf D) : Node conf D :=
  let nd :=
    match nd.state with
    | .candidate => { nd with voteCtx := nd.voteCtx.reset }
    | .leader => { nd with ballotBox := nd.ballotBox.clearPendingTasks.1 }
    | .follower => nd
  let nd := { nd with leaderId := none, state := .follower }
  if nd.currentTerm < term then
    { nd with currentTerm := term, votedId := none }.setTermAndVotedfor term none ok
  else nd

section

variable {nd : Node conf D} {term : ℕ} {ok : Bool}

theorem stepDown_of_lt (h : nd.currentTerm < term) : nd.stepDown term ok =
      { nd.stepDown nd.currentTerm true with
        currentTerm := term
        votedId := none }.setTermAndVotedfor term none ok := by
  unfold stepDown
  cases nd.state <;> simp [h]

theorem state_stepDown : (nd.stepDown term ok).state = .follower := by
  unfold stepDown setTermAndVotedfor
  dsimp only
  split_ifs <;> rfl

theorem currentTerm_stepDown : (nd.stepDown term ok).currentTerm = max nd.currentTerm term := by
  unfold stepDown setTermAndVotedfor
  cases nd.state <;> dsimp only <;> split_ifs <;> dsimp only <;> omega

theorem logManager_stepDown : (nd.stepDown term ok).logManager = nd.logManager := by
  unfold stepDown setTermAndVotedfor
  cases nd.state <;> dsimp only <;> split_ifs <;> rfl

end

/-- Entries of the leader: a ballot for each of them, then the log. -/
def appendTasks (data : List (EntryData D)) (nd : Node conf D) : Node conf D :=
  { nd with
    ballotBox := (Joint.BallotBox.appendPendingTask conf none none)^[data.length] nd.ballotBox
    logManager := nd.logManager.appendTasks (data.map (⟨nd.currentTerm, ·⟩))
      (StableClosure.leader · data.length) }

/-- The new leader starts with the index after its log, and appends its configuration. -/
def becomeLeader (self : P) (nd : Node conf D) : Node conf D :=
  { nd with
    voteCtx := nd.voteCtx.reset
    state := .leader
    leaderId := some self
    lastLeader := none
    ballotBox := nd.ballotBox.resetPendingIndex (nd.logManager.lastLogIndex + 1)
    elections := nd.elections ++ [(nd.currentTerm, nd.logManager.logs)] }.appendTasks
      [.configuration]

/-! ## Elections -/

variable [DecidableEq P]

/-- The vote of a peer, or the node's own one, is counted. -/
def grant (peer : P) (nd : Node conf D) : Node conf D :=
  { nd with
    voteCtx := { nd.voteCtx with ballot := nd.voteCtx.ballot.grant peer }
    counted := nd.counted ++ [(nd.currentTerm, peer)] }

def becomeLeaderIfGranted (self : P) (nd : Node conf D) : Node conf D :=
  if nd.voteCtx.ballot.granted then nd.becomeLeader self else nd

/-- `elect_self` until it releases the mutex. -/
def electSelf (self : P) (nd : Node conf D) : Node conf D :=
  if conf.contains self then
    { nd with
      leaderId := none
      state := .candidate
      currentTerm := nd.currentTerm + 1
      votedId := some self
      voteCtx := nd.voteCtx.init
      reading := nd.reading ++ [.electSelf (nd.currentTerm + 1)] }
  else nd

/-- The requests for votes, to all peers but the node itself. -/
def requestPeersToVote (self : P) (nd : Node conf D) : Node conf D :=
  { nd with
    sent := nd.sent ++ conf.peers.filterMap fun peer =>
      if h : self ≠ peer then
        some (.requestVote
          ⟨⟨self, peer, nd.currentTerm, nd.voteCtx.lastLogId, h⟩, nd.voteCtx.version, nd.boot⟩)
      else none }

/-- `elect_self` once it has the mutex again. Votes are requested before the node's own vote is
saved; if that fails, the node does not grant itself. -/
def electSelfRelocked (self : P) (oldTerm : ℕ) (lastLogId : LogId) (ok : Bool)
    (nd : Node conf D) : Node conf D :=
  if oldTerm = nd.currentTerm then
    let nd := { nd with voteCtx := { nd.voteCtx with lastLogId } }.requestPeersToVote self
    let nd := nd.setTermAndVotedfor nd.currentTerm (some self) ok
    if ok then (nd.grant self).becomeLeaderIfGranted self else { nd with votedId := none }
  else nd

def respondVote (rpc : RequestVoteRpc P) (nd : Node conf D) : Node conf D :=
  nd.send (.requestVoteResponse rpc ⟨nd.currentTerm,
      rpc.request.term = nd.currentTerm ∧ nd.votedId = some rpc.request.serverId⟩)

/-- `handle_request_vote_request` until it releases the mutex. -/
def handleRequestVoteRequest (rpc : RequestVoteRpc P) (nd : Node conf D) : Node conf D :=
  if rpc.request.term < nd.currentTerm then nd.respondVote rpc
  else { nd with reading := nd.reading ++ [.requestVote rpc nd.currentTerm] }

/-- The vote for a candidate: it is given back when it cannot be saved. -/
def voteFor (candidate : P) (term : ℕ) (ok : Bool) (nd : Node conf D) : Node conf D :=
  let nd := nd.stepDown term ok
  let nd := { nd with votedId := some candidate }.setTermAndVotedfor nd.currentTerm
    (some candidate) ok
  if ok then nd else { nd with votedId := none }

/-- `handle_request_vote_request` once it has the mutex again: nothing but the term is compared
with what it was before. -/
def handleRequestVoteRelocked (rpc : RequestVoteRpc P) (previousTerm : ℕ) (lastLogId : LogId)
    (ok ok' : Bool) (nd : Node conf D) : Node conf D :=
  let nd :=
    if previousTerm = nd.currentTerm then
      let nd := if nd.currentTerm < rpc.request.term then nd.stepDown rpc.request.term ok else nd
      if lastLogId.le rpc.request.lastLogId ∧ nd.votedId = none then
        nd.voteFor rpc.request.serverId rpc.request.term ok'
      else nd
    else nd
  nd.respondVote rpc

/-- `handle_request_vote_response`. The last leader's vote comes with the node's own. -/
def handleRequestVoteResponse (self : P) (rpc : RequestVoteRpc P) (response : RequestVoteResponse)
    (ok : Bool) (nd : Node conf D) : Node conf D :=
  if rpc.ctxVersion ≠ nd.voteCtx.version then nd
  else if nd.state ≠ .candidate then nd
  else if rpc.request.term ≠ nd.currentTerm then nd
  else if nd.currentTerm < response.term then nd.stepDown response.term ok
  else if response.granted then
    let nd' := nd.grant rpc.request.peerId
    let nd' := if nd.lastLeader = some rpc.request.peerId then nd'.grant self else nd'
    nd'.becomeLeaderIfGranted self
  else nd

/-! ## Replication -/

/-- The step down that a request of a leader causes, and the new leader. -/
def checkStepDown (requestTerm : ℕ) (serverId : P) (ok : Bool) (nd : Node conf D) : Node conf D :=
  let nd :=
    if nd.currentTerm < requestTerm ∨ nd.state ≠ .follower ∨ nd.leaderId = none then
      nd.stepDown requestTerm ok
    else nd
  if nd.leaderId = none then { nd with leaderId := some serverId } else nd

omit [DecidableEq P] in
theorem logManager_checkStepDown {nd : Node conf D} {requestTerm : ℕ} {serverId : P} {ok : Bool} :
    (nd.checkStepDown requestTerm serverId ok).logManager = nd.logManager := by
  unfold checkStepDown
  dsimp only
  split_ifs <;> first | exact logManager_stepDown | rfl

def respondAppend (rpc : AppendEntriesRpc P D) (term : ℕ) (success : Bool) (nd : Node conf D) :
    Node conf D :=
  nd.send (.appendEntriesResponse rpc ⟨term, success⟩)

/-- A success; the committed index of the leader is taken over later, without the mutex. -/
def respondSuccess (rpc : AppendEntriesRpc P D) (term : ℕ) (nd : Node conf D) : Node conf D :=
  { nd.respondAppend rpc term true with
    committing := nd.committing ++ [min rpc.request.committedIndex rpc.request.lastLogIndex] }

/-- The entries of a leader go to the log manager, with a closure that answers. Where all of them
are applied, the closure is run in a thread of its own; where they do not follow on the log, the
request fails. -/
def appendFromLeader (rpc : AppendEntriesRpc P D) (nd : Node conf D) : Node conf D :=
  let done := StableClosure.follower rpc nd.currentTerm
  match nd.logManager.appendEntries (rpc.request.prevLogIndex + 1) rpc.request.entries done with
  | .ok (logManager, kept) =>
    { nd with
      logManager
      truncations := nd.truncations ++ (kept.map fun lastIndexKept =>
        ⟨lastIndexKept, nd.logManager.appliedId.index, nd.logManager.logs,
          rpc.request.prevLogIndex, rpc.request.entries⟩).toList }
  | .error .applied => { nd with bthreads := nd.bthreads ++ [done] }
  | .error .gap => nd

def handleAppendEntriesRequest (rpc : AppendEntriesRpc P D) (ok ok' : Bool) (nd : Node conf D) :
    Node conf D :=
  if rpc.request.term < nd.currentTerm then nd.respondAppend rpc nd.currentTerm false
  else
    let nd := nd.checkStepDown rpc.request.term rpc.request.serverId ok
    if nd.leaderId ≠ some rpc.request.serverId then
      (nd.stepDown (rpc.request.term + 1) ok').respondAppend rpc (rpc.request.term + 1) false
    else
      let nd := { nd with lastLeader := nd.leaderId }
      if nd.logManager.unsafeGetTerm rpc.request.prevLogIndex ≠ rpc.request.prevLogTerm then
        nd.respondAppend rpc nd.currentTerm false
      else if rpc.request.entries = [] then nd.respondSuccess rpc nd.currentTerm
      else nd.appendFromLeader rpc

/-- The ballots of the entries that are stable at a peer. -/
def commitAt (firstLogIndex lastLogIndex : ℕ) (peer : P) (nd : Node conf D) : Node conf D :=
  let box := (nd.ballotBox.commitAt firstLogIndex lastLogIndex peer).2.1
  { nd with
    ballotBox := box
    commits :=
      if box.lastCommittedIndex = nd.ballotBox.lastCommittedIndex then nd.commits
      else nd.commits ++ [(nd.currentTerm, nd.logManager.logs.take box.lastCommittedIndex)] }

/-- `FollowerStableClosure::run` and `LeaderStableClosure::Run` -/
def runClosure (self : P) (done : StableClosure P D) (nd : Node conf D) : Node conf D :=
  match done with
  | .follower rpc term =>
    if term ≠ nd.currentTerm then nd.respondAppend rpc nd.currentTerm false
    else nd.respondSuccess rpc term
  | .leader firstLogIndex nentries => nd.commitAt firstLogIndex (firstLogIndex + nentries - 1) self

/-- A replicator sends what follows on `prevLogIndex`, or a heartbeat. It picks up where it thinks
that the logs agree. -/
def sendEntries (self peer : P) (prevLogIndex count : ℕ) (nd : Node conf D) : Node conf D :=
  nd.send (.appendEntries
    { request :=
        { serverId := self
          peerId := peer
          term := nd.currentTerm
          prevLogIndex
          prevLogTerm := nd.logManager.unsafeGetTerm prevLogIndex
          entries := nd.logManager.getEntries (prevLogIndex + 1) count
          committedIndex := nd.ballotBox.lastCommittedIndex }
      boot := nd.boot })

/-- A replicator's request is answered. On success the entries from `firstLogIndex`, the first that
the replicator has not heard of, are stable at the peer. -/
def onRpcReturned (rpc : AppendEntriesRpc P D) (response : AppendEntriesResponse)
    (firstLogIndex : ℕ) (ok : Bool) (nd : Node conf D) : Node conf D :=
  if response.success then
    if response.term ≠ rpc.request.term then nd
    else if rpc.request.entries = [] then nd
    else nd.commitAt firstLogIndex rpc.request.lastLogIndex rpc.request.peerId
  else if nd.currentTerm < response.term then nd.stepDown response.term ok
  else nd

end Node

end Braft
