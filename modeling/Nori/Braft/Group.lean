import Nori.Braft.Node
import Nori.Transition.System

/-!
# A group of nodes

The nodes of a group, and everything that can happen in it, one step of one node after the other.
A message that was sent can arrive at any time, any number of times, or never; a timer can fire at
any time; the disk thread and the threads that run closures and clear the memory take their turns; a
node can take snapshots, or can die and be started again as long as it has none.
-/

namespace Braft

open Option

/-- One step of a node; the `Bool`s are the outcomes of the writes of the meta storage.

`electSelf` is an election timeout (`handle_election_timeout` and the pre-votes, which change
neither term nor vote), a vote timeout or a `timeout_now` request. `lastLogId` is the call of
`last_log_id(true)`, and `relock` the moment in which the handler gets the mutex back. `stepDown` is
a step down within the term (`handle_vote_timeout`, `handle_stepdown_timeout`), `increaseTermTo` one
on hearing of a higher term from a peer. `doSnapshotSave` is the state machine's thread that begins
with a snapshot, `setSnapshot` the snapshot that is saved. -/
inductive Act (P D : Type)
  | electSelf
  | lastLogId (caller : Caller P)
  | relock (caller : Caller P) (lastLogId : LogId) (ok ok' : Bool)
  | receive (m : Message P D) (firstLogIndex : ℕ) (ok ok' : Bool)
  | diskBegin
  | diskTask
  | diskEnd
  | runClosure (done : StableClosure P D)
  | setLastCommittedIndex (index : ℕ)
  | apply (data : List D)
  | sendEntries (peer : P) (prevLogIndex count : ℕ)
  | onApply
  | setAppliedId
  | clearMemoryLogs (count : ℕ)
  | doSnapshotSave
  | setSnapshot
  | stepDown
  | increaseTermTo (newTerm : ℕ) (ok : Bool)
  | restart

namespace Node

variable {P D : Type} [DecidableEq P] [DecidableEq D] {conf : Configuration P}

/-- A handler asks for the last log id. -/
def callLastLogId (caller : Caller P) (nd : Node conf D) : Node conf D :=
  let nd := { nd with reading := nd.reading.erase caller }
  match nd.logManager.requestLastLogId caller with
  | (logManager, none) => { nd with logManager }
  | (logManager, some id) => { nd with logManager, resumed := nd.resumed ++ [(caller, id)] }

/-- A handler goes on. -/
def relocked (self : P) (caller : Caller P) (lastLogId : LogId) (ok ok' : Bool)
    (nd : Node conf D) : Node conf D :=
  let nd := { nd with resumed := nd.resumed.erase (caller, lastLogId) }
  match caller with
  | .electSelf oldTerm => nd.electSelfRelocked self oldTerm lastLogId ok
  | .requestVote rpc previousTerm => nd.handleRequestVoteRelocked rpc previousTerm lastLogId ok ok'

/-- A message arrives. An answer is dropped when the process that waits for it, or the replicator
of the leader, is gone. -/
def receive (self : P) (m : Message P D) (firstLogIndex : ℕ) (ok ok' : Bool) (nd : Node conf D) :
    Node conf D :=
  match m with
  | .requestVote rpc => nd.handleRequestVoteRequest rpc
  | .requestVoteResponse rpc response =>
    if rpc.boot = nd.boot then nd.handleRequestVoteResponse self rpc response ok else nd
  | .appendEntries rpc => nd.handleAppendEntriesRequest rpc ok ok'
  | .appendEntriesResponse rpc response =>
    if rpc.boot = nd.boot ∧ nd.state = .leader ∧ rpc.request.term = nd.currentTerm then
      nd.onRpcReturned rpc response firstLogIndex ok
    else nd

/-- The disk thread handles a task, and then runs its closure or wakes up its caller. -/
def diskTask (self : P) (task : DiskTask D (StableClosure P D) (Caller P))
    (rest : List (DiskTask D (StableClosure P D) (Caller P))) (lastId : LogId)
    (nd : Node conf D) : Node conf D :=
  let nd := { nd with logManager := nd.logManager.diskTask task rest lastId }
  match task with
  | .stable _ _ done => nd.runClosure self done
  | .lastLogId caller => { nd with resumed := nd.resumed ++ [(caller, lastId)] }
  | .truncateSuffix _ _ => nd

/-- What a node does in one step, where it can. -/
def act (self : P) (nd : Node conf D) : Act P D → Option (Node conf D)
  | .electSelf => if nd.state ≠ .leader then some (nd.electSelf self) else none
  | .lastLogId caller => if caller ∈ nd.reading then some (nd.callLastLogId caller) else none
  | .relock caller id ok ok' =>
    if (caller, id) ∈ nd.resumed then some (nd.relocked self caller id ok ok') else none
  | .receive m firstLogIndex ok ok' => some (nd.receive self m firstLogIndex ok ok')
  | .diskBegin =>
    if nd.logManager.lastId = none then some { nd with logManager := nd.logManager.diskBegin }
    else none
  | .diskTask =>
    match nd.logManager.lastId, nd.logManager.diskQueue with
    | some id, task :: rest => some (nd.diskTask self task rest id)
    | _, _ => none
  | .diskEnd =>
    nd.logManager.lastId.map fun id => { nd with logManager := nd.logManager.diskEnd id }
  | .runClosure done =>
    if done ∈ nd.bthreads then
      some ({ nd with bthreads := nd.bthreads.erase done }.runClosure self done)
    else none
  | .setLastCommittedIndex index =>
    if index ∈ nd.committing then
      some { nd with
        committing := nd.committing.erase index
        ballotBox := (nd.ballotBox.setLastCommittedIndex index).1 }
    else none
  | .apply data =>
    if nd.state = .leader ∧ data ≠ [] then some (nd.appendTasks (data.map .data)) else none
  | .sendEntries peer prevLogIndex count =>
    -- what is compacted is not sent (a snapshot is, `_fill_common_fields`), but a heartbeat can
    -- name the index `0` in its place
    if nd.state = .leader ∧ conf.contains peer ∧ peer ≠ self ∧
        prevLogIndex ≤ nd.logManager.lastLogIndex ∧
        (nd.logManager.firstLogIndex ≤ prevLogIndex + 1 ∨ prevLogIndex = 0 ∧ count = 0) then
      some (nd.sendEntries self peer prevLogIndex count)
    else none
  | .onApply =>
    if nd.applied.length < nd.ballotBox.lastCommittedIndex then
      (nd.logManager.getEntry (nd.applied.length + 1)).map fun e =>
        { nd with applied := nd.applied ++ [e] }
    else none
  | .setAppliedId =>
    some { nd with
      logManager := nd.logManager.setAppliedId
        ⟨nd.applied.length, nd.logManager.unsafeGetTerm nd.applied.length⟩ }
  | .clearMemoryLogs count =>
    (nd.logManager.clearMemoryLogs count).map fun logManager => { nd with logManager }
  | .doSnapshotSave =>
    -- a snapshot is of what is applied, as far as the log manager was told of it
    if nd.saving = none then some { nd with saving := some nd.logManager.appliedId } else none
  | .setSnapshot =>
    (nd.saving.bind nd.logManager.setSnapshot).map fun logManager =>
      { nd with logManager, saving := none }
  | .stepDown => some (nd.stepDown nd.currentTerm true)
  | .increaseTermTo newTerm ok =>
    if nd.currentTerm < newTerm then some (nd.stepDown newTerm ok) else none
  | .restart => if nd.logManager.lastSnapshotId.index = 0 then some nd.restart else none

/-- What each step does, and when it can be taken. -/
inductive Does (self : P) (nd : Node conf D) : Act P D → Node conf D → Prop
  | electSelf (hstate : nd.state ≠ .leader) : Does self nd .electSelf (nd.electSelf self)
  | lastLogId {caller : Caller P} (hmem : caller ∈ nd.reading) :
    Does self nd (.lastLogId caller) (nd.callLastLogId caller)
  | relock {caller : Caller P} {id : LogId} {ok ok' : Bool} (hmem : (caller, id) ∈ nd.resumed) :
    Does self nd (.relock caller id ok ok') (nd.relocked self caller id ok ok')
  | receive {m : Message P D} {firstLogIndex : ℕ} {ok ok' : Bool} :
    Does self nd (.receive m firstLogIndex ok ok') (nd.receive self m firstLogIndex ok ok')
  | diskBegin : Does self nd .diskBegin { nd with logManager := nd.logManager.diskBegin }
  | diskTask {task : DiskTask D (StableClosure P D) (Caller P)}
      {rest : List (DiskTask D (StableClosure P D) (Caller P))} {id : LogId}
      (hid : nd.logManager.lastId = some id) (hqueue : nd.logManager.diskQueue = task :: rest) :
    Does self nd .diskTask (nd.diskTask self task rest id)
  | diskEnd {id : LogId} (hid : nd.logManager.lastId = some id) :
    Does self nd .diskEnd { nd with logManager := nd.logManager.diskEnd id }
  | runClosure {done : StableClosure P D} (hmem : done ∈ nd.bthreads) :
    Does self nd (.runClosure done)
      ({ nd with bthreads := nd.bthreads.erase done }.runClosure self done)
  | setLastCommittedIndex {index : ℕ} (hmem : index ∈ nd.committing) :
    Does self nd (.setLastCommittedIndex index) { nd with
        committing := nd.committing.erase index
        ballotBox := (nd.ballotBox.setLastCommittedIndex index).1 }
  | apply {data : List D} (hstate : nd.state = .leader) :
    Does self nd (.apply data) (nd.appendTasks (data.map .data))
  | sendEntries {peer : P} {prev count : ℕ} (hstate : nd.state = .leader)
      (hprev : prev ≤ nd.logManager.lastLogIndex)
      (hread : nd.logManager.firstLogIndex ≤ prev + 1 ∨ prev = 0 ∧ count = 0) :
    Does self nd (.sendEntries peer prev count) (nd.sendEntries self peer prev count)
  | onApply {e : LogEntry D} (hlt : nd.applied.length < nd.ballotBox.lastCommittedIndex)
      (he : nd.logManager.getEntry (nd.applied.length + 1) = some e) :
    Does self nd .onApply { nd with applied := nd.applied ++ [e] }
  | setAppliedId : Does self nd .setAppliedId { nd with
        logManager := nd.logManager.setAppliedId
          ⟨nd.applied.length, nd.logManager.unsafeGetTerm nd.applied.length⟩ }
  | clearMemoryLogs {count : ℕ} {lm : LogManager D (StableClosure P D) (Caller P)}
      (hclear : nd.logManager.clearMemoryLogs count = some lm) :
    Does self nd (.clearMemoryLogs count) { nd with logManager := lm }
  | doSnapshotSave :
    Does self nd .doSnapshotSave { nd with saving := some nd.logManager.appliedId }
  | setSnapshot {id : LogId} {lm : LogManager D (StableClosure P D) (Caller P)}
      (hid : nd.saving = some id) (hset : nd.logManager.setSnapshot id = some lm) :
    Does self nd .setSnapshot { nd with logManager := lm, saving := none }
  | stepDown : Does self nd .stepDown (nd.stepDown nd.currentTerm true)
  | increaseTermTo {newTerm : ℕ} {ok : Bool} :
    Does self nd (.increaseTermTo newTerm ok) (nd.stepDown newTerm ok)
  | restart : Does self nd .restart nd.restart

theorem does_of_act {self : P} {nd nd' : Node conf D} {a : Act P D}
    (h : nd.act self a = some nd') : Does self nd a nd' := by
  cases a with
  | receive m first ok ok' =>
    cases h
    exact .receive
  | diskTask =>
    simp only [act] at h
    split at h
    next id task rest hid hqueue =>
      cases h
      exact .diskTask hid hqueue
    next => cases h
  | diskEnd =>
    obtain ⟨id, hid, rfl⟩ := map_eq_some_iff.mp h
    exact .diskEnd hid
  | onApply =>
    simp only [act] at h
    split at h
    next hlt =>
      obtain ⟨e, he, rfl⟩ := map_eq_some_iff.mp h
      exact .onApply hlt he
    next => cases h
  | setAppliedId =>
    cases h
    exact .setAppliedId
  | stepDown =>
    cases h
    exact .stepDown
  | clearMemoryLogs count =>
    obtain ⟨lm, hclear, rfl⟩ := map_eq_some_iff.mp h
    exact .clearMemoryLogs hclear
  | doSnapshotSave =>
    obtain ⟨-, rfl⟩ := ite_some_none_eq_some.mp h
    exact .doSnapshotSave
  | setSnapshot =>
    obtain ⟨lm, hset, rfl⟩ := map_eq_some_iff.mp h
    obtain ⟨id, hid, hset⟩ := bind_eq_some_iff.mp hset
    exact .setSnapshot hid hset
  | restart =>
    obtain ⟨-, rfl⟩ := ite_some_none_eq_some.mp h
    exact .restart
  | electSelf =>
    obtain ⟨hact, rfl⟩ := ite_some_none_eq_some.mp h
    exact .electSelf hact
  | lastLogId caller =>
    obtain ⟨hact, rfl⟩ := ite_some_none_eq_some.mp h
    exact .lastLogId hact
  | relock caller id ok ok' =>
    obtain ⟨hact, rfl⟩ := ite_some_none_eq_some.mp h
    exact .relock hact
  | diskBegin =>
    obtain ⟨-, rfl⟩ := ite_some_none_eq_some.mp h
    exact .diskBegin
  | runClosure done =>
    obtain ⟨hact, rfl⟩ := ite_some_none_eq_some.mp h
    exact .runClosure hact
  | setLastCommittedIndex index =>
    obtain ⟨hact, rfl⟩ := ite_some_none_eq_some.mp h
    exact .setLastCommittedIndex hact
  | apply data =>
    obtain ⟨hact, rfl⟩ := ite_some_none_eq_some.mp h
    exact .apply hact.1
  | sendEntries peer prev count =>
    obtain ⟨hact, rfl⟩ := ite_some_none_eq_some.mp h
    exact .sendEntries hact.1 hact.2.2.2.1 hact.2.2.2.2
  | increaseTermTo newTerm ok =>
    obtain ⟨-, rfl⟩ := ite_some_none_eq_some.mp h
    exact .increaseTermTo

end Node

/-- The state of all nodes. -/
def World {P : Type} (conf : Configuration P) (D : Type) : Type := P → Node conf D

namespace World

variable {P D : Type} [DecidableEq P] {conf : Configuration P}

def set (w : World conf D) (n : P) (nd : Node conf D) : World conf D := Function.update w n nd

@[simp] theorem set_self (w : World conf D) (n : P) (nd : Node conf D) : w.set n nd n = nd :=
  Function.update_self (β := fun _ => Node conf D) n nd w

theorem set_of_ne (w : World conf D) {n m : P} (nd : Node conf D) (h : m ≠ n) :
    w.set n nd m = w m :=
  Function.update_of_ne (β := fun _ => Node conf D) h nd w

variable [DecidableEq D]

/-- A message that arrives was sent, to the node at which it arrives. -/
def deliverable (w : World conf D) (n : P) : Act P D → Bool
  | .receive m _ _ _ => decide (m.receiver = n ∧ m ∈ (w m.sender).sent)
  | _ => true

def step (w : World conf D) (e : P × Act P D) : Option (World conf D) :=
  if w.deliverable e.1 e.2 then ((w e.1).act e.1 e.2).map (w.set e.1) else none

end World

/-- The runs of a group from the first start of its nodes. -/
def group {P : Type} [DecidableEq P] (conf : Configuration P) (D : Type) [DecidableEq D] :
    Transition.System (World conf D) (P × Act P D) :=
  .ofStep (fun _ => Node.init conf D) World.step

theorem World.step_cases {P D : Type} [DecidableEq P] [DecidableEq D] {conf : Configuration P}
    {w w' : World conf D} {n : P} {a : Act P D} (h : w.step (n, a) = some w') :
    (∀ m firstLogIndex ok ok', a = .receive m firstLogIndex ok ok' →
      m.receiver = n ∧ m ∈ (w m.sender).sent) ∧
    ∃ nd, Node.Does n (w n) a nd ∧ w' = w.set n nd := by
  unfold World.step at h
  split at h
  swap
  · cases h
  next hdeliver =>
    obtain ⟨nd, hnd, rfl⟩ := map_eq_some_iff.mp h
    refine ⟨?_, nd, Node.does_of_act hnd, rfl⟩
    rintro m firstLogIndex ok ok' rfl
    exact of_decide_eq_true hdeliver

end Braft
