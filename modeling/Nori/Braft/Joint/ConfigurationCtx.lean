import Nori.Braft.Joint.Ballot
import Nori.Transition.System

/-!
# Configuration changes

A node and its `ConfigurationCtx`, which takes a leader through the stages of a change: the new
peers catch up, then an entry under both configurations is committed, then one under the new
configuration. The entry under both is skipped when only one peer changes. A new leader starts with
an entry for the last configuration of its log, and goes on with a change that it finds half done.

Who is elected, which entries are committed and which peers catch up is left open, and so is which
configurations a follower gets. An entry that the log manager refuses, because its disk has failed,
leaves no trace. The closure of a configuration entry is run once, after the entry is committed.
-/

namespace Braft

namespace Configuration

variable {P : Type}

def empty : Configuration P := ⟨[], List.nodup_nil⟩

def isEmpty (conf : Configuration P) : Bool := conf.peers.isEmpty

variable [DecidableEq P]

def addPeer (conf : Configuration P) (peer : P) : Configuration P :=
  ⟨conf.peers.insert peer, conf.nodup.insert⟩

def removePeer (conf : Configuration P) (peer : P) : Configuration P :=
  ⟨conf.peers.erase peer, conf.nodup.erase peer⟩

def equals (conf rhs : Configuration P) : Bool :=
  conf.peers.length == rhs.peers.length && conf.peers.all rhs.contains

/-- The peers that only the first configuration has, and those that only the second has. -/
def diffs (conf rhs : Configuration P) : Configuration P × Configuration P :=
  (⟨conf.peers.filter (!rhs.contains ·), conf.nodup.filter _⟩,
    ⟨rhs.peers.filter (!conf.contains ·), rhs.nodup.filter _⟩)

theorem length_diffs (conf rhs : Configuration P) :
    (conf.diffs rhs).1.peers.length + (conf.diffs rhs).2.peers.length =
      (conf.members \ rhs.members).card + (rhs.members \ conf.members).card := by
  have hcard : ∀ A B : Configuration P,
      (A.peers.filter (!B.contains ·)).length = (A.members \ B.members).card := by
    intro A B
    rw [← List.toFinset_card_of_nodup (A.nodup.filter _)]
    congr 1
    ext v
    simp [members, contains]
  exact congrArg₂ (· + ·) (hcard conf rhs) (hcard rhs conf)

end Configuration

namespace Joint

inductive Stage
  | none
  | catchingUp
  | joint
  | stable
deriving DecidableEq

/-- What the closure of a request is run with. -/
inductive ChangeStatus (P : Type)
  | ok
  /-- `ECATCHUP`, "Peer %s failed to catch up" -/
  | catchup (peer : P)
  /-- `EPERM`, "leader stepped down" -/
  | steppedDown
  /-- `EPERM`, "Not leader" -/
  | notLeader
  /-- `EBUSY`, "Is transferring leadership" -/
  | transferring
  /-- `EBUSY`, "Doing another configuration change" -/
  | busy
deriving DecidableEq

structure ConfigurationCtx (P K : Type) where
  stage : Stage
  nchanges : ℕ
  version : ℕ
  newPeers : Configuration P
  oldPeers : Configuration P
  addingPeers : List P
  done : Option K

namespace ConfigurationCtx

variable {P K : Type}

def init : ConfigurationCtx P K := ⟨.none, 0, 0, .empty, .empty, [], none⟩

def isBusy (ctx : ConfigurationCtx P K) : Bool := ctx.stage != .none

/-- The context between two changes. -/
def cleared (ctx : ConfigurationCtx P K) : ConfigurationCtx P K :=
  ⟨.none, 0, ctx.version + 1, .empty, .empty, [], none⟩

end ConfigurationCtx

/-- The states of a node; `inactive` stands for those of a node in error or shut down. -/
inductive NodeState
  | leader
  | transferring
  | candidate
  | follower
  | inactive
deriving DecidableEq

/-- The node leads: `_state <= STATE_TRANSFERRING`. -/
def NodeState.leads (state : NodeState) : Bool := state = .leader || state = .transferring

/-- A configuration entry that the node has appended as leader, whether it is committed, and whether
its `ConfigurationChangeDone` has been run. -/
structure ConfEntry (P : Type) where
  term : ℕ
  conf : Configuration P
  oldConf : Option (Configuration P)
  leaderStart : Bool
  committed : Bool
  run : Bool

/-- The closure that waits for a peer to catch up. -/
structure OnCaughtUp (P : Type) where
  peer : P
  term : ℕ
  version : ℕ
deriving DecidableEq

structure Change (P : Type) where
  oldConf : Configuration P
  newConf : Configuration P

/-- A node with its configuration `conf`, `oldConf`. Beside what the node stores there are the
closures that wait for peers, the configuration entries it has appended, the closures of requests
it has run, the changes in progress, and those ever started. -/
structure ConfNode (P K : Type) where
  serverId : P
  state : NodeState
  currentTerm : ℕ
  conf : Configuration P
  oldConf : Configuration P
  ctx : ConfigurationCtx P K
  waiting : List (OnCaughtUp P)
  entries : List (ConfEntry P)
  replies : List (K × ChangeStatus P)
  progress : List (Change P)
  started : List (Change P)

namespace ConfNode

variable {P K : Type}

def init (serverId : P) : ConfNode P K :=
  ⟨serverId, .follower, 0, .empty, .empty, .init, [], [], [], [], []⟩

/-- A closure is run with a status, if there is one. -/
def reply (s : ConfNode P K) (done : Option K) (status : ChangeStatus P) : ConfNode P K :=
  { s with replies := s.replies ++ (done.map (·, status)).toList }

/-- The end of a change. Without a status the leader has stepped down. -/
def reset (s : ConfNode P K) (st : Option (ChangeStatus P)) : ConfNode P K :=
  if s.ctx.stage = .none then s
  else { s with ctx := s.ctx.cleared, progress := [] }.reply s.ctx.done (st.getD .steppedDown)

def stepDown (s : ConfNode P K) (term : ℕ) : ConfNode P K :=
  if s.state = .inactive then s
  else { reset { s with state := .follower } none with currentTerm := max s.currentTerm term }

/-- A configuration entry is appended; `ok` says whether the log manager takes it. The node then has
the configuration of the entry. -/
def unsafeApplyConfiguration (s : ConfNode P K) (newConf : Configuration P)
    (oldConf : Option (Configuration P)) (leaderStart ok : Bool) : ConfNode P K :=
  if ok then
    { s with
      entries := s.entries ++ [⟨s.currentTerm, newConf, oldConf, leaderStart, false, false⟩]
      conf := newConf
      oldConf := oldConf.getD .empty }
  else s

/-- The last stage is entered: the new configuration on its own. -/
def toStable (s : ConfNode P K) (ok : Bool) : ConfNode P K :=
  { s with ctx := { s.ctx with stage := .stable } }.unsafeApplyConfiguration s.ctx.newPeers none
    false ok

variable [DecidableEq P]

def nextStage (s : ConfNode P K) (ok : Bool) : ConfNode P K :=
  match s.ctx.stage with
  | .catchingUp =>
    if 1 < s.ctx.nchanges then
      { s with ctx := { s.ctx with stage := .joint } }.unsafeApplyConfiguration s.ctx.newPeers
        (some s.ctx.oldPeers) false ok
    else s.toStable ok
  | .joint => s.toStable ok
  | .stable =>
    if s.ctx.newPeers.contains s.serverId then s.reset (some .ok)
    else (s.reset (some .ok)).stepDown s.currentTerm
  | .none => s

/-- A peer has caught up, or failed to. -/
def onCaughtup (s : ConfNode P K) (version : ℕ) (peer : P) (succ ok : Bool) : ConfNode P K :=
  if version ≠ s.ctx.version then s
  else if succ then
    let s := { s with ctx := { s.ctx with addingPeers := s.ctx.addingPeers.erase peer } }
    if s.ctx.addingPeers = [] then s.nextStage ok else s
  else s.reset (some (.catchup peer))

/-- The replicators of the new peers are started. `waits` says for which of them a replicator is
there to wait for. -/
def startReplicators (waits : P → Bool) (ok : Bool) (s : ConfNode P K) : List P → ConfNode P K
  | [] => s
  | peer :: peers =>
    if waits peer then
      startReplicators waits ok
        { s with waiting := s.waiting ++ [⟨peer, s.currentTerm, s.ctx.version⟩] } peers
    else s.onCaughtup s.ctx.version peer false ok

def start (s : ConfNode P K) (oldConf newConf : Configuration P) (done : Option K)
    (waits : P → Bool) (ok : Bool) : ConfNode P K :=
  let (adding, removing) := newConf.diffs oldConf
  let s : ConfNode P K := { s with
    ctx := { s.ctx with
      done := done
      stage := .catchingUp
      oldPeers := oldConf
      newPeers := newConf
      nchanges := adding.peers.length + removing.peers.length }
    progress := s.progress ++ [⟨oldConf, newConf⟩]
    started := s.started ++ [⟨oldConf, newConf⟩] }
  if adding.isEmpty then s.nextStage ok
  else { s with ctx := { s.ctx with addingPeers := adding.peers } }.startReplicators waits ok
    adding.peers

/-- The first entry of a leader. A configuration that is not stable is a change in progress. -/
def flush (s : ConfNode P K) (conf oldConf : Configuration P) (ok : Bool) : ConfNode P K :=
  if oldConf.isEmpty then
    { s with ctx := { s.ctx with newPeers := conf, stage := .stable, oldPeers := conf } }
      |>.unsafeApplyConfiguration conf none true ok
  else
    { s with
      ctx := { s.ctx with newPeers := conf, stage := .joint, oldPeers := oldConf }
      progress := s.progress ++ [Change.mk oldConf conf] }
      |>.unsafeApplyConfiguration conf (some oldConf) true ok

def becomeLeader (s : ConfNode P K) (ok : Bool) : ConfNode P K :=
  { s with state := .leader }.flush s.conf s.oldConf ok

def unsafeRegisterConfChange (s : ConfNode P K) (oldConf newConf : Configuration P)
    (done : Option K) (waits : P → Bool) (ok : Bool) : ConfNode P K :=
  if s.state ≠ .leader then
    s.reply done (if s.state = .transferring then .transferring else .notLeader)
  else if s.ctx.isBusy then s.reply done .busy
  else if s.conf.equals newConf then s.reply done .ok
  else s.start oldConf newConf done waits ok

def addPeer (s : ConfNode P K) (peer : P) : Option K → (P → Bool) → Bool → ConfNode P K :=
  s.unsafeRegisterConfChange s.conf (s.conf.addPeer peer)

def removePeer (s : ConfNode P K) (peer : P) : Option K → (P → Bool) → Bool → ConfNode P K :=
  s.unsafeRegisterConfChange s.conf (s.conf.removePeer peer)

def changePeers (s : ConfNode P K) (newPeers : Configuration P) :
    Option K → (P → Bool) → Bool → ConfNode P K :=
  s.unsafeRegisterConfChange s.conf newPeers

def onConfigurationChangeDone (s : ConfNode P K) (term : ℕ) (ok : Bool) : ConfNode P K :=
  if !s.state.leads || term != s.currentTerm then s else s.nextStage ok

/-- How a peer has caught up. `retried` is a timeout of a peer that is alive, for which the leader
waits once more. -/
inductive CaughtUpStatus
  | ok
  | retried
  | failed

/-- `on_caughtup` of the node. -/
def handleCaughtUp (s : ConfNode P K) (c : OnCaughtUp P) (st : CaughtUpStatus) (ok : Bool) :
    ConfNode P K :=
  if s.state ≠ .leader ∨ c.term ≠ s.currentTerm then s
  else
    match st with
    | .ok => s.onCaughtup c.version c.peer true ok
    | .retried => { s with waiting := s.waiting ++ [⟨c.peer, s.currentTerm, c.version⟩] }
    | .failed => s.onCaughtup c.version c.peer false ok

/-- What happens to a node. -/
inductive Event (P K : Type)
  | electSelf
  | becomeLeader (ok : Bool)
  | stepDown (term : ℕ)
  | transferLeadership
  | transferTimeout
  | deactivate
  /-- A follower gets another configuration with the log of a leader. -/
  | configure (conf oldConf : Configuration P)
  | addPeer (peer : P) (done : Option K) (waits : P → Bool) (ok : Bool)
  | removePeer (peer : P) (done : Option K) (waits : P → Bool) (ok : Bool)
  | changePeers (newPeers : Configuration P) (done : Option K) (waits : P → Bool) (ok : Bool)
  /-- An entry is committed. -/
  | commit (i : ℕ)
  /-- The closure of a committed entry is run. -/
  | changeDone (i : ℕ) (ok : Bool)
  | caughtUp (c : OnCaughtUp P) (st : CaughtUpStatus) (ok : Bool)

def step (s : ConfNode P K) : Event P K → Option (ConfNode P K)
  | .electSelf =>
    if s.state = .follower ∨ s.state = .candidate then
      some { s with state := .candidate, currentTerm := s.currentTerm + 1 }
    else none
  | .becomeLeader ok => if s.state = .candidate then some (s.becomeLeader ok) else none
  | .stepDown term => some (s.stepDown term)
  | .transferLeadership =>
    if s.state = .leader ∧ s.ctx.isBusy = false then some { s with state := .transferring }
    else none
  | .transferTimeout => if s.state = .transferring then some { s with state := .leader } else none
  | .deactivate => some { s.stepDown s.currentTerm with state := .inactive }
  | .configure conf oldConf =>
    if s.state.leads then none else some { s with conf := conf, oldConf := oldConf }
  | .addPeer peer done waits ok => some (s.addPeer peer done waits ok)
  | .removePeer peer done waits ok => some (s.removePeer peer done waits ok)
  | .changePeers newPeers done waits ok => some (s.changePeers newPeers done waits ok)
  | .commit i => some { s with entries := s.entries.modify i ({ · with committed := true }) }
  | .changeDone i ok =>
    match s.entries[i]? with
    | some e =>
      if e.committed && !e.run then
        some ({ s with entries := s.entries.modify i ({ · with run := true }) }
          |>.onConfigurationChangeDone e.term ok)
      else none
    | none => none
  | .caughtUp c st ok =>
    if c ∈ s.waiting then
      some ({ s with waiting := s.waiting.erase c }.handleCaughtUp c st ok)
    else none

/-- A node, from its start as a follower. -/
def system (P K : Type) [DecidableEq P] (serverId : P) :
    Transition.System (ConfNode P K) (Event P K) :=
  Transition.System.ofStep (init serverId) step

end ConfNode

end Joint

end Braft
