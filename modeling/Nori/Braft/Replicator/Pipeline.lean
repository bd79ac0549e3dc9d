import Mathlib.Algebra.BigOperators.Group.List.Basic
import Mathlib.Algebra.Ring.Int.Defs
import Nori.Transition.System

/-!
# `Replicator`

A leader sends its log to one peer, with several `AppendEntries` requests in flight at a time. The
handlers of the replicator are run one at a time, under the lock of its id: when a request returns,
when the timer of a blocked replicator fires, when the log manager wakes up a waiter, when a
snapshot is installed, and when the peer becomes read-only or ceases to be.

The peer is part of the model as far as it decides which requests succeed: its log is compared with
the leader's as `handle_append_entries_request` and `check_and_resolve_conflict` do.
-/

namespace Braft.Pipeline

open Transition

/-- What a replicator reads of an entry. -/
structure Entry where
  term : ℕ
  isConfiguration : Bool
  dataLength : ℕ
deriving DecidableEq

/-- The flags, the term of the leader, and what its log has at each index once the entry is
appended. -/
structure Options where
  maxEntriesSize : ℤ
  maxParallelAppendEntriesRpcNum : ℕ
  maxBodySize : ℕ
  term : ℕ
  entry : ℤ → Entry
  term_pos : ∀ i, 0 < i → 0 < (entry i).term

/-! ## The log of the leader -/

/-- What the log manager of the leader has: the entries from the first to the last one, and the ids
of the last snapshot and of the entry before the first. -/
structure LogView where
  firstLogIndex : ℤ
  lastLogIndex : ℤ
  virtualFirst : ℤ
  lastSnapshot : ℤ
  first_pos : 0 < firstLogIndex
  first_le : firstLogIndex ≤ lastSnapshot + 1
  virtual_le : virtualFirst ≤ lastSnapshot
  snapshot_le : lastSnapshot ≤ lastLogIndex

/-- What happens to the log of a leader. -/
inductive LogChange
  | append (n : ℕ)
  | setSnapshot (lastIncluded : ℤ)

namespace LogView

/-- `get_term`, 0 if it is not known. -/
def getTerm (opts : Options) (i : ℤ) (l : LogView) : ℕ :=
  if i = 0 then 0
  else if i = l.virtualFirst ∨ i = l.lastSnapshot then (opts.entry i).term
  else if l.lastLogIndex < i ∨ i < l.firstLogIndex then 0
  else (opts.entry i).term

def append (n : ℕ) (l : LogView) : LogView :=
  { l with
    lastLogIndex := l.lastLogIndex + n
    snapshot_le := by
      have := l.snapshot_le
      omega }

/-- `set_snapshot`, of a snapshot that the leader has taken: the log is kept behind the snapshot
before. -/
def setSnapshot (lastIncluded : ℤ) (l : LogView) : LogView :=
  if h : l.lastSnapshot < lastIncluded ∧ lastIncluded ≤ l.lastLogIndex then
    { l with
      lastSnapshot := lastIncluded
      virtualFirst := if 0 < l.lastSnapshot then l.lastSnapshot else l.virtualFirst
      firstLogIndex :=
        if 0 < l.lastSnapshot then max l.firstLogIndex (l.lastSnapshot + 1) else l.firstLogIndex
      first_pos := by
        have := l.first_pos
        split_ifs <;> omega
      first_le := by
        have := l.first_le
        split_ifs <;> omega
      virtual_le := by
        have := l.virtual_le
        split_ifs <;> omega
      snapshot_le := h.2 }
  else l

def change (l : LogView) : LogChange → LogView
  | .append n => l.append n
  | .setSnapshot lastIncluded => l.setSnapshot lastIncluded

end LogView

/-! ## Requests, and the peer -/

/-- An `AppendEntriesRequest`, with the id of its call. -/
structure Request where
  callId : ℕ
  prevLogIndex : ℤ
  prevLogTerm : ℕ
  entries : List Entry
deriving DecidableEq

def Request.lastLogIndex (rpc : Request) : ℤ := rpc.prevLogIndex + rpc.entries.length

/-- The log of a peer: the terms of the entries behind its last snapshot. -/
structure Peer where
  lastSnapshot : ℤ
  lastLogIndex : ℤ
  term : ℤ → ℕ
  snapshot_nonneg : 0 ≤ lastSnapshot

namespace Peer

/-- The peer has the leader's entry at an index, in its log or in its snapshot. -/
def Holds (opts : Options) (i : ℤ) (p : Peer) : Prop :=
  i ≤ p.lastSnapshot ∨ i ≤ p.lastLogIndex ∧ p.term i = (opts.entry i).term

/-- A log that has an entry of the leader's term at an index has the leader's terms up to there. -/
def Matching (opts : Options) (p : Peer) : Prop :=
  ∀ i, p.lastSnapshot < i → i ≤ p.lastLogIndex → p.term i = (opts.entry i).term →
    ∀ j ≤ i, p.lastSnapshot < j → p.term j = (opts.entry j).term

/-- `get_term`; a snapshot has the term of the leader's entry. -/
def getTerm (opts : Options) (i : ℤ) (p : Peer) : ℕ :=
  if i = 0 then 0
  else if i = p.lastSnapshot then (opts.entry i).term
  else if p.lastLogIndex < i ∨ i < p.lastSnapshot then 0
  else p.term i

/-- The term of an entry of a request. -/
def termOf (rpc : Request) (i : ℤ) : Option ℕ :=
  if i ≤ rpc.prevLogIndex then none
  else (rpc.entries[(i - rpc.prevLogIndex - 1).toNat]?).map Entry.term

/-- All entries of a request are there already. -/
def Has (rpc : Request) (p : Peer) : Prop :=
  ∀ k < rpc.entries.length, rpc.prevLogIndex + 1 + k ≤ p.lastSnapshot ∨
    rpc.prevLogIndex + 1 + k ≤ p.lastLogIndex ∧
      termOf rpc (rpc.prevLogIndex + 1 + k) = some (p.term (rpc.prevLogIndex + 1 + k))

instance (rpc : Request) (p : Peer) : Decidable (p.Has rpc) :=
  inferInstanceAs (Decidable (∀ k < rpc.entries.length, _))

/-- A request is accepted if its previous entry is there. From the first entry on that conflicts
with the log, the log becomes that of the request. -/
def receive (opts : Options) (rpc : Request) (p : Peer) : Option Peer :=
  if p.getTerm opts rpc.prevLogIndex ≠ rpc.prevLogTerm then none
  else if p.Has rpc then some p
  else some { p with
    lastLogIndex := rpc.lastLogIndex
    term := fun i => (termOf rpc i).getD (p.term i) }

/-- A snapshot of the leader is installed; the log is kept if it has the last entry of it. -/
def receiveSnapshot (opts : Options) (lastIncluded : ℤ) (p : Peer) : Peer :=
  if h : lastIncluded ≤ p.lastSnapshot then p
  else
    { p with
      lastSnapshot := lastIncluded
      lastLogIndex :=
        if lastIncluded ≤ p.lastLogIndex ∧ p.term lastIncluded = (opts.entry lastIncluded).term then
          p.lastLogIndex
        else lastIncluded
      snapshot_nonneg := by
        have := p.snapshot_nonneg
        omega }

end Peer

/-! ## The replicator -/

inductive St
  | idle
  | blocking
  | appendingEntries
  | installingSnapshot
deriving DecidableEq

structure FlyingAppendEntriesRpc where
  logIndex : ℤ
  entriesSize : ℕ
  callId : ℕ
deriving DecidableEq

structure Replicator where
  nextIndex : ℤ
  flyingAppendEntriesSize : ℤ
  readonlyIndex : ℤ
  st : St
  appendEntriesInFly : List FlyingAppendEntriesRpc
  waitId : ℕ
  isWaiterCanceled : Bool
  reader : Bool

def Replicator.minFlyingIndex (r : Replicator) : ℤ := r.nextIndex - r.flyingAppendEntriesSize

/-- The replicator and what it waits for: the log manager with its waiters and those it has woken
up, timers of a blocked replicator, requests that were sent, and snapshots that are being installed.
The peer has accepted some of the requests.

`commits` are the ranges that were passed to `commit_at`, `checksOk` says whether all `CHECK`s so
far have held, and `gone` that the lock of the replicator cannot be taken any more. -/
structure World extends Replicator where
  log : LogView
  waiters : List ℕ
  nextWaitId : ℕ
  woken : ℕ
  timers : ℕ
  nextCallId : ℕ
  requests : List Request
  accepted : List Request
  installs : List ℤ
  peer : Peer
  commits : List (ℤ × ℤ)
  checksOk : Bool
  gone : Bool

/-- What becomes of a try to install a snapshot, and whether a timer can be added if it has to
wait. -/
inductive InstallChoice
  | throttled (timer : Bool)
  | openFailed
  | uriEmpty (timer : Bool)
  | loadMetaFailed
  | sent (lastIncluded : ℤ)

/-- What the environment decides while a handler runs: what happens to the log between two of its
reads, whether a timer can be added, and what becomes of snapshots. -/
structure Choices where
  meanwhile : List LogChange
  timer : Bool
  installs : List InstallChoice

namespace World

def check (ok : Bool) (w : World) : World := { w with checksOk := w.checksOk && ok }

/-- The log of the leader changes. New entries wake up all waiters. -/
def changeLog (w : World) (c : LogChange) : World :=
  match c with
  | .append _ =>
    { w with log := w.log.change c, woken := w.woken + w.waiters.length, waiters := [] }
  | .setSnapshot _ => { w with log := w.log.change c }

/-- `_reset_next_index` -/
def resetNextIndex (w : World) : World :=
  { w with
    nextIndex := w.nextIndex - w.flyingAppendEntriesSize
    flyingAppendEntriesSize := 0
    appendEntriesInFly := []
    isWaiterCanceled := true
    waiters := if w.waitId ≠ 0 then w.waiters.erase w.waitId else w.waiters
    waitId := 0 }

variable (opts : Options)

/-- `_fill_common_fields`: the previous index and its term, if the entry is not compacted. A
heartbeat is sent without them in that case. -/
def fillCommonFields (isHeartbeat : Bool) (w : World) : Option (ℤ × ℕ) × World :=
  let prevLogIndex := w.nextIndex - 1
  let prevLogTerm := w.log.getTerm opts prevLogIndex
  if prevLogTerm = 0 ∧ prevLogIndex ≠ 0 then
    if isHeartbeat then (some (0, prevLogTerm), w)
    else (none, w.check (prevLogIndex < w.log.firstLogIndex))
  else (some (prevLogIndex, prevLogTerm), w)

/-- `_send_empty_entries(true)`: a heartbeat returns to another handler, which leaves the requests
in flight alone. -/
def sendHeartbeat (w : World) : World :=
  match w.fillCommonFields opts true with
  | (none, w) => w.check false
  | (some _, w) => w

/-- `_send_empty_entries(false)`, where `install` is `_install_snapshot`. -/
def sendEmptyWith (install : World → Option World) (w : World) : Option World :=
  match w.fillCommonFields opts false with
  | (none, w) => install w
  | (some (prevLogIndex, prevLogTerm), w) =>
    let w := w.check (w.appendEntriesInFly = [])
    let w := w.check (w.flyingAppendEntriesSize = 0)
    some { w with
      st := .appendingEntries
      appendEntriesInFly := w.appendEntriesInFly ++ [⟨w.nextIndex, 0, w.nextCallId⟩]
      requests := w.requests ++ [⟨w.nextCallId, prevLogIndex, prevLogTerm, []⟩]
      nextCallId := w.nextCallId + 1 }

/-- `_block`, where `sendEmpty` is `_send_empty_entries(false)`. -/
def blockWith (sendEmpty : World → Option World) (timer : Bool) (w : World) : Option World :=
  if w.st = .blocking then some w
  else if timer then some { w with st := .blocking, timers := w.timers + 1 }
  else sendEmpty w

/-- `_install_snapshot`. A try is made for each of the choices until one is settled. -/
def installSnapshot : List InstallChoice → World → Option World
  | [], w => if w.reader then some w else none
  | choice :: choices, w =>
    if w.reader then some w
    else
      match choice with
      | .throttled timer => blockWith (sendEmptyWith opts (installSnapshot choices)) timer w
      | .openFailed => some { w with st := .installingSnapshot }
      | .uriEmpty timer =>
        blockWith (sendEmptyWith opts (installSnapshot choices)) timer
          { w with st := .installingSnapshot }
      | .loadMetaFailed => some { w with st := .installingSnapshot, reader := true }
      | .sent lastIncluded =>
        if w.log.lastSnapshot ≤ lastIncluded ∧ lastIncluded ≤ w.log.lastLogIndex then
          some { w with
            st := .installingSnapshot
            reader := true
            installs := w.installs ++ [lastIncluded] }
        else none

def sendEmptyEntries (choices : List InstallChoice) : World → Option World :=
  sendEmptyWith opts (installSnapshot opts choices)

def block (choices : Choices) : World → Option World :=
  blockWith (sendEmptyEntries opts choices.installs) choices.timer

/-- The log manager is asked to wake up the replicator, which it does at once if there are entries
already. -/
def registerWaiter (w : World) : World :=
  if w.waitId = 0 ∧ w.flyingAppendEntriesSize < opts.maxEntriesSize ∧
      w.appendEntriesInFly.length < opts.maxParallelAppendEntriesRpcNum then
    if w.nextIndex - 1 ≠ w.log.lastLogIndex then
      { w with woken := w.woken + 1, isWaiterCanceled := false }
    else
      { w with
        waitId := w.nextWaitId
        waiters := w.waiters ++ [w.nextWaitId]
        nextWaitId := w.nextWaitId + 1
        isWaiterCanceled := false }
  else w

/-- The state is idle if no entries are in flight. -/
def idleIfEmpty (w : World) : World :=
  if w.flyingAppendEntriesSize = 0 then { w with st := .idle } else w

/-- `_wait_more_entries` -/
def waitMoreEntries (w : World) : World := (w.registerWaiter opts).idleIfEmpty

end World

/-- Why `_prepare_entry` gives no entry. -/
inductive PrepareEntryRc
  | ok
  | erange
  | enoent
  | ereadonly
deriving DecidableEq

/-- The read-only index behind a configuration. -/
def readonlyBehind (readonlyIndex logIndex : ℤ) : ℤ :=
  if readonlyIndex ≠ 0 ∧ readonlyIndex ≤ logIndex then logIndex + 1 else readonlyIndex

/-- The loop over `_prepare_entry`: the entries from an index on, and the read-only index. -/
def prepareEntries (opts : Options) (log : LogView) :
    ℕ → ℤ → ℕ → ℤ → List Entry × ℤ × PrepareEntryRc
  | 0, _, _, readonlyIndex => ([], readonlyIndex, .ok)
  | fuel + 1, logIndex, length, readonlyIndex =>
    if opts.maxBodySize ≤ length then ([], readonlyIndex, .erange)
    else if log.lastLogIndex < logIndex ∨ logIndex < log.firstLogIndex then
      ([], readonlyIndex, .enoent)
    else
      let entry := opts.entry logIndex
      if (readonlyIndex ≠ 0 ∧ readonlyIndex ≤ logIndex) ∧ entry.isConfiguration = false then
        ([], readonlyIndex, .ereadonly)
      else
        match prepareEntries opts log fuel (logIndex + 1) (length + entry.dataLength)
          (readonlyBehind readonlyIndex logIndex) with
        | (entries, readonlyIndex, rc) => (entry :: entries, readonlyIndex, rc)

/-- How an `AppendEntries` call ends. -/
inductive RpcResult
  | failed
  | response (success : Bool) (term : ℕ) (lastLogIndex : ℕ)
deriving DecidableEq

namespace World

variable (opts : Options)

/-- `_send_entries`. The log may change between the common fields and the entries (`meanwhile`);
while these are collected, and after, it is taken to stay as it is. -/
def sendEntries (choices : Choices) (w : World) : Option World :=
  if opts.maxEntriesSize ≤ w.flyingAppendEntriesSize ∨
      opts.maxParallelAppendEntriesRpcNum ≤ w.appendEntriesInFly.length ∨ w.st = .blocking then
    some w
  else
    match w.fillCommonFields opts false with
    | (none, w) => installSnapshot opts choices.installs w.resetNextIndex
    | (some (prevLogIndex, prevLogTerm), w) =>
      let w := choices.meanwhile.foldl changeLog w
      let maxEntriesSize := opts.maxEntriesSize - w.flyingAppendEntriesSize
      let w := w.check (0 < maxEntriesSize)
      match prepareEntries opts w.log maxEntriesSize.toNat w.nextIndex 0 w.readonlyIndex with
      | (entries, readonlyIndex, rc) =>
        let w := { w with readonlyIndex }
        if entries = [] then
          if w.nextIndex < w.log.firstLogIndex then
            installSnapshot opts choices.installs w.resetNextIndex
          else if rc = .ereadonly then
            some w.idleIfEmpty
          else some (w.waitMoreEntries opts)
        else
          let w : World := { w with
            appendEntriesInFly :=
              w.appendEntriesInFly ++ [⟨w.nextIndex, entries.length, w.nextCallId⟩]
            nextIndex := w.nextIndex + entries.length
            flyingAppendEntriesSize := w.flyingAppendEntriesSize + entries.length
            st := .appendingEntries
            requests := w.requests ++ [⟨w.nextCallId, prevLogIndex, prevLogTerm, entries⟩]
            nextCallId := w.nextCallId + 1 }
          some (w.waitMoreEntries opts)

/-- A rejected request: where to go on. -/
def findNextIndex (lastLogIndex : ℕ) (w : World) : World :=
  { w with
    nextIndex :=
      if (lastLogIndex : ℤ) + 1 < w.nextIndex then lastLogIndex + 1
      else if 1 < w.nextIndex then w.nextIndex - 1
      else w.nextIndex }

/-- The entries of a request are on the peer. -/
def commitAt (minFlyingIndex : ℤ) (rpc : Request) (w : World) : World :=
  if rpc.entries = [] then w
  else { w with commits := w.commits ++ [(minFlyingIndex, rpc.lastLogIndex)] }

/-- Requests up to an index have returned. -/
def popFlying (rpcFirstIndex : ℤ) (w : World) : World :=
  let popped := w.appendEntriesInFly.takeWhile fun rpc => rpc.logIndex ≤ rpcFirstIndex
  { w with
    appendEntriesInFly := w.appendEntriesInFly.dropWhile fun rpc => rpc.logIndex ≤ rpcFirstIndex
    flyingAppendEntriesSize :=
      w.flyingAppendEntriesSize - (popped.map fun rpc => (rpc.entriesSize : ℤ)).sum }

/-- `_on_rpc_returned`; a call that is not in flight any more is ignored. -/
def onRpcReturned (choices : Choices) (rpc : Request) (result : RpcResult) (w : World) :
    Option World :=
  let rpcFirstIndex := rpc.prevLogIndex + 1
  let minFlyingIndex := w.minFlyingIndex
  let w := w.check (0 < minFlyingIndex)
  let visited := w.appendEntriesInFly.takeWhile fun flying => flying.logIndex ≤ rpcFirstIndex
  if ¬ visited.any fun flying => flying.callId = rpc.callId then some w
  else
    match result with
    | .failed => block opts choices w.resetNextIndex
    | .response false term lastLogIndex =>
      if opts.term < term then some { w.resetNextIndex with gone := true }
      else sendEmptyEntries opts choices.installs (w.resetNextIndex.findNextIndex lastLogIndex)
    | .response true term _ =>
      if term ≠ opts.term then some w.resetNextIndex
      else
        ((w.commitAt minFlyingIndex rpc).popFlying rpcFirstIndex).sendEntries opts choices

/-- `_continue_sending` when a timer fires. The lock is not released if a waiter is registered. -/
def onBlockTimedOut (choices : Choices) (w : World) : Option World :=
  if w.waitId ≠ 0 then some { w with gone := true }
  else w.sendEmptyEntries opts choices.installs

/-- `_continue_sending` when a waiter is woken up. -/
def continueSending (choices : Choices) (stopped : Bool) (w : World) : Option World :=
  if stopped = false ∧ w.isWaiterCanceled = false then
    { w with waitId := 0 }.sendEntries opts choices
  else some w

/-- `_on_install_snapshot_returned` -/
def onInstallSnapshotReturned (choices : Choices) (lastIncluded : ℤ) (success : Bool) (w : World) :
    Option World :=
  let w := { w with reader := false }
  if success then { w with nextIndex := lastIncluded + 1 }.sendEntries opts choices
  else w.block opts choices

/-- `_change_readonly_config` -/
def changeReadonlyConfig (readonly : Bool) (w : World) : World :=
  if (readonly ∧ w.readonlyIndex ≠ 0) ∨ (readonly = false ∧ w.readonlyIndex = 0) then w
  else if readonly then { w with readonlyIndex := w.log.lastLogIndex + 1 }
  else { w with readonlyIndex := 0 }.waitMoreEntries opts

end World

/-! ## Runs -/

/-- What happens: to the replicator, to the log of the leader, or to the peer. -/
inductive Event
  | rpcReturned (choices : Choices) (rpc : Request) (result : RpcResult)
  | blockTimedOut (choices : Choices)
  | woken (choices : Choices) (stopped : Bool)
  | installReturned (choices : Choices) (lastIncluded : ℤ) (success : Bool)
  | changeReadonly (readonly : Bool)
  | heartbeat
  | stop
  | log (change : LogChange)
  | receive (rpc : Request)
  | receiveSnapshot (lastIncluded : ℤ)

namespace World

variable (opts : Options)

/-- `start`: the peer is asked for the entry before the next one. -/
def start (choices : Choices) (log : LogView) (peer : Peer) : Option World :=
  sendEmptyEntries opts choices.installs
    { nextIndex := log.lastLogIndex + 1
      flyingAppendEntriesSize := 0
      readonlyIndex := 0
      st := .idle
      appendEntriesInFly := []
      waitId := 0
      isWaiterCanceled := false
      reader := false
      log, peer
      waiters := []
      nextWaitId := 1
      woken := 0
      timers := 0
      nextCallId := 0
      requests := []
      accepted := []
      installs := []
      commits := []
      checksOk := true
      gone := false }

/-- A request returns with success only if the peer has accepted it, in the term of the leader. -/
def CanReturn (rpc : Request) (result : RpcResult) (w : World) : Prop :=
  rpc ∈ w.requests ∧ (∀ last, result = .response true opts.term last → rpc ∈ w.accepted)

/-- An event of the replicator, which has to be alive for it. -/
def handle (w : World) : Event → Option World
  | .rpcReturned choices rpc result => w.onRpcReturned opts choices rpc result
  | .blockTimedOut choices =>
    if w.timers = 0 then none else { w with timers := w.timers - 1 }.onBlockTimedOut opts choices
  | .woken choices stopped =>
    if w.woken = 0 then none
    else { w with woken := w.woken - 1 }.continueSending opts choices stopped
  | .installReturned choices lastIncluded success =>
    if lastIncluded ∈ w.installs then
      { w with installs := w.installs.erase lastIncluded }.onInstallSnapshotReturned opts choices
        lastIncluded success
    else none
  | .changeReadonly readonly => some (w.changeReadonlyConfig opts readonly)
  | .heartbeat => some (w.sendHeartbeat opts)
  | .stop => some { w with gone := true }
  | _ => none

/-- An event of the log or the peer. -/
def environment (w : World) : Event → Option World
  | .log change => some (w.changeLog change)
  | .receive rpc => do
    let peer ← if rpc ∈ w.requests then w.peer.receive opts rpc else none
    return { w with peer, accepted := w.accepted ++ [rpc] }
  | .receiveSnapshot lastIncluded =>
    if lastIncluded ∈ w.installs then
      some { w with peer := w.peer.receiveSnapshot opts lastIncluded }
    else none
  | _ => none

end World

/-- All runs of a replicator, with any log of the leader and of the peer at the beginning. -/
def pipeline (opts : Options) : System World Event where
  init w := ∃ choices log peer, Peer.Matching opts peer ∧ World.start opts choices log peer = some w
  step w e w' := (w.environment opts e = some w' ∨ w.gone = false ∧ w.handle opts e = some w') ∧
    ∀ choices rpc result, e = .rpcReturned choices rpc result → w.CanReturn opts rpc result

end Braft.Pipeline
