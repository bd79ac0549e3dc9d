import Nori.Transition.Pool
import Nori.Transition.System

/-!
# `SnapshotExecutor`

A node saves snapshots of its state machine, and installs those of the leader: it downloads the
snapshot and has the state machine loaded from it. The entry points are called by different threads.
A thread holds the mutex of the executor for some of its steps only, so that between two of them
other threads may run; what it does under the mutex is one step.

The object that `_downloading_snapshot` points to is part of the executor. A thread that has set the
pointer to `NULL` has the object for itself.
-/

namespace Braft.Snapshots

open Transition

inductive Errno
  | eperm
  | ebusy
  | eio
  | ehostdown
  | estale
  | einval
  | eintr
  | einternal
  | other (code : ℕ)
deriving DecidableEq

/-- `butil::Status`: nothing if it is ok. -/
abbrev Status := Option (Errno × String)

structure SnapshotMeta where
  lastIncludedIndex : ℤ
  lastIncludedTerm : ℤ
deriving DecidableEq

/-- A call of `install_snapshot`. -/
structure InstallRpc where
  id : ℕ
  term : ℤ
  snapshotMeta : SnapshotMeta
  uri : String
deriving DecidableEq

/-- What the caller gets: the error of the controller, and the response. -/
structure Response where
  error : Status := none
  success : Option Bool := none
  term : Option ℤ := none
deriving DecidableEq

structure DownloadingSnapshot where
  rpc : InstallRpc
  response : Response
deriving DecidableEq

namespace DownloadingSnapshot

def setFailed (error : Errno × String) (ds : DownloadingSnapshot) : DownloadingSnapshot :=
  { ds with response := { ds.response with error := some error } }

def setSuccess (success : Bool) (ds : DownloadingSnapshot) : DownloadingSnapshot :=
  { ds with response := { ds.response with success := some success } }

def setTerm (term : ℤ) (ds : DownloadingSnapshot) : DownloadingSnapshot :=
  { ds with response := { ds.response with term := some term } }

end DownloadingSnapshot

/-- The members of the executor. A pointer to a `DownloadingSnapshot` is the id of the call that has
allocated it. -/
structure Executor where
  lastSnapshotIndex : ℤ
  lastSnapshotTerm : ℤ
  term : ℤ
  savingSnapshot : Bool
  loadingSnapshot : Bool
  stopped : Bool
  curCopier : Bool
  downloadingSnapshot : Option (ℕ × DownloadingSnapshot)
  loadingSnapshotMeta : SnapshotMeta
  runningJobs : ℤ

/-- The executor, with the calls that were answered and the closures that were run so far. The ids
of calls and closures are given in turn. -/
structure Shared extends Executor where
  nextRpc : ℕ
  nextClosure : ℕ
  answers : List (ℕ × Response)
  ran : List (ℕ × Status)
  checksOk : Bool

/-- Where a thread is. -/
inductive Thread
  /-- `install_snapshot`, before `register_downloading_snapshot` -/
  | register (rpc : InstallRpc)
  /-- before `done->Run()` of a call -/
  | respond (ds : DownloadingSnapshot)
  /-- `install_snapshot`, before the copier is joined -/
  | copy (ds : ℕ) (snapshotMeta : SnapshotMeta)
  /-- before `load_downloading_snapshot` -/
  | copied (ds : ℕ) (snapshotMeta : SnapshotMeta)
  /-- `load_downloading_snapshot`, before `_running_jobs.signal()` -/
  | signalRespond (ds : DownloadingSnapshot)
  /-- before `_fsm_caller->on_snapshot_load` -/
  | load
  /-- a `SNAPSHOT_LOAD` task of the `FSMCaller` -/
  | fsmLoad
  /-- before `on_snapshot_load_done` -/
  | loadDone (st : Status)
  /-- `on_snapshot_load_done`, before the mutex is locked again -/
  | loadFinish (m : Option ℕ) (st : Status)
  /-- `on_snapshot_load_done`, before `m->done->Run()` -/
  | respondSignal (ds : DownloadingSnapshot)
  /-- `on_snapshot_load_done`, before `_running_jobs.signal()` -/
  | signal
  /-- a `SNAPSHOT_SAVE` task of the `FSMCaller` -/
  | fsmSave (done : Option ℕ)
  /-- before `on_snapshot_save_done` -/
  | saveDone (done : Option ℕ) (st : Status) (snapshotMeta : SnapshotMeta)
  /-- `on_snapshot_save_done`, before the writer is closed -/
  | saveClose (done : Option ℕ) (st : Status) (ret : Option Errno) (snapshotMeta : SnapshotMeta)
  /-- `on_snapshot_save_done`, before the mutex is locked again -/
  | saveCommit (done : Option ℕ) (st : Status) (ret : Option Errno) (snapshotMeta : SnapshotMeta)
  /-- `on_snapshot_save_done`, before `_saving_snapshot` is reset -/
  | saveFinish (done : Option ℕ) (st : Status) (ret : Option Errno)
  /-- `on_snapshot_save_done`, before `_running_jobs.signal()` -/
  | saveSignal (done : Option ℕ) (st : Status) (ret : Option Errno)
  /-- a closure in a bthread -/
  | runClosure (done : ℕ) (st : Status)
  /-- `shutdown`, before `interrupt_downloading_snapshot` -/
  | interrupt (newTerm : ℤ)

/-- What a copier ends with. -/
inductive CopyResult
  | failed (error : Errno × String)
  | noReader
  | copied

/-- What storage, copier and `FSMCaller` decide in a step: whether a copier can be started and what
it ends with, whether a load task is accepted, the status of a task and the snapshot it has saved,
whether the meta can be saved and the writer closed. -/
structure Choice where
  startsToCopy : Bool
  copyResult : CopyResult
  acceptsLoad : Bool
  status : Status
  snapshotMeta : SnapshotMeta
  savesMeta : Bool
  closes : Bool

/-- The same for `do_snapshot`. -/
structure SaveChoice where
  lastAppliedIndex : ℤ
  createsWriter : Bool
  acceptsSave : Bool

namespace Shared

variable (s : Shared)

def check (ok : Bool) : Shared := { s with checksOk := s.checksOk && ok }

/-- `register_downloading_snapshot`, and what the thread does then. -/
def registerDownloadingSnapshot (startsToCopy : Bool) (rpc : InstallRpc) : Shared × Option Thread :=
  let ds : DownloadingSnapshot := ⟨rpc, {}⟩
  if s.stopped then (s, some (.respond (ds.setFailed (.ehostdown, "Node is stopped"))))
  else if rpc.term ≠ s.term then (s, some (.respond ((ds.setSuccess false).setTerm s.term)))
  else if rpc.snapshotMeta.lastIncludedIndex ≤ s.lastSnapshotIndex then
    (s, some (.respond ((ds.setTerm s.term).setSuccess true)))
  else
    let ds := ds.setTerm s.term
    if s.savingSnapshot then (s, some (.respond (ds.setFailed (.ebusy, "Is saving snapshot"))))
    else
      match s.downloadingSnapshot with
      | none =>
        let s := s.check (!s.curCopier)
        if startsToCopy then
          ({ s with
              downloadingSnapshot := some (rpc.id, ds)
              curCopier := true
              runningJobs := s.runningJobs + 1 },
            some (.copy rpc.id rpc.snapshotMeta))
        else
          ({ s with downloadingSnapshot := none, curCopier := false },
            some (.respond (ds.setFailed (.einval, "Fail to copy from , " ++ rpc.uri))))
      | some (p, m) =>
        if m.rpc.snapshotMeta.lastIncludedIndex = rpc.snapshotMeta.lastIncludedIndex then
          ({ s with downloadingSnapshot := some (p, ds) }, some (.respond (m.setFailed
              (.eintr, "Interrupted by the retry InstallSnapshotRequest"))))
        else if rpc.snapshotMeta.lastIncludedIndex < m.rpc.snapshotMeta.lastIncludedIndex then
          (s, some (.respond (ds.setFailed (.einval, "A newer snapshot is under installing"))))
        else if s.loadingSnapshot then
          (s, some (.respond (ds.setFailed (.ebusy, "A former snapshot is under loading"))))
        else
          (s.check s.curCopier, some (.respond (ds.setFailed
            (.ebusy, "A former snapshot is under installing,  trying to cancel"))))

/-- The object at a pointer. -/
def deref (p : ℕ) : Option DownloadingSnapshot :=
  s.downloadingSnapshot.bind fun (p', ds) => if p' = p then some ds else none

/-- `load_downloading_snapshot`, up to where the mutex is unlocked. -/
def loadDownloadingSnapshot (result : CopyResult) (p : ℕ) (snapshotMeta : SnapshotMeta) :
    Shared × Option Thread :=
  match s.deref p with
  | none => (s.check false, none)
  | some ds =>
    let s := s.check s.curCopier
    match result with
    | .failed error =>
      ({ s with curCopier := false, downloadingSnapshot := none },
        some (.signalRespond (ds.setFailed error)))
    | .noReader =>
      ({ s with curCopier := false, downloadingSnapshot := none }, some (.signalRespond
          (ds.setFailed (.einternal, "Fail to copy snapshot from " ++ ds.rpc.uri))))
    | .copied =>
      ({ s with curCopier := false, loadingSnapshot := true, loadingSnapshotMeta := snapshotMeta },
        some .load)

/-- `on_snapshot_load_done`, up to where the mutex is unlocked. -/
def onSnapshotLoadDone (st : Status) : Shared × Option Thread :=
  let s := s.check s.loadingSnapshot
  let m := s.downloadingSnapshot.map Prod.fst
  if st = none then
    ({ s with
        lastSnapshotIndex := s.loadingSnapshotMeta.lastIncludedIndex
        lastSnapshotTerm := s.loadingSnapshotMeta.lastIncludedTerm },
      some (.loadFinish m st))
  else (s, some (.loadFinish m st))

/-- The answer to the call whose snapshot was loaded, or not. -/
def loadAnswer (st : Status) (m : DownloadingSnapshot) : DownloadingSnapshot :=
  match st with
  | none => m.setSuccess true
  | some error => m.setFailed error

/-- `on_snapshot_load_done`, when the mutex is locked again. -/
def finishLoad (m : Option ℕ) (st : Status) : Shared × Option Thread :=
  let s' := { s with loadingSnapshot := false, downloadingSnapshot := none }
  match m with
  | none => (s', some .signal)
  | some p =>
    match s.deref p with
    | none => (s'.check false, none)
    | some ds => (s', some (.respondSignal (loadAnswer st ds)))

/-- `interrupt_downloading_snapshot` -/
def interruptDownloadingSnapshot (newTerm : ℤ) : Shared :=
  let s := { s with term := newTerm }
  if s.downloadingSnapshot = none then s
  else if s.loadingSnapshot then s
  else s.check s.curCopier

/-- The id of the closure, if there is one. -/
def newClosure (hasClosure : Bool) : Option ℕ := if hasClosure then some s.nextClosure else none

def countClosure (hasClosure : Bool) : Shared :=
  { s with nextClosure := s.nextClosure + hasClosure.toNat }

/-- `do_snapshot` -/
def doSnapshot (minIndexGap : ℤ) (hasClosure : Bool) (c : SaveChoice) : Shared × Option Thread :=
  let done := s.newClosure hasClosure
  let s := s.countClosure hasClosure
  if s.stopped then (s, done.map (.runClosure · (some (.eperm, "Is stopped"))))
  else if s.downloadingSnapshot.isSome then
    (s, done.map (.runClosure · (some (.ebusy, "Is loading another snapshot"))))
  else if s.savingSnapshot then
    (s, done.map (.runClosure · (some (.ebusy, "Is saving another snapshot"))))
  else if c.lastAppliedIndex - s.lastSnapshotIndex < minIndexGap then
    (s, done.map (.runClosure · none))
  else if c.createsWriter = false then
    (s, done.map (.runClosure · (some (.eio, "Fail to create writer"))))
  else
    let s := { s with savingSnapshot := true }
    if c.acceptsSave then ({ s with runningJobs := s.runningJobs + 1 }, some (.fsmSave done))
    else
      -- the task is run for its closure only
      (s, done.map fun _ => .saveDone done (some (.ehostdown, "The raft node is down")) ⟨0, 0⟩)

/-- What `on_snapshot_save_done` returns if the snapshot is not newer than the last one. -/
def saveRet (st : Status) (snapshotMeta : SnapshotMeta) : Option Errno :=
  if st = none ∧ snapshotMeta.lastIncludedIndex ≤ s.lastSnapshotIndex then some .estale
  else st.map Prod.fst

end Shared

/-- What the return value becomes when the meta is saved and the writer closed. -/
def closeRet (c : Choice) (ret : Option Errno) : Option Errno :=
  if c.closes = false then some .eio
  else if ret = none ∧ c.savesMeta = false then some .eio
  else ret

/-- The status that the closure of `do_snapshot` gets. -/
def saveStatus (st : Status) (ret : Option Errno) : Status :=
  match st, ret with
  | none, some error => some (error, "node call on_snapshot_save_done failed")
  | st, _ => st

/-- The next step of a thread. -/
def Thread.run (c : Choice) (s : Shared) : Thread → Shared × Option Thread
  | .register rpc => s.registerDownloadingSnapshot c.startsToCopy rpc
  | .respond ds => ({ s with answers := s.answers ++ [(ds.rpc.id, ds.response)] }, none)
  | .copy p snapshotMeta => (s.check s.curCopier, some (.copied p snapshotMeta))
  | .copied p snapshotMeta => s.loadDownloadingSnapshot c.copyResult p snapshotMeta
  | .signalRespond ds => ({ s with runningJobs := s.runningJobs - 1 }, some (.respond ds))
  | .load =>
    (s, some (if c.acceptsLoad then .fsmLoad
      else .loadDone (some (.ehostdown, "This raft node is down"))))
  | .fsmLoad => (s, some (.loadDone c.status))
  | .loadDone st => s.onSnapshotLoadDone st
  | .loadFinish m st => s.finishLoad m st
  | .respondSignal ds =>
    ({ s with answers := s.answers ++ [(ds.rpc.id, ds.response)] }, some .signal)
  | .signal => ({ s with runningJobs := s.runningJobs - 1 }, none)
  | .fsmSave done => (s, some (.saveDone done c.status c.snapshotMeta))
  | .saveDone done st snapshotMeta =>
    (s, some (.saveClose done st (s.saveRet st snapshotMeta) snapshotMeta))
  | .saveClose done st ret snapshotMeta =>
    (s, some (.saveCommit done st (closeRet c ret) snapshotMeta))
  | .saveCommit done st ret snapshotMeta =>
    (if ret = none then
        { s with
          lastSnapshotIndex := snapshotMeta.lastIncludedIndex
          lastSnapshotTerm := snapshotMeta.lastIncludedTerm }
      else s,
      some (.saveFinish done st ret))
  | .saveFinish done st ret => ({ s with savingSnapshot := false }, some (.saveSignal done st ret))
  | .saveSignal done st ret =>
    ({ s with runningJobs := s.runningJobs - 1 }, done.map (.runClosure · (saveStatus st ret)))
  | .runClosure done st => ({ s with ran := s.ran ++ [(done, st)] }, none)
  | .interrupt newTerm => (s.interruptDownloadingSnapshot newTerm, none)

/-! ## Runs -/

/-- The executor and the threads that are in one of its functions. -/
abbrev World := Pool Shared Thread

/-- What happens: an entry point is called, or a thread goes on. -/
inductive Event
  | installSnapshot (term : ℤ) (snapshotMeta : SnapshotMeta) (uri : String) (throttled : Bool)
  | doSnapshot (hasClosure : Bool) (c : SaveChoice)
  | interruptDownloadingSnapshot (newTerm : ℤ)
  | shutdown
  | advance (i : ℕ) (c : Choice)

/-- `install_snapshot`, up to `register_downloading_snapshot`. -/
def installSnapshot (term : ℤ) (snapshotMeta : SnapshotMeta) (uri : String) (throttled : Bool)
    (w : World) : World :=
  let rpc : InstallRpc := ⟨w.shared.nextRpc, term, snapshotMeta, uri⟩
  let ds : DownloadingSnapshot := ⟨rpc, {}⟩
  ⟨{ w.shared with nextRpc := w.shared.nextRpc + 1 },
    (if throttled then .respond (ds.setFailed (.ebusy, "Fail to add install_snapshot tasks now"))
      else .register rpc) :: w.threads⟩

/-- `shutdown`, up to `interrupt_downloading_snapshot`. -/
def shutdown (w : World) : World :=
  ⟨{ w.shared with stopped := true }, .interrupt w.shared.term :: w.threads⟩

def step (minIndexGap : ℤ) (w : World) : Event → Option World
  | .installSnapshot term snapshotMeta uri throttled =>
    some (installSnapshot term snapshotMeta uri throttled w)
  | .doSnapshot hasClosure c =>
    let result := w.shared.doSnapshot minIndexGap hasClosure c
    some ⟨result.1, result.2.toList ++ w.threads⟩
  | .interruptDownloadingSnapshot newTerm =>
    some ⟨w.shared.interruptDownloadingSnapshot newTerm, w.threads⟩
  | .shutdown => some (shutdown w)
  | .advance i c => w.advance Thread.run i c

/-- The executor after `init`, which has loaded the last snapshot if there is one. -/
def start (lastIndex lastTerm term : ℤ) : World where
  shared :=
    { lastSnapshotIndex := lastIndex
      lastSnapshotTerm := lastTerm
      term
      savingSnapshot := false
      loadingSnapshot := false
      stopped := false
      curCopier := false
      downloadingSnapshot := none
      loadingSnapshotMeta := ⟨lastIndex, lastTerm⟩
      runningJobs := 0
      nextRpc := 0
      nextClosure := 0
      answers := []
      ran := []
      checksOk := true }
  threads := []

/-- All runs. -/
def sessions (minIndexGap : ℤ) : System World Event where
  init w := ∃ lastIndex lastTerm term, w = start lastIndex lastTerm term
  step w e w' := step minIndexGap w e = some w'

end Braft.Snapshots
