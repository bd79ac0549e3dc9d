import Nori.Container.HashTable
import Nori.Noah.Node.Server

/-!
# `NodeMigrate`

The thread of `node/node_migrate.cc` that copies a partition to another node. It registers the
target, sends the cache in batches, and asks the meta server to commit. A batch is read under the
lock of the cache and sent after the lock was given back, so writes come in between. The next batch
starts at the key that the last one stopped in front of, unless the key is gone or the table was
rehashed: then it starts from the beginning.

A step of the thread is one batch, one call to the target or to the meta server, or what stands
between them. What it does not decide comes with the step: how a call ends. Writes to the cache, new
views, `Cancel` and the quit signal are steps of their own. A `Set` of several keys is several steps
here, and so is a rehash that goes with it.
-/

namespace Noah

open Butil Container Transition

/-- `struct MigrateTaskInfo`. -/
structure MigrateTaskInfo where
  tableName : Bytes
  partitionId : Int32
  fault : Node
  src : Node
  dst : Node
  role : Role
deriving DecidableEq

namespace MigrateTaskInfo

def convert2MigrateUnit (task : MigrateTaskInfo) : Processor :=
  ⟨⟨task.tableName, task.partitionId.toInt, task.fault, task.role⟩, task.src, task.dst⟩

end MigrateTaskInfo

/-- Where `Run` is. -/
inductive NodeMigrate.Pc
  | register
  /-- at the beginning of `MigrateData` -/
  | migrateData
  /-- in front of the condition of its loop -/
  | loop
  /-- in the loop of `MigrateToDst` -/
  | migrateToDst
  /-- at the beginning of `CommitToMeta` -/
  | commitToMeta
  /-- in its loop -/
  | metaCmd
  | unregister
  | finished
deriving DecidableEq

/-- How a call ends: no answer, or a status. After `EEPOCH` the view is updated, which may fail. -/
inductive NodeMigrate.Reply
  | failed
  | ok
  | eepoch (updated : Bool)
  | error
deriving DecidableEq

/-- The thread with its locals, what it shares with others, and a record of what happened. -/
structure NodeMigrate (bucket : ℕ → Bytes → ℕ) where
  pc : NodeMigrate.Pc
  canceled : Bool
  request : MigrateRequest
  lastKey : Bytes
  buckets : ℕ
  ended : Bool
  metaVersion : VersionInfo
  cacheExpired : Bool
  cache : HashTable Bytes ValueInfo bucket
  metaInfo : Common.MetaInfo
  migratingInfo : OrderedMap Bytes (OrderedSet Node)
  askedToQuit : Bool
  /-- the caches there were from the start of `MigrateData` to its end, the last one first -/
  history : List (HashTable Bytes ValueInfo bucket)
  /-- what the target answered `OK` to -/
  acked : List (Σ _ : Bytes, ValueInfo)
  /-- the `MIGRATE` commands sent to the meta server -/
  sent : List (VersionInfo × Processor)

namespace NodeMigrate

variable {bucket : ℕ → Bytes → ℕ}

/-- Whether `MigrateData` has been entered and not left. -/
def migrating (w : NodeMigrate bucket) : Bool :=
  match w.pc with
  | .migrateData | .loop | .migrateToDst => true
  | _ => false

def registerMigrateInfo (task : MigrateTaskInfo) (info : OrderedMap Bytes (OrderedSet Node)) :
    OrderedMap Bytes (OrderedSet Node) :=
  let tableStr := tableInfoString task.tableName task.partitionId
  info.assign tableStr (((info.find? tableStr).getD ∅).insert task.dst)

def unregisterMigrateInfo (task : MigrateTaskInfo) (info : OrderedMap Bytes (OrderedSet Node)) :
    OrderedMap Bytes (OrderedSet Node) :=
  let tableStr := tableInfoString task.tableName task.partitionId
  match info.find? tableStr with
  | none => info
  | some nodes =>
    if (nodes.erase task.dst).elems = [] then info.erase tableStr
    else info.assign tableStr (nodes.erase task.dst)

/-- The entries a batch is taken from. -/
def unread (w : NodeMigrate bucket) : List (Σ _ : Bytes, ValueInfo) :=
  -- the empty string stands for no key at all
  if w.lastKey ≠ [] ∧ w.buckets = w.cache.bucketCount then
    let found := w.cache.map.entries.dropWhile (·.1 ≠ w.lastKey)
    if found = [] then w.cache.map.entries else found
  else w.cache.map.entries

/-- The entries of a batch. Its size is compared after an entry was taken, so one is taken whatever
the flag says. -/
def batch (migrateBatchSize : Int32) (w : NodeMigrate bucket) : List (Σ _ : Bytes, ValueInfo) :=
  w.unread.take (max 1 migrateBatchSize.toInt.toNat)

/-- The entries behind a batch. -/
def left (migrateBatchSize : Int32) (w : NodeMigrate bucket) : List (Σ _ : Bytes, ValueInfo) :=
  w.unread.drop (max 1 migrateBatchSize.toInt.toNat)

/-- The locked block of the loop of `MigrateData`. -/
def readBatch (migrateBatchSize : Int32) (w : NodeMigrate bucket) : NodeMigrate bucket :=
  { w with
    request := { w.request with
      keyValues := (w.batch migrateBatchSize).foldl (fun m e => m.assign e.1 e.2)
        w.request.keyValues }
    buckets := if w.lastKey ≠ [] ∧ w.buckets = w.cache.bucketCount then w.buckets
      else w.cache.bucketCount
    lastKey := ((w.left migrateBatchSize).head?.map (·.1)).getD w.lastKey
    ended := (w.left migrateBatchSize).isEmpty }

/-- `MigrateToDst` is left. Its caller does not look at the result. -/
def leaveDst (w : NodeMigrate bucket) : NodeMigrate bucket :=
  { w with pc := .loop, request := { w.request with keyValues := ∅ } }

/-- The condition at the end of the loop of `MigrateToDst`. -/
def retryDst (w : NodeMigrate bucket) : NodeMigrate bucket :=
  if w.askedToQuit then w.leaveDst else w

/-- The condition at the end of the loop of `CommitToMeta`. -/
def retryMeta (w : NodeMigrate bucket) : NodeMigrate bucket :=
  if w.askedToQuit ∨ w.canceled then { w with pc := .unregister } else w

/-- The beginning of `MigrateData`, up to its loop. -/
def migrateData (task : MigrateTaskInfo) (w : NodeMigrate bucket) : NodeMigrate bucket :=
  match w.metaInfo.tableInfo.lookup task.tableName with
  | none => { w with pc := .unregister }
  | some table =>
    { w with
      pc := .loop
      request := ⟨⟨w.metaInfo.version.epoch, table.version, task.tableName, task.partitionId⟩, ∅,
        w.cacheExpired⟩
      lastKey := []
      buckets := w.cache.bucketCount
      ended := false }

/-- One pass through the loop of `MigrateData`, up to the call. -/
def migrateLoop (migrateBatchSize : Int32) (w : NodeMigrate bucket) : NodeMigrate bucket :=
  if w.ended = false ∧ w.canceled = false ∧ w.askedToQuit = false then
    if w.unread = [] then w.readBatch migrateBatchSize
    else { w.readBatch migrateBatchSize with pc := .migrateToDst }
  -- `return true`, also after `Cancel` and the quit signal
  else { w with pc := .commitToMeta }

/-- One call of `MigrateToDst`. -/
def migrateToDst (task : MigrateTaskInfo) (reply : Reply) (w : NodeMigrate bucket) :
    NodeMigrate bucket :=
  match reply with
  | .ok => { w with acked := w.request.keyValues.entries ++ w.acked }.leaveDst
  | .eepoch true =>
    match w.metaInfo.tableInfo.lookup task.tableName with
    | none => w.leaveDst
    | some table =>
      { w with request :=
          { w.request with epoch := w.metaInfo.version.epoch, version := table.version } }.retryDst
  | .failed | .eepoch false | .error => w.retryDst

/-- The beginning of `CommitToMeta`, up to its loop. -/
def commitToMeta (w : NodeMigrate bucket) : NodeMigrate bucket :=
  if w.canceled then { w with pc := .unregister }
  else { w with pc := .metaCmd, metaVersion := w.metaInfo.version }

/-- One call of `CommitToMeta`. -/
def metaCmd (task : MigrateTaskInfo) (reply : Reply) (w : NodeMigrate bucket) :
    NodeMigrate bucket :=
  let w := { w with sent := (w.metaVersion, task.convert2MigrateUnit) :: w.sent }
  match reply with
  | .ok => { w with pc := .unregister }
  | .eepoch true => { w with metaVersion := w.metaInfo.version }.retryMeta
  | .failed | .eepoch false | .error => w.retryMeta

/-- A step of `Run`. -/
def run (migrateBatchSize : Int32) (task : MigrateTaskInfo) (reply : Reply)
    (w : NodeMigrate bucket) : Option (NodeMigrate bucket) :=
  match w.pc with
  | .register => some { w with
      pc := .migrateData
      migratingInfo := registerMigrateInfo task w.migratingInfo
      history := [w.cache] }
  | .migrateData => some (w.migrateData task)
  | .loop => some (w.migrateLoop migrateBatchSize)
  | .migrateToDst => some (w.migrateToDst task reply)
  | .commitToMeta => some w.commitToMeta
  | .metaCmd => some (w.metaCmd task reply)
  | .unregister => some { w with
      pc := .finished
      migratingInfo := unregisterMigrateInfo task w.migratingInfo }
  | .finished => none

/-- The cache changes. -/
def withCache (cache : HashTable Bytes ValueInfo bucket) (w : NodeMigrate bucket) :
    NodeMigrate bucket :=
  { w with cache := cache, history := if w.migrating then cache :: w.history else w.history }

/-- What happens around the thread, and its own steps. -/
inductive Event (bucket : ℕ → Bytes → ℕ)
  | set (key : Bytes) (info : ValueInfo)
  | del (key : Bytes)
  | rehash (cache : HashTable Bytes ValueInfo bucket)
  | updateMetaInfo (view : Common.MetaInfo)
  | cancel
  | quit
  | run (reply : Reply)

instance (t t' : HashTable Bytes ValueInfo bucket) : Decidable (t.RehashOf t') :=
  inferInstanceAs (Decidable (_ ∧ _))

def step (migrateBatchSize : Int32) (task : MigrateTaskInfo) (w : NodeMigrate bucket) :
    Event bucket → Option (NodeMigrate bucket)
  | .set key info => some (w.withCache (w.cache.assign key info))
  | .del key => some (w.withCache (w.cache.erase key))
  | .rehash cache => if w.cache.RehashOf cache then some (w.withCache cache) else none
  | .updateMetaInfo view => some { w with metaInfo := view }
  | .cancel => some { w with canceled := true }
  | .quit => some { w with askedToQuit := true }
  | .run reply => w.run migrateBatchSize task reply

/-- A thread that has just been made: nothing is sent yet, and nobody asked it to stop. -/
structure Fresh (w : NodeMigrate bucket) : Prop where
  pc_eq : w.pc = .register
  canceled_eq : w.canceled = false
  askedToQuit_eq : w.askedToQuit = false
  keyValues_eq : w.request.keyValues = ∅
  history_eq : w.history = []
  acked_eq : w.acked = []
  sent_eq : w.sent = []

end NodeMigrate

/-- A migration over any cache, with everything that can happen to it. -/
def migration (bucket : ℕ → Bytes → ℕ) (migrateBatchSize : Int32) (task : MigrateTaskInfo) :
    System (NodeMigrate bucket) (NodeMigrate.Event bucket) where
  init := NodeMigrate.Fresh
  step w event w' := w.step migrateBatchSize task event = some w'

end Noah
