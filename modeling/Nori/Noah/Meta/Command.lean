import Nori.Noah.Meta.Migrate

/-!
# `MetaCommand`: requests to the meta server

The handlers of `meta/meta_command.cc`. A request is its command with the version it carries; a
sub-message that is absent reads as the default of its type. `DealRequest` runs on every replica
for each committed entry, and only the leader has a response to fill, which no handler reads back.
`LISTMETA` asks the replication group for its peers and is not modelled.
-/

namespace Noah

open Butil Container

/-- `enum Status` of `meta.proto`. -/
inductive Status
  | ok
  | eepoch
  | error
  | redirect
  | notFound
  | exist
  | notSupport
  | unknown
deriving DecidableEq

/-- The command of a request: its type with the sub-message the handler of that type reads. -/
inductive MetaCmd
  | ping (node : Node)
  | pull (node : Option Node) (names : List Bytes) (all : Bool)
  | init (table : Table)
  | listTable
  | listNode
  | dropTable (names : List Bytes)
  | downNodes (nodes : List Node)
  | migrate (unit : Processor)
  | unsupported

/-- `message MetaCmdRequest`. -/
structure MetaCmdRequest where
  version : VersionInfo
  cmd : MetaCmd

/-- `message MetaCmdResponse`: `migrate` is the ping field, `info` and `nodeStatus` are the pull
fields, `tables` and `nodes` the fields of the lists. -/
structure MetaCmdResponse where
  version : VersionInfo := ⟨0, 0⟩
  status : Status := .ok
  migrate : Option Processor := none
  info : List Table := []
  nodeStatus : List NodeStatus := []
  tables : List Bytes := []
  nodes : List NodeStatus := []
deriving DecidableEq

/-- The state behind the handlers: `MetaInfo`, `MetaMigrate` and the cached snapshot. -/
structure MetaServer where
  metaInfo : MetaInfo
  metaMigrate : MetaMigrate
  snapshot : Option MetaInfoSnapshot

namespace MetaServer

/-- `GetMetaInfoSnapshot`, run without interruption: the cached snapshot is handed out while
nothing is newer. -/
def getMetaInfoSnapshot (s : MetaServer) : MetaInfoSnapshot × MetaServer :=
  match s.snapshot with
  | some snapshot =>
    if s.metaInfo.changed snapshot.version then
      (s.metaInfo.getSnapshot, { s with snapshot := some s.metaInfo.getSnapshot })
    else (snapshot, s)
  | none => (s.metaInfo.getSnapshot, { s with snapshot := some s.metaInfo.getSnapshot })

@[simp] theorem getMetaInfoSnapshot_metaInfo (s : MetaServer) :
    s.getMetaInfoSnapshot.2.metaInfo = s.metaInfo := by
  unfold getMetaInfoSnapshot
  split
  · split <;> rfl
  · rfl

end MetaServer

/-- `CheckEpoch`: whether the handler goes on, and the response so far. -/
def checkEpoch (info : VersionInfo) (request : MetaCmdRequest) (response : MetaCmdResponse) :
    Bool × MetaCmdResponse :=
  match request.cmd with
  | .ping _ | .pull _ _ _ => (true, response)
  | cmd =>
    if info.epoch ≠ request.version.epoch then
      (false, { response with status := .eepoch, version := info })
    else match cmd with
      | .init _ =>
        if info.version ≠ request.version.version then
          -- the mismatch is reported, but the handler is not told to stop
          (true, { response with status := .eepoch, version := info })
        else (true, response)
      | _ => (true, response)

/-! ## Reads -/

/-- The state of a node as reads report it. -/
def NodeInfo.state (info : NodeInfo) : NodeState := if info.lastAliveTime = 0 then .down else .up

/-- The nodes a read reports, in iteration order. -/
def nodeStatuses (nodes : NodeInfoMap) : List NodeStatus :=
  nodes.entries.map fun e => ⟨string2Node e.1 default, e.2.state⟩

/-- The tables `DealPull` copies out of a snapshot. -/
def pullTables (snapshot : MetaInfoSnapshot) (node : Option Node) (names : List Bytes)
    (all : Bool) : List Table :=
  match node with
  | some node => (tablesOf snapshot.nodeTable node).elems.filterMap snapshot.tableInfo.lookup
  | none =>
    if names ≠ [] then names.filterMap snapshot.tableInfo.lookup
    else if all then snapshot.tableInfo.entries.map (·.2) else []

/-- The answer of `DealPull` from a snapshot. -/
def pullResponse (snapshot : MetaInfoSnapshot) (node : Option Node) (names : List Bytes)
    (all : Bool) : MetaCmdResponse where
  version := snapshot.version
  status := .ok
  info := pullTables snapshot node names all
  nodeStatus := nodeStatuses snapshot.nodes

/-- `snapshot->node_table[node_str]` makes an empty entry in the snapshot for a node without
one. -/
def pullSnapshot (snapshot : MetaInfoSnapshot) (node : Option Node) : MetaInfoSnapshot :=
  match node with
  | none => snapshot
  | some node =>
    match snapshot.nodeTable.lookup (node2String node) with
    | some _ => snapshot
    | none => { snapshot with
        nodeTable := snapshot.nodeTable.insert (node2String node) ∅ }

/-- The answer of `DealListTable` from a snapshot. -/
def listTableResponse (snapshot : MetaInfoSnapshot) (request : MetaCmdRequest) :
    MetaCmdResponse :=
  let checked := checkEpoch snapshot.version request {}
  if checked.1 then
    { checked.2 with version := snapshot.version, status := .ok, tables := snapshot.tableInfo.keys }
  else checked.2

/-- The answer of `DealListNode` from a snapshot. -/
def listNodeResponse (snapshot : MetaInfoSnapshot) (request : MetaCmdRequest) :
    MetaCmdResponse :=
  let checked := checkEpoch snapshot.version request {}
  if checked.1 then
    { checked.2 with
      version := snapshot.version, status := .ok, nodes := nodeStatuses snapshot.nodes }
  else checked.2

namespace MetaServer

/-- `DealPull`: the object it may extend is the cached one. -/
def dealPull (node : Option Node) (names : List Bytes) (all : Bool) (s : MetaServer) :
    MetaCmdResponse × MetaServer :=
  let (snapshot, s) := s.getMetaInfoSnapshot
  (pullResponse snapshot node names all, { s with snapshot := some (pullSnapshot snapshot node) })

def dealListTable (request : MetaCmdRequest) (s : MetaServer) : MetaCmdResponse × MetaServer :=
  let (snapshot, s) := s.getMetaInfoSnapshot
  (listTableResponse snapshot request, s)

def dealListNode (request : MetaCmdRequest) (s : MetaServer) : MetaCmdResponse × MetaServer :=
  let (snapshot, s) := s.getMetaInfoSnapshot
  (listNodeResponse snapshot request, s)

/-! ## Committed requests -/

/-- `DealPing`: the node is updated, and may be handed a migration. -/
def dealPing (env : Env) (node : Node) (s : MetaServer) : Option (MetaCmdResponse × MetaServer) :=
  -- the check against the first snapshot only writes a log line for a ping
  let (_, s) := s.getMetaInfoSnapshot
  let (info, metaInfo) := s.metaInfo.updateNode env node
  let s := { s with metaInfo := metaInfo }
  if s.metaMigrate.hasMigrateTask then
    let (snapshot, s) := s.getMetaInfoSnapshot
    (s.metaMigrate.getMigrateTask node snapshot).map fun r =>
      ({ version := info, status := .ok, migrate := r.1 }, { s with metaMigrate := r.2 })
  else some ({ version := info, status := .ok }, s)

/-- `DealInit`: the epoch of the outcome is read as an error code. -/
def dealInit (env : Env) (version : VersionInfo) (table : Table) (s : MetaServer) :
    MetaCmdResponse × MetaServer :=
  let (info, metaInfo) := s.metaInfo.createTable env version table
  let s := { s with metaInfo := metaInfo }
  if 0 < info.epoch then ({ version := info, status := .ok }, s)
  -- also where the table was stored, while the epoch is still zero
  else if info.epoch = 0 then ({ status := .exist }, s)
  else ({ status := .eepoch }, s)

def dealDropTable (version : VersionInfo) (names : List Bytes) (s : MetaServer) :
    MetaCmdResponse × MetaServer :=
  let (info, metaInfo) := s.metaInfo.dropTable version names
  let s := { s with metaInfo := metaInfo }
  if info.epoch ≠ 0 then ({ version := info, status := .ok }, s)
  else ({ version := metaInfo.version, status := .eepoch }, s)

def dealDownNodes (version : VersionInfo) (nodes : List Node) (s : MetaServer) :
    MetaCmdResponse × MetaServer :=
  let (info, tasks, metaInfo) := s.metaInfo.downNodes version.epoch nodes []
  let s := { s with metaInfo := metaInfo }
  if info.epoch ≠ 0 then
    ({ version := info, status := .ok },
      { s with metaMigrate := s.metaMigrate.addMigrateTasks tasks })
  else ({ version := metaInfo.version, status := .eepoch }, s)

def dealMigrate (version : VersionInfo) (processor : Processor) (s : MetaServer) :
    Option (MetaCmdResponse × MetaServer) :=
  (s.metaInfo.commitMigrate version processor).map fun (info, metaInfo) =>
    let s := { s with metaInfo := metaInfo }
    if info.epoch ≠ 0 then
      ({ version := info, status := .ok },
        { s with metaMigrate := s.metaMigrate.commitMigrate processor })
    else ({ version := metaInfo.version, status := .eepoch }, s)

/-- `DealRequest`. -/
def dealRequest (env : Env) (request : MetaCmdRequest) (s : MetaServer) :
    Option (MetaCmdResponse × MetaServer) :=
  match request.cmd with
  | .ping node => s.dealPing env node
  | .init table => some (s.dealInit env request.version table)
  | .dropTable names => some (s.dealDropTable request.version names)
  | .downNodes nodes => some (s.dealDownNodes request.version nodes)
  | .migrate unit => s.dealMigrate request.version unit
  -- reads are not committed; a log entry of another type only gets an answer
  | _ => some ({ status := .notSupport }, s)

/-- `Apply` at the leader: `PreDealRequest` answers the reads, and the other requests are dealt
with once they are committed. -/
def apply (env : Env) (request : MetaCmdRequest) (s : MetaServer) :
    Option (MetaCmdResponse × MetaServer) :=
  match request.cmd with
  | .pull node names all => some (s.dealPull node names all)
  | .listTable => some (s.dealListTable request)
  | .listNode => some (s.dealListNode request)
  | _ => s.dealRequest env request

end MetaServer

end Noah
