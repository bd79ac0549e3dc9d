import Nori.Noah.Entity

/-!
# `MetaInfo`: the placement state of the meta server

The four members of `MetaInfo` and the operations of `meta/meta_info.cc` that change them. Each
operation runs under the writer lock, so it is one step. What a call takes from its surroundings
is its `Env`: the clock, and the iteration order the hash maps take after an insertion.

Reading a partition of a table by an index outside the table is undefined behaviour of the
protobuf accessor; `MetaInfo.commitMigrate` then has no result.
-/

namespace Noah

open Butil Container

/-- `struct NodeInfo`; a node is down when its last alive time is zero. -/
structure NodeInfo where
  lastAliveTime : ℕ
deriving DecidableEq

abbrev TableMap := UnorderedMap Bytes Table
abbrev NodeTableMap := UnorderedMap Bytes (OrderedSet Bytes)
abbrev NodeInfoMap := UnorderedMap Bytes NodeInfo

/-- A reading of `gettimeofday_us`: microseconds since 1970, which is past. -/
structure Clock where
  us : ℕ
  pos : 0 < us

/-- What an operation takes from its surroundings: a clock reading, and the iteration orders the
maps have after an insertion. -/
structure Env where
  clock : Clock
  arrangeNodes : Arrangement Bytes NodeInfo
  arrangeTables : Arrangement Bytes Table

/-- The members of `class MetaInfo`; `struct MetaInfoSnapshot` has the same four. -/
structure MetaInfo where
  version : VersionInfo
  tableInfo : TableMap
  nodeTable : NodeTableMap
  nodes : NodeInfoMap
deriving DecidableEq

abbrev MetaInfoSnapshot := MetaInfo

/-! ## The reverse index -/

/-- The tables the index lists for a node. -/
def tablesOf (nodeTable : NodeTableMap) (node : Node) : OrderedSet Bytes :=
  (nodeTable.lookup (node2String node)).getD ∅

def updateNodeTable (node : Node) (tableName : Bytes) (nodeTable : NodeTableMap) :
    NodeTableMap :=
  match nodeTable.lookup (node2String node) with
  | some tables => nodeTable.replace (node2String node) (tables.insert tableName)
  | none => nodeTable.insert (node2String node) ((∅ : OrderedSet Bytes).insert tableName)

/-- The nodes `SetNodeTable` and `DropNodeTable` visit in a partition. An absent master is visited
as the empty node. -/
def Partition.visited (p : Partition) : List Node := p.getMaster :: p.slaves

def setNodeTable (table : Table) (nodeTable : NodeTableMap) : NodeTableMap :=
  table.partitions.foldl (fun nt p =>
    p.visited.foldl (fun nt node => updateNodeTable node table.name nt) nt) nodeTable

def clearNodeTable (node : Node) (tableName : Bytes) (nodeTable : NodeTableMap) :
    NodeTableMap :=
  nodeTable.modify (node2String node) fun tables => tables.erase tableName

def dropNodeTable (table : Table) (nodeTable : NodeTableMap) : NodeTableMap :=
  table.partitions.foldl (fun nt p =>
    p.visited.foldl (fun nt node => clearNodeTable node table.name nt) nt) nodeTable

/-! ## A node goes down -/

namespace Partition

/-- The first half of the body of `MigrateFromTable`: a master that is the node is released, and
only otherwise the node is taken out of the slaves. The flag is `changed`. -/
def release (node : Node) (p : Partition) : Partition × Bool :=
  if node = p.getMaster then ({ p with master := none }, true)
  -- `else`: a node that is master and slave at once keeps its place among the slaves
  else ({ p with slaves := p.slaves.filter (· ≠ node) }, decide (node ∈ p.slaves))

/-- The second half: without a master, the first registered slave becomes the master and the
others stay slaves; then the status is set. -/
def settle (registered : Node → Bool) (p : Partition) : Partition :=
  if p.master.isSome ∨ p.slaves ≠ [] then
    -- the loop stops at the first registered slave, which may be the node that just went down
    let p := if p.master.isSome then p else
      { p with master := p.slaves.find? registered, slaves := p.slaves.eraseP registered }
    { p with status := if p.master.isSome then .slowdown else .stuck }
  else { p with status := .stuck }

/-- The whole body of `MigrateFromTable` on one partition. -/
def migrateFrom (registered : Node → Bool) (node : Node) (p : Partition) : Partition :=
  if (p.release node).2 then (p.release node).1.settle registered else (p.release node).1

end Partition

/-- Whether a node is a key of `nodes_`. -/
def registeredIn (nodes : NodeInfoMap) (node : Node) : Bool :=
  (nodes.lookup (node2String node)).isSome

/-- `MigrateFromTable`: the version of the table becomes the global version once a partition
changed. The task array passed along is never appended to. -/
def migrateFromTable (nodes : NodeInfoMap) (version : ℤ) (node : Node) (table : Table) : Table :=
  { table with
    partitions := table.partitions.map (Partition.migrateFrom (registeredIn nodes) node)
    version := if table.partitions.any fun p => (p.release node).2 then version else table.version }

namespace MetaInfo

/-- `MigrateFromNode`: the index entry of the node is taken out, and every table it listed gives
the node up. -/
def migrateFromNode (node : Node) (s : MetaInfo) : MetaInfo :=
  let faultTables := tablesOf s.nodeTable node
  -- a listed table that does not exist is passed over
  faultTables.elems.foldl (fun s name =>
      { s with tableInfo :=
          s.tableInfo.modify name (migrateFromTable s.nodes s.version.version node) })
    { s with nodeTable := s.nodeTable.erase (node2String node) }

def generateMigrateTasks (nodes : List Node) (s : MetaInfo) : MetaInfo :=
  nodes.foldl (fun s node => s.migrateFromNode node) s

end MetaInfo

/-- The marking loop of `DownNodes`: whether a listed node is registered, and the map with those
nodes down. -/
def markDown (nodes : List Node) (nodeMap : NodeInfoMap) : Bool × NodeInfoMap :=
  nodes.foldl (fun st node =>
    (st.1 || registeredIn st.2 node, st.2.modify (node2String node) fun _ => ⟨0⟩))
    (false, nodeMap)

/-! ## A node comes back -/

namespace Partition

/-- What `UpdatePartNodeMS` does with a partition at offset `j` when the node is found there; the
flag is raised where the source sets `change`. -/
def failback (node : Node) (j : ℕ) (p : Partition) : Partition × Bool :=
  if j = 0 then
    match p.master with
    -- an empty place is taken without raising `change`
    | none => ({ p with master := some node }, false)
    | some m =>
      if node = m then (p, false)
      -- the node takes its place back, and the stand-in becomes a slave
      else ({ p with master := some node, slaves := p.slaves ++ [m] }, true)
  -- nothing asks whether the node is among the slaves already
  else ({ p with slaves := p.slaves ++ [node] }, true)

/-- The status `UpdatePartNodeMS` gives a partition after its offsets were tried. -/
def refreshStatus (dupSize : ℕ) (p : Partition) : Partition :=
  { p with status :=
      if p.master.isSome ∧ 1 + p.slaves.length = dupSize then .active
      else if p.master.isSome ∨ 0 < p.slaves.length then .slowdown
      else .stuck }

end Partition

/-- The data `UpdatePartNodeMS` carries through its loops. -/
structure Failback where
  change : Bool
  nodeTable : NodeTableMap

/-- The nodes of `nodes_` in iteration order, read back from their keys. -/
def nodeArray (nodes : NodeInfoMap) : List Node :=
  nodes.entries.map fun e => string2Node e.1 default

/-- The node at position `k`, which the source prints and reads back once more. -/
def partNode (nodes : List Node) (k : ℕ) : Node :=
  string2Node (node2String (nodes.getD k default)) default

/-- An `int32_t` converted to `size_t`. -/
def sizeT (n : ℤ) : ℕ := (n % 2 ^ 64).toNat

/-- The body of the loop over the offsets `j`: the partition may take the node, and the index is
updated either way. -/
def failbackSlot (node : Node) (tableName : Bytes) (nodes : List Node) (base : ℕ)
    (st : Failback × Partition) (j : ℕ) : Failback × Partition :=
  let r := if node = partNode nodes ((base + j) % nodes.length) then st.2.failback node j
    else (st.2, false)
  -- `UpdateNodeTable` stands outside the comparison: every table tried is listed for the node
  (⟨st.1.change || r.2, updateNodeTable node tableName st.1.nodeTable⟩, r.1)

/-- The body of the loop over the partitions; an active partition is skipped. The version of the
table follows the flag. -/
def failbackPartition (node : Node) (tableName : Bytes) (nodes : List Node) (start dupSize : ℕ)
    (version : ℤ) (i : ℕ) (st : Failback × ℤ) (p : Partition) : (Failback × ℤ) × Partition :=
  if p.status = .active then (st, p)
  else
    let r := (List.range dupSize).foldl (failbackSlot node tableName nodes (start + i)) (st.1, p)
    ((r.1, if r.1.change then version else st.2), r.2.refreshStatus dupSize)

def failbackPartitions (node : Node) (tableName : Bytes) (nodes : List Node)
    (start dupSize : ℕ) (version : ℤ) :
    ℕ → Failback × ℤ → List Partition → (Failback × ℤ) × List Partition
  | _, st, [] => (st, [])
  | i, st, p :: ps =>
    let r := failbackPartition node tableName nodes start dupSize version i st p
    let rest := failbackPartitions node tableName nodes start dupSize version (i + 1) r.1 ps
    (rest.1, r.2 :: rest.2)

/-- The body of the loop over the tables. -/
def failbackTable (node : Node) (version : ℤ) (nodes : List Node) (fb : Failback)
    (tableName : Bytes) (table : Table) : Failback × Table :=
  let start := (Butil.hash tableName).toNat % nodes.length
  let r := failbackPartitions node tableName nodes start (sizeT table.duplicateNum) version 0
    (fb, table.version) table.partitions
  (r.1.1, { table with partitions := r.2, version := r.1.2 })

namespace MetaInfo

/-- `UpdatePartNodeMS`: the flag `change` is not reset from one table to the next. -/
def updatePartNodeMS (node : Node) (s : MetaInfo) : MetaInfo :=
  let r := s.tableInfo.traverse (failbackTable node s.version.version (nodeArray s.nodes))
    ⟨false, s.nodeTable⟩
  { s with tableInfo := r.2, nodeTable := r.1.nodeTable }

/-! ## The operations -/

/-- The state `Init` leaves a fresh `MetaInfo` in. -/
def start : MetaInfo := ⟨⟨0, 0⟩, ∅, ∅, ∅⟩

def bumpEpoch (s : MetaInfo) : MetaInfo :=
  { s with version := { s.version with epoch := s.version.epoch + 1 } }

def bumpVersion (s : MetaInfo) : MetaInfo :=
  { s with version := { s.version with version := s.version.version + 1 } }

/-- `RefreshNodes`: every node that is up gets a fresh stamp. -/
def refreshNodes (clock : Clock) (s : MetaInfo) : MetaInfo :=
  { s with nodes := (s.nodes.traverse (fun (_ : Unit) _ info =>
      ((), if info.lastAliveTime = 0 then info else ⟨clock.us⟩)) ()).2 }

/-- A known node gets a fresh stamp. -/
def stamp (clock : Clock) (node : Node) (s : MetaInfo) : MetaInfo :=
  { s with nodes := s.nodes.replace (node2String node) ⟨clock.us⟩ }

/-- A node becomes a member. -/
def register (env : Env) (node : Node) (s : MetaInfo) : MetaInfo :=
  { s with nodes := env.arrangeNodes.run (s.nodes.insert (node2String node) ⟨env.clock.us⟩) }

/-- `UpdateNode`: a new node registers, a node that was down fails back, any other only gets a
fresh stamp. The stamp of a failback is written before `UpdatePartNodeMS` runs. -/
def updateNode (env : Env) (node : Node) (s : MetaInfo) : VersionInfo × MetaInfo :=
  let s' := match s.nodes.lookup (node2String node) with
    | some info =>
      if info.lastAliveTime = 0 then ((s.stamp env.clock node).updatePartNodeMS node).bumpEpoch
      else s.stamp env.clock node
    -- a new key can rehash the map, so the order is arranged anew
    | none => (s.register env node).bumpEpoch
  (s'.version, s')

/-- A table is stored under the next version. -/
def addTable (env : Env) (table : Table) (s : MetaInfo) : MetaInfo :=
  { s.bumpVersion with
    nodeTable := setNodeTable table s.nodeTable
    tableInfo := env.arrangeTables.run (s.tableInfo.assign table.name
      { table with version := s.version.version + 1 }) }

/-- `CreateTable`: `(-1, 0)` for a version that is not current, `(0, 0)` for a name that is
taken. -/
def createTable (env : Env) (info : VersionInfo) (table : Table) (s : MetaInfo) :
    VersionInfo × MetaInfo :=
  if info ≠ s.version then (⟨-1, 0⟩, s)
  else match s.tableInfo.lookup table.name with
    | some _ => (⟨0, 0⟩, s)
    | none => ((s.addTable env table).version, s.addTable env table)

/-- `DownNodes`, with the task array it passes on. -/
def downNodes (epoch : ℤ) (nodes : List Node) (tasks : List MigrateTask) (s : MetaInfo) :
    VersionInfo × List MigrateTask × MetaInfo :=
  if epoch ≠ s.version.epoch then (⟨0, 0⟩, tasks, s)
  else
    let marked := markDown nodes s.nodes
    let s' := { s with nodes := marked.2 }
    -- the tables are walked for every listed node once a single one of them is registered
    let s' := if marked.1 then s'.bumpEpoch.generateMigrateTasks nodes else s'
    (s'.version, tasks, s')

/-- The body of the loop of `DropTable`, with its flag `changed`. -/
def dropOne (st : Bool × MetaInfo) (name : Bytes) : Bool × MetaInfo :=
  match st.2.tableInfo.lookup name with
  | some table => (true, { st.2 with
      nodeTable := dropNodeTable table st.2.nodeTable
      tableInfo := st.2.tableInfo.erase name })
  | none => st

/-- `DropTable`: the version moves only when a table was dropped. -/
def dropTable (info : VersionInfo) (tables : List Bytes) (s : MetaInfo) : VersionInfo × MetaInfo :=
  if info ≠ s.version then (⟨0, 0⟩, s)
  else
    let r := tables.foldl dropOne (false, s)
    let s' := if r.1 then r.2.bumpVersion else r.2
    (s'.version, s')

end MetaInfo

/-- `table.mutable_partitions(index)`, undefined outside the table. -/
def Table.partitionAt (table : Table) (index : ℤ) : Option Partition :=
  if 0 ≤ index then table.partitions[index.toNat]? else none

/-- The replica `CommitMigrate` adds: after a failed master the destination becomes the master and
the old master, or the empty node for an absent one, a slave. -/
def Partition.addReplica (role : Role) (dst : Node) (duplicateNum : ℤ) (p : Partition) :
    Partition :=
  let p := if role = .master then
      -- `master()` without `has_master()`: the default message for an absent master
      { p with slaves := p.slaves ++ [p.getMaster], master := some dst }
    else { p with slaves := p.slaves ++ [dst] }
  if (1 + p.slaves.length : ℤ) = duplicateNum then { p with status := .active } else p

/-- The table with a replica added to one of its partitions. -/
def Table.addReplica (processor : Processor) (p : Partition) (version : ℤ) (table : Table) :
    Table :=
  { table with
    partitions := table.partitions.set processor.task.partitionId.toNat
      (p.addReplica processor.task.role processor.dst table.duplicateNum)
    version := version }

namespace MetaInfo

/-- A replica is stored under the next version. -/
def addReplica (processor : Processor) (table : Table) (p : Partition) (s : MetaInfo) :
    MetaInfo :=
  { s.bumpVersion with
    nodeTable := updateNodeTable processor.dst processor.task.tableName s.nodeTable
    tableInfo := s.tableInfo.replace processor.task.tableName
      (table.addReplica processor p (s.version.version + 1)) }

/-- `CommitMigrate`: a destination that is a replica already changes nothing. -/
def commitMigrate (info : VersionInfo) (processor : Processor) (s : MetaInfo) :
    Option (VersionInfo × MetaInfo) :=
  if info ≠ s.version then some (⟨0, 0⟩, s)
  else match s.tableInfo.lookup processor.task.tableName with
    | none => some (⟨0, 0⟩, s)
    | some table =>
      match table.partitionAt processor.task.partitionId with
      | none => none
      | some p =>
        -- again `master()` without `has_master()`
        if processor.dst = p.getMaster ∨ processor.dst ∈ p.slaves then some (s.version, s)
        else some ((s.addReplica processor table p).version, s.addReplica processor table p)

/-- `Changed`. -/
def changed (info : VersionInfo) (s : MetaInfo) : Bool :=
  decide (info.epoch < s.version.epoch) || decide (info.version < s.version.version)

/-- `LoadFromSnapshot`: a snapshot with nothing newer is refused. -/
def loadFromSnapshot (s : MetaInfo) (snapshot : MetaInfoSnapshot) : Bool × MetaInfo :=
  if snapshot.version.epoch ≤ s.version.epoch ∧ snapshot.version.version ≤ s.version.version then
    (false, s)
  else (true, snapshot)

/-- `GetSnapshot`. -/
def getSnapshot (s : MetaInfo) : MetaInfoSnapshot := s

end MetaInfo

end Noah
