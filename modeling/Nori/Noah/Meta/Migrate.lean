import Nori.Noah.Meta.Info

/-!
# `MetaMigrate`: migration tasks

The task queue of the meta server, `meta/meta_migrate.cc`. `GetMigrateTask` erases an entry of the
map it is iterating over and goes on iterating; that is undefined behaviour of the source, and the
model has no result there, as where a task names a partition outside its table.
-/

namespace Noah

open Butil Container

def Role.number : Role → Int32
  | .master => 0
  | .slave => 1
  | .unrecognized value => value

def task2String (task : MigrateTask) : Bytes :=
  task.tableName ++ 95 :: intToString (.ofInt task.partitionId) ++ 95 ::
    node2String task.faultNode ++ 95 :: intToString task.role.number

def processorString (tableName : Bytes) (id : ℤ) (dst : Node) : Bytes :=
  tableName ++ 95 :: intToString (.ofInt id) ++ 95 :: node2String dst

/-- `GetAliveNodes`: the node variable is shared by the iterations, so a key that does not parse
adds the node before it once more. -/
def MetaInfo.getAliveNodes (snapshot : MetaInfoSnapshot) : OrderedSet Node :=
  (snapshot.nodes.entries.foldl (fun (st : Node × OrderedSet Node) e =>
    if 0 < e.2.lastAliveTime then
      (string2Node e.1 st.1, st.2.insert (string2Node e.1 st.1))
    else st) (default, ∅)).2

/-- The members of `class MetaMigrate`. -/
structure MetaMigrate where
  migrateTasks : OrderedMap Bytes MigrateTask
  processorInfo : OrderedMap Bytes Processor
  migratingInfo : OrderedMap Bytes (OrderedMap Node ℤ)
deriving DecidableEq

namespace MetaMigrate

def empty : MetaMigrate := ⟨∅, ∅, ∅⟩

def hasMigrateTask (m : MetaMigrate) : Bool := !m.migrateTasks.entries.isEmpty

def addMigrateTasks (tasks : List MigrateTask) (m : MetaMigrate) : MetaMigrate :=
  { m with migrateTasks :=
      tasks.foldl (fun ts task => ts.assign (task2String task) task) m.migrateTasks }

def getMigratingNumber (m : MetaMigrate) (tableName : Bytes) (node : Node) : ℤ :=
  ((m.migratingInfo.find? tableName).bind fun info => info.find? node).getD 0

/-- The candidates that no running copy of the partition goes to. -/
def freeCandidates (m : MetaMigrate) (table : Table) (partition : Partition)
    (aliveNodes : OrderedSet Node) : List Node :=
  let candidate := partition.slaves.foldl OrderedSet.erase (aliveNodes.erase partition.getMaster)
  candidate.elems.filter fun node =>
    (m.processorInfo.find? (processorString table.name partition.id node)).isNone

/-- `node_partitions[node]++` for a candidate. -/
def countReplica (candidate : List Node) (counts : OrderedMap Node ℤ) (node : Node) :
    OrderedMap Node ℤ :=
  if node ∈ candidate then counts.assign node ((counts.find? node).getD 0 + 1) else counts

/-- The last loop of `FindCandidateNode`: the first node with the smallest count, except that the
failed node is preferred among equals. -/
def pickCandidate (faultNode : Node) (first : Node × ℤ) (rest : List (Node × ℤ)) : Node × ℤ :=
  rest.foldl (fun best e =>
    if best.2 > e.2 then e
    else if best.2 = e.2 ∧ faultNode = e.1 then (e.1, best.2) else best) first

/-- `FindCandidateNode`. -/
def findCandidateNode (m : MetaMigrate) (table : Table) (partition : Partition)
    (aliveNodes : OrderedSet Node) (faultNode : Node) : Option Node :=
  let candidate := m.freeCandidates table partition aliveNodes
  match candidate with
  | [] => none
  -- a single candidate is taken before any replica is counted
  | [node] => some node
  | _ =>
    let counts := candidate.foldl
      (fun counts node => counts.emplace node (m.getMigratingNumber table.name node)) ∅
    let counts := table.partitions.foldl
      (fun counts p => p.visited.foldl (countReplica candidate) counts) counts
    match counts.entries with
    | [] => none
    | first :: rest => some (pickCandidate faultNode first rest).1

/-- The bookkeeping of `GetMigrateTask` for the task it hands out. -/
def assignProcessor (key : Bytes) (processor : Processor) (m : MetaMigrate) : MetaMigrate where
  migrateTasks := m.migrateTasks.erase key
  processorInfo := m.processorInfo.assign
    (processorString processor.task.tableName processor.task.partitionId processor.dst) processor
  migratingInfo :=
    let info := (m.migratingInfo.find? processor.task.tableName).getD ∅
    m.migratingInfo.assign processor.task.tableName
      (info.assign processor.dst ((info.find? processor.dst).getD 0 + 1))

/-- The loop of `GetMigrateTask` over the waiting tasks. -/
def getMigrateTaskLoop (node : Node) (snapshot : MetaInfoSnapshot) (m : MetaMigrate) :
    List (Bytes × MigrateTask) → Option (Option Processor × MetaMigrate)
  | [] => some (none, m)
  | (key, task) :: rest =>
    match snapshot.tableInfo.lookup task.tableName with
    -- the source erases the entry under its own iterator, here and for a missing master
    | none => none
    | some table =>
      match table.partitionAt task.partitionId with
      | none => none
      | some partition =>
        match partition.master with
        | none => none
        | some master =>
          if master ≠ node then getMigrateTaskLoop node snapshot m rest
          else match m.findCandidateNode table partition snapshot.getAliveNodes task.faultNode with
            | none => getMigrateTaskLoop node snapshot m rest
            -- the erased entry does no harm here, the loop returns
            | some candidate =>
              let processor : Processor := ⟨task, master, candidate⟩
              some (some processor, m.assignProcessor key processor)

def getMigrateTask (node : Node) (snapshot : MetaInfoSnapshot) (m : MetaMigrate) :
    Option (Option Processor × MetaMigrate) :=
  m.getMigrateTaskLoop node snapshot m.migrateTasks.entries

/-- `MetaMigrate::CommitMigrate`: a count that falls to zero is taken out. -/
def commitMigrate (processor : Processor) (m : MetaMigrate) : MetaMigrate where
  migrateTasks := m.migrateTasks.erase (task2String processor.task)
  processorInfo := m.processorInfo.erase
    (processorString processor.task.tableName processor.task.partitionId processor.dst)
  migratingInfo :=
    match m.migratingInfo.find? processor.task.tableName with
    | none => m.migratingInfo
    | some info =>
      match info.find? processor.dst with
      | none => m.migratingInfo
      | some number =>
        m.migratingInfo.assign processor.task.tableName
          (if number - 1 = 0 then info.erase processor.dst
           else info.assign processor.dst (number - 1))

end MetaMigrate

end Noah
