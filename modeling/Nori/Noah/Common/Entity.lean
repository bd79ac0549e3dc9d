import Nori.Noah.Entity

/-!
# Tables as nodes and clients keep them

`common/entity.h`: a node server and a client turn each table they pull into a `common::Table`,
whose partitions are a map by partition id, and keep the tables with the version they came with.
-/

namespace Noah.Common

open Butil Container

/-- `Partition::State`. -/
inductive State
  | kActive
  | kSlowDown
  | kStuck
  | kUnknow
deriving DecidableEq

/-- `common::Partition`. -/
structure Partition where
  id : ℤ
  state : State
  master : Node
  slaves : List Node
deriving DecidableEq

/-- The default constructor: no partition has the id `-1`. -/
def Partition.unknown : Partition := ⟨-1, .kUnknow, default, []⟩

def State.ofStatus : PStatus → State
  | .active => .kActive
  | .slowdown => .kSlowDown
  | .stuck => .kStuck
  | .unrecognized _ => .kUnknow

/-- `Partition(const meta::Partition&)`: an absent master is the empty node. -/
def Partition.ofMessage (p : Noah.Partition) : Partition :=
  ⟨p.id, .ofStatus p.status, p.getMaster, p.slaves⟩

/-- `common::Table`. -/
structure Table where
  tableName : Bytes
  version : ℤ
  capacity : ℤ
  partitionNum : ℕ
  partitions : OrderedMap ℤ Partition
deriving DecidableEq

/-- `Table(const meta::Table&)`: of two partitions with one id the first is kept. -/
def Table.ofMessage (t : Noah.Table) : Table where
  tableName := t.name
  version := t.version
  capacity := t.capacity
  partitionNum := t.partitions.length
  partitions := t.partitions.foldl (fun m p => m.emplace p.id (.ofMessage p)) ∅

def Table.getPartitionById (t : Table) (id : ℤ) : Option Partition := t.partitions.find? id

abbrev TableMap := UnorderedMap Bytes Table

/-- `common::MetaInfo`: the version, the tables and the nodes of the last pull. -/
structure MetaInfo where
  version : VersionInfo
  tableInfo : TableMap
  nodes : List NodeStatus
deriving DecidableEq

/-- A view before the first pull. -/
def MetaInfo.empty : MetaInfo := ⟨⟨-1, -1⟩, ∅, []⟩

end Noah.Common
