import Nori.Container.UnorderedMap
import Nori.Container.OrderedMap
import Nori.Butil.Strings
import Mathlib.Data.Prod.Lex

/-!
# The entities of noah

The messages of `meta.proto` and the value types of `common/entity.h`. An enumeration field of
proto3 is open, so a status or role read from the wire may also carry a number the enumeration
does not name. A message field that is absent reads as its default: `Partition.getMaster` is the
empty node when no master is set.
-/

namespace Noah

open Butil

/-! ## Nodes -/

/-- `message Node`, and `noah::common::Node`. -/
structure Node where
  ip : Bytes
  port : Int32

/-- The node an absent message field reads as. -/
instance : Inhabited Node := ⟨⟨[], 0⟩⟩

theorem ipPort_injective : Function.Injective fun n : Node => toLex (n.ip, n.port.toInt) := by
  rintro ⟨ip, port⟩ ⟨ip', port'⟩ h
  obtain ⟨hip, hport⟩ := Prod.mk.inj (toLex.injective h)
  rw [Node.mk.injEq]
  exact ⟨hip, Int32.toInt_inj.mp hport⟩

/-- `node_less`: by ip, then by port. -/
instance : LinearOrder Node := LinearOrder.lift' _ ipPort_injective

instance : LawfulBEq Node := inferInstance

/-- `Node2String`, and `Node::ToString`: `ip:port`. -/
def node2String (node : Node) : Bytes := node.ip ++ 58 :: intToString node.port

/-- `String2Node(ip_and_port, &node)`: a string that is not two fields leaves `node` as it was. -/
def string2Node (ipAndPort : Bytes) (node : Node) : Node :=
  match splitString ipAndPort 58 with
  | [ip, port] => ⟨ip, (stringToInt port).1⟩
  | _ => node

/-- Distinct nodes have distinct keys. -/
theorem node2String_injective : Function.Injective node2String := by
  rintro ⟨ip, port⟩ ⟨ip', port'⟩ h
  obtain ⟨hip, hport⟩ := append_separator_inj (colon_notMem_intToString port)
    (colon_notMem_intToString port') h
  rw [Node.mk.injEq]
  exact ⟨hip, intToString_injective hport⟩

@[simp] theorem node2String_inj {m n : Node} : node2String m = node2String n ↔ m = n :=
  node2String_injective.eq_iff

/-- An ip without a colon, and without whitespace at its ends. -/
structure Node.Proper (node : Node) : Prop where
  colon_notMem : (58 : UInt8) ∉ node.ip
  head_eq : node.ip.head?.any isWhitespace = false
  last_eq : node.ip.getLast?.any isWhitespace = false

/-- The key of a proper address reads back. -/
theorem string2Node_node2String {node : Node} (h : node.Proper) (other : Node) :
    string2Node (node2String node) other = node := by
  have hsplit : splitString (node2String node) 58 = [node.ip, intToString node.port] := by
    rw [node2String, splitString_two h.colon_notMem (colon_notMem_intToString _),
      trimWhitespace_eq_self h.head_eq h.last_eq, trimWhitespace_intToString]
  simp only [string2Node, hsplit, stringToInt_intToString]

/-! ## Tables -/

/-- `enum PStatus`. -/
inductive PStatus
  | active
  | slowdown
  | stuck
  | unrecognized (value : Int32)
deriving DecidableEq

/-- `enum NodeState`. -/
inductive NodeState
  | up
  | down
deriving DecidableEq

/-- `enum Role`. -/
inductive Role
  | master
  | slave
  | unrecognized (value : Int32)
deriving DecidableEq

/-- `message Partition`. -/
structure Partition where
  id : ℤ
  status : PStatus
  master : Option Node
  slaves : List Node
deriving DecidableEq

namespace Partition

/-- `partition.master()`: the empty node when no master is set. -/
def getMaster (p : Partition) : Node := p.master.getD default

/-- The replicas of a partition: its master and its slaves. -/
def replicas (p : Partition) : List Node := p.master.toList ++ p.slaves

theorem mem_replicas {p : Partition} {n : Node} :
    n ∈ p.replicas ↔ p.master = some n ∨ n ∈ p.slaves := by
  cases hm : p.master <;> simp [replicas, hm, eq_comm]

end Partition

/-- `message Table`. -/
structure Table where
  name : Bytes
  partitions : List Partition
  duplicateNum : ℤ
  capacity : ℤ
  version : ℤ
deriving DecidableEq

/-- `message NodeStatus`. -/
structure NodeStatus where
  node : Node
  status : NodeState
deriving DecidableEq

/-- `message Version`, and the `VersionInfo` of the meta server, of nodes and of clients. -/
structure VersionInfo where
  epoch : ℤ
  version : ℤ
deriving DecidableEq

/-- Neither counter is larger. -/
instance : PartialOrder VersionInfo where
  le v w := v.epoch ≤ w.epoch ∧ v.version ≤ w.version
  le_refl v := ⟨le_rfl, le_rfl⟩
  le_trans u v w h h' := ⟨h.1.trans h'.1, h.2.trans h'.2⟩
  le_antisymm v w h h' := by
    cases v
    cases w
    rw [VersionInfo.mk.injEq]
    exact ⟨le_antisymm h.1 h'.1, le_antisymm h.2 h'.2⟩

/-! ## Migration -/

/-- `struct MigrateTask` with its `PartitionNode`: the partition to copy, and the failed node with
the role it had. -/
structure MigrateTask where
  tableName : Bytes
  partitionId : ℤ
  faultNode : Node
  role : Role
deriving DecidableEq

/-- `struct Processor`, and `message MigrateUnit`: a task with its source and destination. -/
structure Processor where
  task : MigrateTask
  src : Node
  dst : Node
deriving DecidableEq

end Noah
