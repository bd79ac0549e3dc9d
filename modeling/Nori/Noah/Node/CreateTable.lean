import Nori.Noah.Meta.Info
import Mathlib.Data.List.Range
import Mathlib.Data.List.GetD
import Mathlib.Data.Int.CardIntervalMod

/-!
# The tables a node server creates

`NodeServer::CreateTable` lays the replicas of a table out round robin over the node list of its
last pull: replica `j` of partition `i` goes to the node `i + j` places after the one the name of
the table hashes to.
-/

namespace Noah

open Butil List

/-- `struct TableInfo`. -/
structure TableInfo where
  tableName : Bytes
  partitionNum : ℤ
  duplicateNum : ℤ
  capacity : ℤ

def kMinDuplicateNumber : ℤ := 1
def kMaxDuplicateNumber : ℤ := 5

/-- The clamps of `CreateTable(request)` on the number of replicas, with the number of nodes. -/
def clampDuplicateNum (nodeNum : ℕ) (duplicateNum : ℤ) : ℤ :=
  let d := if duplicateNum < kMinDuplicateNumber then kMinDuplicateNumber else duplicateNum
  let d := if kMaxDuplicateNumber < d then kMaxDuplicateNumber else d
  if (nodeNum : ℤ) < d then nodeNum else d

theorem clampDuplicateNum_le (nodeNum : ℕ) (d : ℤ) : clampDuplicateNum nodeNum d ≤ nodeNum := by
  unfold clampDuplicateNum
  simp only
  split <;> omega

theorem clampDuplicateNum_le_max (nodeNum : ℕ) (d : ℤ) :
    clampDuplicateNum nodeNum d ≤ kMaxDuplicateNumber := by
  unfold clampDuplicateNum kMinDuplicateNumber kMaxDuplicateNumber
  simp only
  split <;> split <;> omega

theorem clampDuplicateNum_pos {nodeNum : ℕ} (h : 0 < nodeNum) (d : ℤ) :
    0 < clampDuplicateNum nodeNum d := by
  unfold clampDuplicateNum kMinDuplicateNumber kMaxDuplicateNumber
  simp only
  split <;> split <;> split <;> omega

/-- The node `j` places after a base, around the list. -/
def placedAt (nodes : List Node) (base j : ℕ) : Node :=
  nodes.getD ((base + j) % nodes.length) default

/-- The loop over the replicas of a partition: the first is the master. -/
def buildPartition (nodes : List Node) (start duplicateNum i : ℕ) : Partition :=
  (range duplicateNum).foldl (fun p j =>
    if j = 0 then { p with master := some (placedAt nodes (start + i) j) }
    else { p with slaves := p.slaves ++ [placedAt nodes (start + i) j] })
    -- active from the start, whether or not the nodes are up
    ⟨i, .active, none, []⟩

/-- The table `CreateTable(info, table_info)` asks the meta server for, with sums of any size. -/
def buildTable (nodes : List Node) (info : TableInfo) : Table where
  name := info.tableName
  partitions := (range info.partitionNum.toNat).map
    (buildPartition nodes ((Butil.hash info.tableName).toNat % nodes.length)
      info.duplicateNum.toNat)
  duplicateNum := info.duplicateNum
  capacity := info.capacity
  version := 0

def startIndex (nodes : List Node) (tableName : Bytes) : ℕ :=
  (Butil.hash tableName).toNat % nodes.length

/-- The sum of two `int`s that are not negative; there is none if it overflows. -/
def intAdd (x y : ℕ) : Option ℕ := if x + y < 2 ^ 31 then some (x + y) else none

/-- `(start_index + i + j) % nodes.size()` -/
def nodeId (size start i j : ℕ) : Option ℕ := do
  let sum ← intAdd start i
  let sum ← intAdd sum j
  return sum % size

/-- `buildPartition`, with sums of `int`s. -/
def createPartition (nodes : List Node) (start duplicateNum i : ℕ) : Option Partition :=
  (range duplicateNum).foldlM (fun p j => do
    let k ← nodeId nodes.length start i j
    return if j = 0 then { p with master := some (nodes.getD k default) }
      else { p with slaves := p.slaves ++ [nodes.getD k default] }) ⟨i, .active, none, []⟩

/-- The table `CreateTable(info, table_info)` asks the meta server for, if no sum overflows. -/
def NodeServer.createTable (nodes : List Node) (info : TableInfo) : Option Table := do
  let partitions ← (range info.partitionNum.toNat).mapM
    (createPartition nodes (startIndex nodes info.tableName) info.duplicateNum.toNat)
  return { buildTable nodes info with partitions }

/-- The node where the sum wraps around; it becomes unsigned with `size()`. -/
def wrappedNodeId (size start i j : ℕ) : ℕ :=
  ((BitVec.ofNat 32 (start + i + j)).signExtend 64).toNat % size

def wrappedReplicas (nodes : List Node) (start duplicateNum i : ℕ) : List Node :=
  (range duplicateNum).map fun j => nodes.getD (wrappedNodeId nodes.length start i j) default

/-- Every partition has a master and as many slaves as it should, on distinct nodes; any two nodes
master as many partitions up to one, and hold as many replicas up to `duplicate_num`. -/
structure Table.Balanced (nodes : List Node) (table : Table) : Prop where
  replicas : ∀ p ∈ table.partitions, p.master.isSome ∧ p.slaves.length + 1 = table.duplicateNum ∧
    p.replicas.Nodup
  masters : ∀ a ∈ nodes, ∀ b ∈ nodes, (table.partitions.map Partition.master).count (some a) ≤
    (table.partitions.map Partition.master).count (some b) + 1
  held : ∀ a ∈ nodes, ∀ b ∈ nodes, ((table.partitions.flatMap Partition.replicas).count a : ℤ) ≤
    (table.partitions.flatMap Partition.replicas).count b + table.duplicateNum

section

variable {nodes : List Node} {start d i : ℕ}

theorem buildPartition_succ (nodes : List Node) (start d i : ℕ) :
    buildPartition nodes start (d + 1) i = ⟨i, .active, some (placedAt nodes (start + i) 0),
        (range d).map fun j => placedAt nodes (start + i) (j + 1)⟩ := by
  -- the induction is on the number of slaves
  unfold buildPartition
  induction d with
  | zero => rfl
  | succ d ih =>
    rw [range_succ, foldl_append, ih]
    simp [range_succ]

/-- The replicas of a new partition, in order of their offsets. -/
theorem replicas_buildPartition (hd : 0 < d) : (buildPartition nodes start d i).replicas =
      (range d).map (placedAt nodes (start + i)) := by
  obtain ⟨d, rfl⟩ := Nat.exists_eq_add_of_lt hd
  rw [zero_add, buildPartition_succ, Partition.replicas, range_succ_eq_map, map_cons, map_map]
  rfl

theorem placedAt_injOn (hnodup : nodes.Nodup) {base j k : ℕ} (hj : j < nodes.length)
    (hk : k < nodes.length) (h : placedAt nodes base j = placedAt nodes base k) : j = k := by
  have hpos : 0 < nodes.length := by omega
  have hlt (m : ℕ) : m % nodes.length < nodes.length := Nat.mod_lt m hpos
  unfold placedAt at h
  rw [getD_eq_getElem _ _ (hlt _), getD_eq_getElem _ _ (hlt _)] at h
  -- distinct nodes: equal entries stand at equal positions
  have hmod : (base + j) % nodes.length = (base + k) % nodes.length :=
    (Nodup.getElem_inj_iff hnodup).mp h
  exact Nat.ModEq.eq_of_lt_of_lt (Nat.ModEq.add_left_cancel' base hmod) hj hk

theorem nodup_map_placedAt (base : ℕ) (hnodup : nodes.Nodup) (hle : d ≤ nodes.length) :
    ((range d).map (placedAt nodes base)).Nodup := by
  refine Nodup.map_on ?_ nodup_range
  intro j hj k hk h
  rw [mem_range] at hj hk
  exact placedAt_injOn hnodup (hj.trans_le hle) (hk.trans_le hle) h

theorem nodup_replicas_buildPartition (hnodup : nodes.Nodup) (hd : 0 < d)
    (hle : d ≤ nodes.length) : (buildPartition nodes start d i).replicas.Nodup := by
  rw [replicas_buildPartition hd]
  exact nodup_map_placedAt (start + i) hnodup hle

theorem placedAt_eq_getElem_iff (hnodup : nodes.Nodup) {k base j : ℕ} (hk : k < nodes.length) :
    placedAt nodes base j = nodes[k] ↔ (base + j) % nodes.length = k := by
  have hlt : (base + j) % nodes.length < nodes.length := Nat.mod_lt _ (by omega)
  rw [placedAt, getD_eq_getElem _ _ hlt]
  exact hnodup.getElem_inj_iff

/-- The nodes take turns at one replica of every partition. -/
theorem count_map_placedAt (hnodup : nodes.Nodup) {node : Node} (hnode : node ∈ nodes)
    (start j N : ℕ) :
    let placed := (range N).map fun i => placedAt nodes (start + i) j
    N / nodes.length ≤ placed.count node ∧ placed.count node ≤ N / nodes.length + 1 := by
  obtain ⟨k, hk, rfl⟩ := getElem_of_mem hnode
  let v := k + nodes.length * (start + j) - (start + j)
  have hiff : ∀ i, placedAt nodes (start + i) j = nodes[k] ↔ i ≡ v [MOD nodes.length] := by
    intro i
    have hle : start + j ≤ k + nodes.length * (start + j) :=
      (Nat.le_mul_of_pos_left _ (by omega)).trans (Nat.le_add_left ..)
    have hshift : i + (start + j) ≡ v + (start + j) [MOD nodes.length] ↔
        (start + i + j) % nodes.length = k := by
      rw [Nat.sub_add_cancel hle, Nat.ModEq, Nat.add_mul_mod_self_left, Nat.mod_eq_of_lt hk,
        ← add_assoc, add_comm i]
    rw [placedAt_eq_getElem_iff hnodup hk, ← hshift]
    exact ⟨Nat.ModEq.add_right_cancel' _, Nat.ModEq.add_right _⟩
  have hcount := Nat.count_modEq_card N (r := nodes.length) (by omega) v
  simp only [Nat.count, ← hiff] at hcount
  simp only [count, countP_map, Function.comp_def, BEq.beq, hcount]
  split_ifs <;> omega

theorem count_flatMap_placedAt (hnodup : nodes.Nodup) {node : Node} (hnode : node ∈ nodes)
    (start N d : ℕ) :
    let placed := (range N).flatMap fun i => (range d).map (placedAt nodes (start + i))
    d * (N / nodes.length) ≤ placed.count node ∧
      placed.count node ≤ d * (N / nodes.length) + d := by
  -- the induction is on the number of replicas
  induction d with
  | zero => simp [count_flatMap, Function.comp_def]
  | succ d ih =>
    obtain ⟨hle, hge⟩ := count_map_placedAt hnodup hnode start d N
    have hperm := (flatMap_append_perm (range N)
      (fun i => (range d).map (placedAt nodes (start + i)))
      (fun i => [placedAt nodes (start + i) d])).count_eq node
    rw [count_append, ← map_eq_flatMap] at hperm
    simp only [range_succ, map_append, map_singleton, ← hperm, add_mul] at *
    omega

/-- The nodes share the table that is laid out: the replicas of a partition are distinct, any two
nodes master as many partitions up to one, and hold as many replicas up to `duplicate_num`. -/
theorem balanced_buildTable (hnodup : nodes.Nodup) {info : TableInfo}
    (hd : 0 < info.duplicateNum) (hle : info.duplicateNum ≤ nodes.length) :
    (buildTable nodes info).Balanced nodes := by
  obtain ⟨name, partitionNum, duplicateNum, capacity⟩ := info
  dsimp only at hd hle
  obtain ⟨e, rfl⟩ : ∃ e : ℕ, duplicateNum = (e + 1 : ℕ) := ⟨(duplicateNum - 1).toNat, by omega⟩
  have hbuilt : (buildTable nodes ⟨name, partitionNum, (e + 1 : ℕ), capacity⟩).partitions =
    (range partitionNum.toNat).map (buildPartition nodes (startIndex nodes name) (e + 1)) := rfl
  generalize startIndex nodes name = start at hbuilt
  refine ⟨fun p hp => ?_, fun a ha b hb => ?_, fun a ha b hb => ?_⟩
  all_goals rw [hbuilt] at *
  · obtain ⟨i, hi, rfl⟩ := mem_map.mp hp
    exact ⟨by simp [buildPartition_succ], by simp [buildPartition_succ, buildTable],
      nodup_replicas_buildPartition hnodup e.succ_pos (by omega)⟩
  · simp only [map_map, Function.comp_def, buildPartition_succ]
    obtain ⟨-, ha⟩ := count_map_placedAt hnodup ha start 0 partitionNum.toNat
    obtain ⟨hb, -⟩ := count_map_placedAt hnodup hb start 0 partitionNum.toNat
    rw [← count_map_of_injective _ _ (Option.some_injective _), map_map] at ha hb
    exact ha.trans (Nat.succ_le_succ hb)
  · simp only [flatMap_map, replicas_buildPartition e.succ_pos]
    obtain ⟨-, ha⟩ := count_flatMap_placedAt hnodup ha start partitionNum.toNat (e + 1)
    obtain ⟨hb, -⟩ := count_flatMap_placedAt hnodup hb start partitionNum.toNat (e + 1)
    exact Int.ofNat_le.mpr (ha.trans (Nat.add_le_add_right hb _))

/-! ## The sums -/

theorem foldlM_ite {α β : Type} {g : β → α → β} {Q : α → Prop} [DecidablePred Q] (xs : List α)
    (b : β) : (xs.foldlM (fun b a => if Q a then some (g b a) else none) b) =
      if ∀ a ∈ xs, Q a then some (xs.foldl g b) else none := by
  induction xs generalizing b with
  | nil => simp
  | cons a xs ih => by_cases hQ : Q a <;> simp [hQ, ih]

theorem mapM_ite {α β : Type} {g : α → β} {Q : α → Prop} [DecidablePred Q] (xs : List α) :
    (xs.mapM fun a => if Q a then some (g a) else none) =
      if ∀ a ∈ xs, Q a then some (xs.map g) else none := by
  induction xs with
  | nil => simp
  | cons a xs ih =>
    rw [mapM_cons, ih]
    simp only [forall_mem_cons]
    by_cases hQ : Q a
    · by_cases hxs : ∀ a ∈ xs, Q a
      · rw [if_pos hQ, if_pos hxs, if_pos ⟨hQ, hxs⟩]
        rfl
      · rw [if_pos hQ, if_neg hxs, if_neg fun h => hxs h.2]
        rfl
    · have hnot : ¬ (Q a ∧ ∀ a ∈ xs, Q a) := fun h => hQ h.1
      rw [if_neg hQ, if_neg hnot]
      rfl

theorem nodeId_eq (size start i j : ℕ) : nodeId size start i j =
    if start + i + j < 2 ^ 31 then some ((start + i + j) % size) else none := by
  unfold nodeId intAdd
  by_cases hi : start + i < 2 ^ 31
  · rw [if_pos hi, Option.bind_eq_bind, Option.bind_some]
    split_ifs <;> rfl
  · rw [if_neg hi, if_neg (by omega)]
    rfl

theorem createPartition_eq (nodes : List Node) (start d i : ℕ) : createPartition nodes start d i =
    if ∀ j ∈ range d, start + i + j < 2 ^ 31 then some (buildPartition nodes start d i)
    else none := by
  rw [buildPartition, ← foldlM_ite]
  unfold createPartition
  congr 1
  funext p j
  rw [nodeId_eq]
  split_ifs <;> rfl

theorem createTable_eq (nodes : List Node) (info : TableInfo) : NodeServer.createTable nodes info =
    if ∀ i ∈ range info.partitionNum.toNat, ∀ j ∈ range info.duplicateNum.toNat,
      startIndex nodes info.tableName + i + j < 2 ^ 31 then some (buildTable nodes info)
    else none := by
  have hpartition := funext
    (createPartition_eq nodes (startIndex nodes info.tableName) info.duplicateNum.toNat)
  rw [NodeServer.createTable, hpartition, mapM_ite]
  split_ifs <;> rfl

/-- The last sum is the largest. -/
theorem sums_fit_iff {start d : ℕ} {partitionNum : ℤ} (hd : 0 < d) :
    (∀ i ∈ range partitionNum.toNat, ∀ j ∈ range d, start + i + j < 2 ^ 31) ↔
      partitionNum ≤ 0 ∨ start + partitionNum + d ≤ 2 ^ 31 + 1 := by
  simp only [mem_range]
  refine ⟨fun h => ?_, fun h i hi j hj => by omega⟩
  by_contra hnot
  have := h (partitionNum.toNat - 1) (by omega) (d - 1) (by omega)
  omega

end

def Sample.sevenNodes : List Node := (range 7).map fun k => ⟨bytes "h", .ofNat k⟩

end Noah
