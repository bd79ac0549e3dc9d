import Nori.Noah.Meta.ReverseIndex
import Mathlib.Data.List.Count
import Mathlib.Data.List.Range

/-!
# A node comes back

What `UpdatePartNodeMS` does to a state. Its loops carry the index and the flag `change` from
partition to partition and from table to table, but what a partition becomes depends on neither:
it is `Partition.takeBack`.
-/

namespace Noah

open Butil Container List

variable {node other : Node} {name name' : Bytes} {nodes : List Node} {version : ℤ}

/-! ## One partition -/

namespace Partition

/-- The list gives the node the place at an offset. -/
def Places (node : Node) (nodes : List Node) (base j : ℕ) : Prop :=
  node = partNode nodes ((base + j) % nodes.length)

instance (node : Node) (nodes : List Node) (base j : ℕ) :
    Decidable (Places node nodes base j) :=
  inferInstanceAs (Decidable (_ = _))

/-- The effect of one offset on the partition alone. -/
def takeSlot (node : Node) (nodes : List Node) (base : ℕ) (p : Partition) (j : ℕ) : Partition :=
  if Places node nodes base j then (p.failback node j).1 else p

/-- A partition after `UpdatePartNodeMS`: unless it is active, every offset was tried. -/
def takeBack (node : Node) (nodes : List Node) (dupSize base : ℕ) (p : Partition) : Partition :=
  if p.status = .active then p
  else ((range dupSize).foldl (takeSlot node nodes base) p).refreshStatus dupSize

variable {base dupSize : ℕ}

theorem foldl_takeSlot (js : List ℕ) (p : Partition) : js.foldl (takeSlot node nodes base) p =
      (js.filter fun j => Places node nodes base j).foldl (fun p j => (p.failback node j).1) p := by
  induction js generalizing p with
  | nil => rfl
  | cons j js ih =>
    rw [foldl_cons, ih]
    by_cases hj : Places node nodes base j
    · simp only [filter_cons, hj, decide_true, if_true, foldl_cons]
      rw [takeSlot, if_pos hj]
    · simp only [filter_cons, hj, decide_false, Bool.false_eq_true, if_false]
      rw [takeSlot, if_neg hj]

theorem foldl_takeSlot_of_none (h : ∀ j < dupSize, ¬Places node nodes base j) (p : Partition) :
    (range dupSize).foldl (takeSlot node nodes base) p = p := by
  have hnil : (range dupSize).filter (fun j => Places node nodes base j) = [] := by
    rw [filter_eq_nil_iff]
    intro j hj
    simpa using h j (mem_range.mp hj)
  rw [foldl_takeSlot, hnil, foldl_nil]

theorem foldl_takeSlot_of_unique {j : ℕ} (hj : j < dupSize)
    (h : ∀ j' < dupSize, Places node nodes base j' ↔ j' = j) (p : Partition) :
    (range dupSize).foldl (takeSlot node nodes base) p = (p.failback node j).1 := by
  have hsingle : (range dupSize).filter (fun j => Places node nodes base j) = [j] := by
    have hcongr : (range dupSize).filter (fun j' => Places node nodes base j') =
        (range dupSize).filter (· == j) := by
      refine filter_congr fun j' hj' => ?_
      rw [Bool.eq_iff_iff, decide_eq_true_eq, beq_iff_eq]
      exact h j' (mem_range.mp hj')
    rw [hcongr, filter_beq, count_eq_one_of_mem nodup_range (mem_range.mpr hj)]
    rfl
  rw [foldl_takeSlot, hsingle, foldl_cons, foldl_nil]

end Partition

theorem failbackSlot_snd (base j : ℕ) (st : Failback × Partition) :
    (failbackSlot node name nodes base st j).2 = st.2.takeSlot node nodes base j := by
  by_cases h : Partition.Places node nodes base j
  · rw [Partition.takeSlot, if_pos h, failbackSlot, if_pos (show node = _ from h)]
  · rw [Partition.takeSlot, if_neg h, failbackSlot, if_neg (show ¬node = _ from h)]

theorem foldl_failbackSlot_snd (base : ℕ) (js : List ℕ) (st : Failback × Partition) :
    (js.foldl (failbackSlot node name nodes base) st).2 =
      js.foldl (Partition.takeSlot node nodes base) st.2 := by
  induction js generalizing st with
  | nil => rfl
  | cons j js ih => rw [foldl_cons, ih, failbackSlot_snd, foldl_cons]

variable (start dupSize i : ℕ) (st : Failback × ℤ) (ps : List Partition)

theorem failbackPartition_snd (p : Partition) :
    (failbackPartition node name nodes start dupSize version i st p).2 =
      p.takeBack node nodes dupSize (start + i) := by
  unfold failbackPartition Partition.takeBack
  split
  · rfl
  · simp only [foldl_failbackSlot_snd]

/-! ## One table -/

/-- The partitions of a table after `UpdatePartNodeMS`. -/
def Table.takeBack (node : Node) (nodes : List Node) (name : Bytes) (table : Table) :
    List Partition :=
  table.partitions.mapIdx fun i => Partition.takeBack node nodes (sizeT table.duplicateNum)
    ((Butil.hash name).toNat % nodes.length + i)

theorem failbackPartitions_snd :
    (failbackPartitions node name nodes start dupSize version i st ps).2 =
      ps.mapIdx fun k => Partition.takeBack node nodes dupSize (start + (i + k)) := by
  induction ps generalizing i st with
  | nil => rfl
  | cons p ps ih =>
    rw [failbackPartitions, mapIdx_cons, ih, failbackPartition_snd]
    simp only [Nat.add_zero, Nat.add_assoc, Nat.add_comm 1]

theorem failbackPartitions_version :
    (failbackPartitions node name nodes start dupSize version i st ps).1.2 = st.2 ∨
      (failbackPartitions node name nodes start dupSize version i st ps).1.2 = version := by
  induction ps generalizing i st with
  | nil => exact .inl rfl
  | cons p ps ih =>
    rw [failbackPartitions]
    -- what the later partitions leave is what this one set, or the global version
    rcases ih (i + 1) (failbackPartition node name nodes start dupSize version i st p).1 with h | h
    · simp only [h]
      unfold failbackPartition
      split
      · exact .inl rfl
      · simp only
        split
        · exact .inr rfl
        · exact .inl rfl
    · exact .inr h

/-- What `UpdatePartNodeMS` makes of a table. -/
structure TakenBack (node : Node) (nodes : List Node) (version : ℤ) (name : Bytes)
    (table table' : Table) : Prop where
  name_eq : table'.name = table.name
  duplicateNum_eq : table'.duplicateNum = table.duplicateNum
  capacity_eq : table'.capacity = table.capacity
  partitions_eq : table'.partitions = table.takeBack node nodes name
  version_eq : table'.version = table.version ∨ table'.version = version

theorem failbackTable_spec (fb : Failback) (table : Table) : TakenBack node nodes version name table
      (failbackTable node version nodes fb name table).2 where
  name_eq := rfl
  duplicateNum_eq := rfl
  capacity_eq := rfl
  partitions_eq := by
    simp only [failbackTable, Table.takeBack, failbackPartitions_snd, Nat.zero_add]
  version_eq := failbackPartitions_version _ _ _ _ _

/-! ## The index -/

theorem mem_tablesOf_foldl_failbackSlot (base : ℕ) (js : List ℕ) (st : Failback × Partition) :
    name' ∈ tablesOf (js.foldl (failbackSlot node name nodes base) st).1.nodeTable other ↔
      name' ∈ tablesOf st.1.nodeTable other ∨ (js ≠ [] ∧ other = node ∧ name' = name) := by
  induction js generalizing st with
  | nil => simp
  | cons j js ih =>
    rw [foldl_cons, ih]
    simp only [failbackSlot, mem_tablesOf_updateNodeTable]
    tauto

theorem mem_tablesOf_failbackPartitions :
    name' ∈ tablesOf (failbackPartitions node name nodes start dupSize version i st
        ps).1.1.nodeTable other ↔
      name' ∈ tablesOf st.1.nodeTable other ∨
        ((∃ p ∈ ps, p.status ≠ .active) ∧ 0 < dupSize ∧ other = node ∧ name' = name) := by
  induction ps generalizing i st with
  | nil => simp [failbackPartitions]
  | cons p ps ih =>
    rw [failbackPartitions, ih]
    unfold failbackPartition
    by_cases hactive : p.status = .active
    · simp [hactive]
    -- one offset is enough: the body updates the index whatever the comparison says
    · have hrange : range dupSize ≠ [] ↔ 0 < dupSize := by
        rw [Ne, range_eq_nil, Nat.pos_iff_ne_zero]
      simp only [hactive, if_false, mem_tablesOf_foldl_failbackSlot, hrange,
        exists_mem_cons_iff, ne_eq, not_false_eq_true, true_or, true_and]
      tauto

/-! ## The whole state -/

theorem nodeArray_eq (nodes : NodeInfoMap) :
    nodeArray nodes = nodes.keys.map fun key => string2Node key default := by
  rw [nodeArray, AList.keys, keys, map_map]
  rfl

namespace MetaInfo

variable {s : MetaInfo}

@[simp] theorem nodeArray_stamp (clock : Clock) :
    nodeArray (s.stamp clock node).nodes = nodeArray s.nodes := by
  rw [nodeArray_eq, nodeArray_eq, stamp, AList.keys_replace]

/-- The tables after `UpdatePartNodeMS`. -/
theorem lookup_updatePartNodeMS (s : MetaInfo) (node : Node) (name : Bytes) : ∃ f : Table → Table,
      (∀ table, TakenBack node (nodeArray s.nodes) s.version.version name table (f table)) ∧
      (s.updatePartNodeMS node).tableInfo.lookup name = (s.tableInfo.lookup name).map f := by
  -- the flag a table is reached with depends on the order, so it stays existential
  obtain ⟨fb, h⟩ := UnorderedMap.lookup_traverse
    (failbackTable node s.version.version (nodeArray s.nodes)) ⟨false, s.nodeTable⟩
    s.tableInfo name
  exact ⟨_, fun table => failbackTable_spec fb table, h⟩

/-- The index keeps what it listed, and lists every table with an inactive partition for the
node. -/
theorem mem_tablesOf_updatePartNodeMS_iff :
    name ∈ tablesOf (s.updatePartNodeMS node).nodeTable other ↔
      name ∈ tablesOf s.nodeTable other ∨ (other = node ∧ ∃ table,
        s.tableInfo.lookup name = some table ∧ (∃ p ∈ table.partitions, p.status ≠ .active) ∧
        0 < sizeT table.duplicateNum) := by
  refine (UnorderedMap.traverse_state_iff
    (P := fun fb : Failback => name ∈ tablesOf fb.nodeTable other)
    (f := failbackTable node s.version.version (nodeArray s.nodes))
    (fun _ _ _ => mem_tablesOf_failbackPartitions _ _ _ _ _) _ s.tableInfo).trans ?_
  refine or_congr_right ⟨?_, ?_⟩
  · rintro ⟨_, table, htable, hinactive, hdup, hother, rfl⟩
    exact ⟨hother, table, htable, hinactive, hdup⟩
  · rintro ⟨hother, table, htable, hinactive, hdup⟩
    exact ⟨name, table, htable, hinactive, hdup, hother, rfl⟩

theorem mem_tablesOf_updatePartNodeMS (h : name ∈ tablesOf s.nodeTable other) :
    name ∈ tablesOf (s.updatePartNodeMS node).nodeTable other :=
  mem_tablesOf_updatePartNodeMS_iff.mpr (.inl h)

theorem mem_tablesOf_updatePartNodeMS_self {table : Table}
    (htable : s.tableInfo.lookup name = some table)
    (hinactive : ∃ p ∈ table.partitions, p.status ≠ .active)
    (hdup : 0 < sizeT table.duplicateNum) :
    name ∈ tablesOf (s.updatePartNodeMS node).nodeTable node :=
  mem_tablesOf_updatePartNodeMS_iff.mpr (.inr ⟨rfl, table, htable, hinactive, hdup⟩)

end MetaInfo

end Noah
