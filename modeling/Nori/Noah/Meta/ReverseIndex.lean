import Nori.Noah.Meta.Info

/-!
# The reverse index

What the helpers on `node_table_` do to the set of tables listed for a node. Distinct nodes have
distinct keys, so a helper called for one node never touches the entry of another.
-/

namespace Noah

open Butil Container List

/-- The index is complete: every table is listed for each of its replicas. -/
def MetaInfo.Indexed (s : MetaInfo) : Prop :=
  ∀ name table, s.tableInfo.lookup name = some table →
    ∀ p ∈ table.partitions, ∀ n ∈ p.replicas, name ∈ tablesOf s.nodeTable n

theorem MetaInfo.indexed_of_entries {s : MetaInfo} (h : ∀ e ∈ s.tableInfo.entries,
    ∀ p ∈ e.2.partitions, ∀ n ∈ p.replicas, e.1 ∈ tablesOf s.nodeTable n) : s.Indexed := by
  intro name table htable
  exact h ⟨name, table⟩ (UnorderedMap.mem_entries_of_lookup htable)

variable {nodeTable : NodeTableMap} {node other : Node} {name name' : Bytes} {table : Table}

/-- Every node `SetNodeTable` and `DropNodeTable` visit in a table. -/
def Table.visited (table : Table) : List Node := table.partitions.flatMap Partition.visited

theorem lookup_updateNodeTable (key : Bytes) : (updateNodeTable node name nodeTable).lookup key =
      if key = node2String node then some ((tablesOf nodeTable node).insert name)
      else nodeTable.lookup key := by
  unfold updateNodeTable tablesOf
  cases h : nodeTable.lookup (node2String node) with
  -- `operator[]` on a known key changes its set in place, on a new one it makes an entry
  | some tables =>
    rw [UnorderedMap.lookup_replace]
    by_cases hk : key = node2String node
    · subst hk
      simp [h]
    · simp [hk]
  | none =>
    by_cases hk : key = node2String node
    · subst hk
      simp
    · simp [hk, AList.lookup_insert_ne hk]

theorem mem_tablesOf_updateNodeTable :
    name' ∈ tablesOf (updateNodeTable node name nodeTable) other ↔
      name' ∈ tablesOf nodeTable other ∨ (other = node ∧ name' = name) := by
  rw [tablesOf, lookup_updateNodeTable]
  by_cases h : other = node
  · subst h
    simp [or_comm]
  · simp [h, tablesOf]

theorem mem_tablesOf_clearNodeTable : name' ∈ tablesOf (clearNodeTable node name nodeTable) other ↔
      name' ∈ tablesOf nodeTable other ∧ ¬(other = node ∧ name' = name) := by
  rw [tablesOf, clearNodeTable, UnorderedMap.lookup_modify]
  by_cases h : other = node
  · subst h
    cases hl : nodeTable.lookup (node2String other) <;> simp [tablesOf, hl]
  · simp [h, tablesOf]

theorem tablesOf_erase : tablesOf (nodeTable.erase (node2String node)) other =
      if other = node then ∅ else tablesOf nodeTable other := by
  rw [tablesOf, UnorderedMap.lookup_erase_eq]
  by_cases h : other = node <;> simp [h, tablesOf]

/-! ## Whole tables -/

theorem setNodeTable_eq (table : Table) (nodeTable : NodeTableMap) : setNodeTable table nodeTable =
      table.visited.foldl (fun nt n => updateNodeTable n table.name nt) nodeTable := by
  rw [setNodeTable, Table.visited, foldl_flatMap]

theorem dropNodeTable_eq (table : Table) (nodeTable : NodeTableMap) :
    dropNodeTable table nodeTable =
      table.visited.foldl (fun nt n => clearNodeTable n table.name nt) nodeTable := by
  rw [dropNodeTable, Table.visited, foldl_flatMap]

theorem mem_tablesOf_setNodeTable : name ∈ tablesOf (setNodeTable table nodeTable) node ↔
      name ∈ tablesOf nodeTable node ∨ (node ∈ table.visited ∧ name = table.name) := by
  rw [setNodeTable_eq]
  induction table.visited generalizing nodeTable with
  | nil => simp
  | cons n ns ih =>
    rw [foldl_cons, ih, mem_tablesOf_updateNodeTable, mem_cons]
    tauto

theorem mem_tablesOf_dropNodeTable : name ∈ tablesOf (dropNodeTable table nodeTable) node ↔
      name ∈ tablesOf nodeTable node ∧ ¬(node ∈ table.visited ∧ name = table.name) := by
  rw [dropNodeTable_eq]
  induction table.visited generalizing nodeTable with
  | nil => simp
  | cons n ns ih =>
    rw [foldl_cons, ih, mem_tablesOf_clearNodeTable, mem_cons]
    tauto

theorem Partition.mem_visited_of_mem_replicas {p : Partition} (h : node ∈ p.replicas) :
    node ∈ p.visited := by
  rw [Partition.visited, mem_cons]
  rcases Partition.mem_replicas.mp h with hm | hs
  · exact .inl (by simp [Partition.getMaster, hm])
  · exact .inr hs

end Noah
