import Nori.Noah.Meta.Index

/-!
# Replicas of the log

Two replicas apply the same committed requests, each with its own clock and its own iteration
orders, and a replica may start from a snapshot of another. They agree on the counters, on the
placement and on which nodes are up, as long as a node that fails back stands at the same positions
of `nodes_` on both. The order of a hash map is nothing a replica can know of another one, so two
replicas may fail the same node back into different places.

The version of a single table is left out: `UpdatePartNodeMS` carries a flag from one table to the
next, so that it depends on the iteration order of `table_info_` as well.
-/

namespace Noah

open Butil Container Transition NodeInfo MetaInfo MetaServer List UnorderedMap Option AList

variable {s s' t t' : MetaInfo} {node : Node} {name : Bytes}

/-! ## What replicas agree on -/

namespace MetaInfo

/-- A table as placed, whatever its version. -/
def placement (s : MetaInfo) (name : Bytes) : Option Table :=
  (s.tableInfo.lookup name).map fun table => { table with version := 0 }

/-- The state of the node of a key. -/
def stateOf (s : MetaInfo) (key : Bytes) : Option NodeState :=
  (s.nodes.lookup key).map NodeInfo.state

end MetaInfo

/-- Two states of replicas. Their indexes need to be alike only where they matter: where the node
is a replica, and not the empty node, which an index may list for an absent master. -/
structure Agree (s s' : MetaInfo) : Prop where
  version_eq : s.version = s'.version
  placement_eq : ∀ name, s.placement name = s'.placement name
  state_eq : ∀ key, s.stateOf key = s'.stateOf key
  index_iff : ∀ name table, s.tableInfo.lookup name = some table → ∀ p ∈ table.partitions,
    ∀ n ∈ p.replicas, n ≠ default → (name ∈ tablesOf s.nodeTable n ↔ name ∈ tablesOf s'.nodeTable n)

namespace Agree

theorem refl (s : MetaInfo) : Agree s s :=
  ⟨rfl, fun _ => rfl, fun _ => rfl, fun _ _ _ _ _ _ _ _ => .rfl⟩

theorem lookup_some (h : Agree s s') {table : Table}
    (htable : s.tableInfo.lookup name = some table) :
    ∃ v, s'.tableInfo.lookup name = some { table with version := v } := by
  have heq := h.placement_eq name
  rw [placement, htable, placement, map_some] at heq
  obtain ⟨table', htable', hplaced⟩ := map_eq_some_iff.mp heq.symm
  simp only [Table.mk.injEq] at hplaced
  obtain ⟨hname, hpartitions, hdup, hcapacity, -⟩ := hplaced
  refine ⟨table'.version, ?_⟩
  rw [htable', ← hname, ← hpartitions, ← hdup, ← hcapacity]

theorem lookup_none (h : Agree s s') (htable : s.tableInfo.lookup name = none) :
    s'.tableInfo.lookup name = none := by
  have heq := h.placement_eq name
  rw [placement, htable, map_none] at heq
  exact map_eq_none_iff.mp heq.symm

theorem symm (h : Agree s s') : Agree s' s where
  version_eq := h.version_eq.symm
  placement_eq name := (h.placement_eq name).symm
  state_eq key := (h.state_eq key).symm
  index_iff name table htable p hp n hn hne := by
    cases hlookup : s.tableInfo.lookup name with
    | none =>
      rw [h.lookup_none hlookup] at htable
      cases htable
    | some table₀ =>
      obtain ⟨v, hv⟩ := h.lookup_some hlookup
      rw [hv] at htable
      cases htable
      exact (h.index_iff name table₀ hlookup p hp n hn hne).symm

theorem registeredIn_eq (h : Agree s s') : registeredIn s.nodes = registeredIn s'.nodes := by
  funext node
  have heq := congrArg isSome (h.state_eq (node2String node))
  simpa [stateOf, registeredIn] using heq

theorem length_nodeArray (h : Agree s s') :
    (nodeArray s.nodes).length = (nodeArray s'.nodes).length := by
  have hmem : ∀ key, key ∈ s.nodes.keys ↔ key ∈ s'.nodes.keys := by
    intro key
    have heq := congrArg isSome (h.state_eq key)
    simp only [stateOf, isSome_map] at heq
    rw [← AList.mem_keys, ← AList.mem_keys, ← AList.lookup_isSome, ← AList.lookup_isSome, heq]
  have hperm : s.nodes.keys.Perm s'.nodes.keys :=
    (perm_ext_iff_of_nodup s.nodes.keys_nodup s'.nodes.keys_nodup).mpr hmem
  rw [nodeArray_eq, nodeArray_eq, length_map, length_map, hperm.length_eq]

end Agree

/-! ## Places of a node -/

/-- The positions of a node in the iteration order. -/
def positions (node : Node) (nodes : List Node) : List ℕ :=
  (List.range nodes.length).filter fun k => node = partNode nodes k

theorem mem_positions {nodes : List Node} {k : ℕ} :
    k ∈ positions node nodes ↔ k < nodes.length ∧ node = partNode nodes k := by
  rw [positions, mem_filter, mem_range, decide_eq_true_eq]

section

variable {nodes nodes' : List Node} (hpos : 0 < nodes.length)
  (hlength : nodes.length = nodes'.length)
  (hpositions : positions node nodes = positions node nodes')
include hpos hlength hpositions

theorem Partition.takeBack_congr (dupSize base : ℕ) (p : Partition) :
    p.takeBack node nodes dupSize base = p.takeBack node nodes' dupSize base := by
  have hplaces : ∀ j, Places node nodes base j ↔ Places node nodes' base j := by
    intro j
    -- an offset is a place exactly if the position it wraps to is one of the node's
    have hlt : (base + j) % nodes.length < nodes.length := Nat.mod_lt _ hpos
    have hiff : (base + j) % nodes.length ∈ positions node nodes ↔
        (base + j) % nodes.length ∈ positions node nodes' := by rw [hpositions]
    rw [mem_positions, mem_positions, ← hlength] at hiff
    rw [Places, Places, ← hlength]
    simpa [hlt] using hiff
  have hslot : takeSlot node nodes base = takeSlot node nodes' base := by
    funext p j
    simp only [takeSlot, hplaces]
  rw [takeBack, takeBack, hslot]

theorem Table.takeBack_congr (name : Bytes) (table : Table) :
    table.takeBack node nodes name = table.takeBack node nodes' name := by
  unfold Table.takeBack
  rw [hlength]
  congr 1
  funext i p
  exact Partition.takeBack_congr hpos hlength hpositions _ _ p

end

theorem Table.takeBack_eq_self {nodes : List Node} {table : Table}
    (h : ∀ p ∈ table.partitions, p.status = .active) (name : Bytes) :
    table.takeBack node nodes name = table.partitions := by
  refine ext_getElem (by simp [Table.takeBack]) fun i hi hi' => ?_
  simp only [Table.takeBack, getElem_mapIdx]
  rw [Partition.takeBack, if_pos (h _ (getElem_mem hi'))]

/-! ## A node leaves a partition -/

namespace Partition

variable {p : Partition}

theorem migrateFrom_eq_self (registered : Node → Bool) (hnode : node ≠ default)
    (hmem : node ∉ p.replicas) :
    p.migrateFrom registered node = p ∧ (p.release node).2 = false := by
  have hunchanged := release_of_notMem hnode hmem
  refine ⟨?_, hunchanged⟩
  rw [migrateFrom, hunchanged, if_neg Bool.false_ne_true, release_of_unchanged hunchanged]

end Partition

theorem migrateFromTable_eq_self {nodes : NodeInfoMap} {version : ℤ} {table : Table}
    (hnode : node ≠ default) (hmem : ∀ p ∈ table.partitions, node ∉ p.replicas) :
    migrateFromTable nodes version node table = table := by
  have hmap : table.partitions.map (Partition.migrateFrom (registeredIn nodes) node) =
      table.partitions := by
    conv_rhs => rw [← map_id table.partitions]
    exact map_congr_left fun p hp => (Partition.migrateFrom_eq_self _ hnode (hmem p hp)).1
  have hany : (table.partitions.any fun p => (p.release node).2) = false := by
    rw [List.any_eq_false]
    intro p hp
    simp [(Partition.migrateFrom_eq_self (registeredIn nodes) hnode (hmem p hp)).2]
  simp [migrateFromTable, hmap, hany]

theorem lookup_migrateFromNode_of_notMem {table : Table} (hnode : node ≠ default)
    (htable : s.tableInfo.lookup name = some table)
    (hmem : ∀ p ∈ table.partitions, node ∉ p.replicas) :
    (s.migrateFromNode node).tableInfo.lookup name = some table := by
  rw [lookup_migrateFromNode, htable]
  split
  · rw [map_some, migrateFromTable_eq_self hnode hmem]
  · rfl

/-! ## Operations -/

namespace Agree

theorem bumpEpoch (h : Agree s s') : Agree s.bumpEpoch s'.bumpEpoch := { h with
  version_eq := by simp only [MetaInfo.bumpEpoch, h.version_eq] }

theorem bumpVersion (h : Agree s s') : Agree s.bumpVersion s'.bumpVersion := { h with
  version_eq := by simp only [MetaInfo.bumpVersion, h.version_eq] }

theorem stateOf_stamp (clock : Clock) (key : Bytes) : (s.stamp clock node).stateOf key =
      if key = node2String node then (s.stateOf key).map fun _ => .up else s.stateOf key := by
  rw [stateOf, stamp, lookup_replace]
  split
  · simp [stateOf, state, Function.comp_def, clock.pos.ne']
  · rfl

theorem stamp (clock clock' : Clock) (h : Agree s s') :
    Agree (s.stamp clock node) (s'.stamp clock' node) := { h with
  state_eq key := by
    rw [stateOf_stamp, stateOf_stamp, h.state_eq] }

theorem stateOf_register (env : Env) (key : Bytes) : (s.register env node).stateOf key =
      if key = node2String node then some .up else s.stateOf key := by
  rw [stateOf, register, Arrangement.lookup_run]
  by_cases hkey : key = node2String node
  · subst hkey
    simp [state, env.clock.pos.ne']
  · rw [lookup_insert_ne hkey, if_neg hkey, stateOf]

theorem register (env env' : Env) (h : Agree s s') :
    Agree (s.register env node) (s'.register env' node) := { h with
  state_eq key := by
    rw [stateOf_register, stateOf_register, h.state_eq] }

theorem placement_updatePartNodeMS (s : MetaInfo) (node : Node) (name : Bytes) :
    (s.updatePartNodeMS node).placement name = (s.placement name).map fun table =>
      { table with partitions := table.takeBack node (nodeArray s.nodes) name } := by
  obtain ⟨f, hf, hlookup⟩ := lookup_updatePartNodeMS s node name
  rw [placement, hlookup, placement, Option.map_map, Option.map_map]
  congr 1
  funext table
  simp only [Function.comp_apply, (hf table).name_eq, (hf table).partitions_eq,
    (hf table).duplicateNum_eq, (hf table).capacity_eq]
  rfl

/-- A state in which a failback can do something. -/
def Inactive (s : MetaInfo) : Prop :=
  ∃ name table, s.tableInfo.lookup name = some table ∧ ∃ p ∈ table.partitions, p.status ≠ .active

theorem inactive (h : Agree s s') (hs : Inactive s) : Inactive s' := by
  obtain ⟨name, table, htable, hp⟩ := hs
  obtain ⟨v, hv⟩ := h.lookup_some htable
  exact ⟨name, _, hv, hp⟩

theorem updatePartNodeMS (h : Agree s s') (hpos : 0 < (nodeArray s.nodes).length)
    (hplace : Inactive s →
      positions node (nodeArray s.nodes) = positions node (nodeArray s'.nodes)) :
    Agree (s.updatePartNodeMS node) (s'.updatePartNodeMS node) := { h with
  placement_eq name := by
    rw [placement_updatePartNodeMS, placement_updatePartNodeMS, ← h.placement_eq]
    cases htable : s.tableInfo.lookup name with
    | none => simp [placement, htable]
    | some table =>
      simp only [placement, htable, map_some, some.injEq, Table.mk.injEq, true_and, and_true]
      -- only an inactive partition looks at the order
      by_cases hinactive : ∃ p ∈ table.partitions, p.status ≠ .active
      · exact Table.takeBack_congr hpos h.length_nodeArray
          (hplace ⟨name, table, htable, hinactive⟩) name _
      · have hactive : ∀ p ∈ table.partitions, p.status = .active := by
          intro p hp
          by_contra hne
          exact hinactive ⟨p, hp, hne⟩
        have hself : ∀ nodes, ({ table with version := 0 } : Table).takeBack node nodes name =
            table.partitions := fun nodes => Table.takeBack_eq_self hactive name
        rw [hself, hself]
  index_iff name table htable p hp n hn hne := by
    obtain ⟨f, hf, hlookup⟩ := lookup_updatePartNodeMS s node name
    rw [hlookup] at htable
    obtain ⟨table₀, h₀, rfl⟩ := map_eq_some_iff.mp htable
    rw [(hf table₀).partitions_eq, Table.takeBack, mem_mapIdx] at hp
    obtain ⟨i, hi, rfl⟩ := hp
    have hmem := getElem_mem hi
    obtain ⟨v, hv⟩ := h.lookup_some h₀
    rcases Partition.mem_replicas_takeBack hn with hold | ⟨rfl, hinactive, hdup⟩
    · have hbefore := h.index_iff name table₀ h₀ _ hmem n hold hne
      rw [mem_tablesOf_updatePartNodeMS_iff, mem_tablesOf_updatePartNodeMS_iff, h₀, hv, hbefore]
      simp only [some.injEq, exists_eq_left']
    · exact iff_of_true (mem_tablesOf_updatePartNodeMS_self h₀ ⟨_, hmem, hinactive⟩ hdup)
        (mem_tablesOf_updatePartNodeMS_self hv ⟨_, hmem, hinactive⟩ hdup) }

theorem addTable (env env' : Env) (table : Table) (h : Agree s s') :
    Agree (s.addTable env table) (s'.addTable env' table) := { h.bumpVersion with
  placement_eq name := by
    simp only [placement, lookup_addTable]
    split
    · rfl
    · exact h.placement_eq name
  state_eq := h.state_eq
  index_iff name table' htable p hp n hn hne := by
    rw [lookup_addTable] at htable
    simp only [MetaInfo.addTable, mem_tablesOf_setNodeTable]
    split at htable
    · rename_i hname
      cases htable
      have hvisited : n ∈ table.visited :=
        mem_flatMap.mpr ⟨p, hp, Partition.mem_visited_of_mem_replicas hn⟩
      simp [hvisited, hname]
    · rw [h.index_iff name table' htable p hp n hn hne] }

theorem migrateFromNode (hnode : node ≠ default) (h : Agree s s') :
    Agree (s.migrateFromNode node) (s'.migrateFromNode node) where
  version_eq := by rw [migrateFromNode_version, migrateFromNode_version, h.version_eq]
  placement_eq name := by
    rw [placement, placement]
    cases htable : s.tableInfo.lookup name with
    | none =>
      rw [lookup_migrateFromNode, lookup_migrateFromNode]
      simp [htable, h.lookup_none htable]
    | some table =>
      obtain ⟨v, hv⟩ := h.lookup_some htable
      -- the indexes agree where the node is a replica, and elsewhere it does not matter
      by_cases hmem : ∃ p ∈ table.partitions, node ∈ p.replicas
      · obtain ⟨p, hp, hn⟩ := hmem
        have hiff := h.index_iff name table htable p hp node hn hnode
        rw [lookup_migrateFromNode, lookup_migrateFromNode, htable, hv]
        by_cases hlisted : name ∈ tablesOf s.nodeTable node
        · rw [if_pos hlisted, if_pos (hiff.mp hlisted)]
          -- the promotion looks at the members only, and these are the same
          simp [migrateFromTable, h.registeredIn_eq]
        · rw [if_neg hlisted, if_neg (hlisted ∘ hiff.mpr)]
          rfl
      · -- a table that does not have the node stays as it is, listed or not
        have hnot : ∀ p ∈ table.partitions, node ∉ p.replicas := fun p hp hn => hmem ⟨p, hp, hn⟩
        rw [lookup_migrateFromNode_of_notMem hnode htable hnot,
          lookup_migrateFromNode_of_notMem hnode hv hnot]
        rfl
  state_eq := by simpa only [stateOf, migrateFromNode_nodes] using h.state_eq
  index_iff name table htable p hp n hn hne := by
    rw [tablesOf_migrateFromNode, tablesOf_migrateFromNode]
    by_cases hother : n = node
    · simp [hother]
    · rw [if_neg hother, if_neg hother]
      obtain ⟨table₀, h₀, p₀, hp₀, rfl | ⟨rfl, -⟩⟩ := exists_of_mem_migrateFromNode htable hp
      · exact h.index_iff name table₀ h₀ p₀ hp₀ n (Partition.mem_of_mem_migrateFrom hn) hne
      · exact h.index_iff name table₀ h₀ p hp₀ n hn hne

theorem generateMigrateTasks {nodes : List Node} (hnodes : default ∉ nodes) (h : Agree s s') :
    Agree (s.generateMigrateTasks nodes) (s'.generateMigrateTasks nodes) := by
  induction nodes generalizing s s' with
  | nil => exact h
  | cons first rest ih =>
    rw [mem_cons, not_or] at hnodes
    rw [generateMigrateTasks_cons, generateMigrateTasks_cons]
    exact ih hnodes.2 (h.migrateFromNode (Ne.symm hnodes.1))

theorem markDown (nodes : List Node) (h : Agree s s') :
    Agree { s with nodes := (Noah.markDown nodes s.nodes).2 }
      { s' with nodes := (Noah.markDown nodes s'.nodes).2 } := { h with
  state_eq key := by
    have hkey := h.state_eq key
    simp only [stateOf, lookup_markDown] at hkey ⊢
    split
    · have hsome := congrArg (Option.map fun _ => NodeState.down) hkey
      simpa [Function.comp_def, state] using hsome
    · exact hkey }

theorem dropOne {b : Bool} (name : Bytes) (h : Agree s s') :
    (dropOne (b, s) name).1 = (dropOne (b, s') name).1 ∧
      Agree (dropOne (b, s) name).2 (dropOne (b, s') name).2 := by
  cases htable : s.tableInfo.lookup name with
  | none =>
    have htable' := h.lookup_none htable
    simpa [MetaInfo.dropOne, htable, htable'] using h
  | some table =>
    obtain ⟨v, hv⟩ := h.lookup_some htable
    simp only [MetaInfo.dropOne, htable, hv, true_and]
    refine ⟨h.version_eq, ?_, h.state_eq, ?_⟩
    · intro name'
      simp only [placement, lookup_erase_eq]
      split
      · rfl
      · exact h.placement_eq name'
    · intro name' table' htable' p hp n hn hne
      simp only [lookup_erase_eq] at htable'
      split at htable'
      · cases htable'
      · simp only [mem_tablesOf_dropNodeTable]
        rw [h.index_iff name' table' htable' p hp n hn hne]
        rfl

theorem foldl_dropOne (tables : List Bytes) {b : Bool} (h : Agree s s') :
    (tables.foldl MetaInfo.dropOne (b, s)).1 = (tables.foldl MetaInfo.dropOne (b, s')).1 ∧
      Agree (tables.foldl MetaInfo.dropOne (b, s)).2 (tables.foldl MetaInfo.dropOne (b, s')).2 := by
  refine foldl_rel (r := fun (c c' : Bool × MetaInfo) => c.1 = c'.1 ∧ Agree c.2 c'.2) ⟨rfl, h⟩ ?_
  rintro name - ⟨b, s⟩ ⟨_, s'⟩ ⟨rfl, hagree⟩
  exact hagree.dropOne name

theorem addReplica {processor : Processor} {table : Table} {p : Partition} {v : ℤ}
    (listed : s.tableInfo.lookup processor.task.tableName = some table)
    (listed' : s'.tableInfo.lookup processor.task.tableName = some { table with version := v })
    (hp : p ∈ table.partitions) (h : Agree s s') :
    Agree (s.addReplica processor table p)
      (s'.addReplica processor { table with version := v } p) := { h.bumpVersion with
  placement_eq name := by
    simp only [placement, lookup_addReplica listed, lookup_addReplica listed']
    split
    · rfl
    · exact h.placement_eq name
  state_eq := h.state_eq
  index_iff name table' htable q hq n hn hne := by
    rw [lookup_addReplica listed] at htable
    simp only [MetaInfo.addReplica, mem_tablesOf_updateNodeTable]
    split at htable
    · rename_i hname
      subst hname
      cases htable
      rcases mem_or_eq_of_mem_set hq with hold | rfl
      · rw [h.index_iff _ table listed q hold n hn hne]
      · rcases Partition.mem_replicas_addReplica hn with hold | rfl | ⟨-, -, hempty⟩
        · rw [h.index_iff _ table listed p hp n hold hne]
        · simp
        · exact absurd hempty hne
    · rw [h.index_iff name table' htable q hq n hn hne] }

theorem refreshNodes (clock : Clock) (h : Agree s s') : Agree (s.refreshNodes clock) s' := { h with
  state_eq key := by
    rw [← h.state_eq key, stateOf, stateOf, MetaInfo.refreshNodes]
    obtain ⟨_, hlookup⟩ := lookup_traverse (fun (_ : Unit) _ (info : NodeInfo) =>
      ((), if info.lastAliveTime = 0 then info else ⟨clock.us⟩)) () s.nodes key
    rw [hlookup, Option.map_map]
    congr 1
    funext info
    by_cases hdown : info.lastAliveTime = 0
    · simp [hdown]
    · simp [hdown, state, clock.pos.ne'] }

end Agree

/-! ## One request -/

/-- The operations on which replicas stay together: a node that fails back stands at the given
positions, if there is anything it could take back, and the empty node is not reported down. -/
def Comparable (place : List ℕ) (s : MetaInfo) : Op → Prop
  | .updateNode node => s.stateOf (node2String node) = some .down → Agree.Inactive s →
      positions node (nodeArray s.nodes) = place
  | .downNodes epoch nodes => epoch = s.version.epoch → default ∉ nodes
  | _ => True

namespace Agree

variable {place : List ℕ} {env env' : Env}

theorem updateNode (h : Agree s s') (hs : Comparable place s (.updateNode node))
    (hs' : Comparable place s' (.updateNode node)) :
    Agree (s.updateNode env node).2 (s'.updateNode env' node).2 := by
  have hstate := h.state_eq (node2String node)
  cases hknown : s.nodes.lookup (node2String node) with
  | none =>
    have hknown' : s'.nodes.lookup (node2String node) = none := by
      simpa [stateOf, hknown] using hstate.symm
    simpa only [MetaInfo.updateNode, hknown, hknown'] using (h.register env env').bumpEpoch
  | some info =>
    obtain ⟨info', hknown', hinfo⟩ : ∃ info', s'.nodes.lookup (node2String node) = some info' ∧
        info'.state = info.state := by
      rw [stateOf, stateOf, hknown, map_some] at hstate
      exact map_eq_some_iff.mp hstate.symm
    -- stamps differ from replica to replica, but both are zero or neither is
    have hdown : info.lastAliveTime = 0 ↔ info'.lastAliveTime = 0 := by
      by_cases h₀ : info.lastAliveTime = 0 <;> by_cases h₁ : info'.lastAliveTime = 0 <;>
        simp_all [state]
    by_cases hzero : info.lastAliveTime = 0
    · simp only [MetaInfo.updateNode, hknown, hknown', hzero, hdown.mp hzero, if_true]
      refine bumpEpoch (updatePartNodeMS (h.stamp env.clock env'.clock) ?_ ?_)
      · -- the node itself is registered
        rw [nodeArray_stamp, nodeArray_eq, length_map]
        exact length_pos_of_mem (mem_keys_of_lookup hknown)
      · intro hinactive
        rw [nodeArray_stamp, nodeArray_stamp]
        rw [hs (by simp [stateOf, hknown, state, hzero]) hinactive,
          hs' (by simp [stateOf, hknown', state, hdown.mp hzero]) (h.inactive hinactive)]
    · have hzero' : ¬info'.lastAliveTime = 0 := fun h₁ => hzero (hdown.mpr h₁)
      simpa only [MetaInfo.updateNode, hknown, hknown', hzero, hzero', if_false] using
        h.stamp env.clock env'.clock

theorem createTable (info : VersionInfo) (table : Table) (h : Agree s s') :
    Agree (s.createTable env info table).2 (s'.createTable env' info table).2 := by
  unfold MetaInfo.createTable
  rw [← h.version_eq]
  split
  · exact h
  · cases htable : s.tableInfo.lookup table.name with
    | some table' =>
      obtain ⟨v, hv⟩ := h.lookup_some htable
      simpa only [hv] using h
    | none => simpa only [h.lookup_none htable] using h.addTable env env' table

theorem downNodes (h : Agree s s') {epoch : ℤ} {nodes : List Node}
    (hs : Comparable place s (.downNodes epoch nodes)) :
    Agree (s.downNodes epoch nodes []).2.2 (s'.downNodes epoch nodes []).2.2 := by
  have hflag : (Noah.markDown nodes s.nodes).1 = (Noah.markDown nodes s'.nodes).1 := by
    rw [markDown_eq, markDown_eq, h.registeredIn_eq]
  have hepoch : s'.version.epoch = s.version.epoch := by rw [h.version_eq]
  by_cases hcurrent : epoch = s.version.epoch
  · simp only [MetaInfo.downNodes, hepoch, hcurrent, ne_eq, not_true_eq_false, if_false, ← hflag]
    split
    · exact (h.markDown nodes).bumpEpoch.generateMigrateTasks (hs hcurrent)
    · exact h.markDown nodes
  · simpa only [MetaInfo.downNodes, hepoch, hcurrent, ne_eq, not_false_eq_true, if_true] using h

theorem dropTable (info : VersionInfo) (tables : List Bytes) (h : Agree s s') :
    Agree (s.dropTable info tables).2 (s'.dropTable info tables).2 := by
  obtain ⟨hflag, hdropped⟩ := h.foldl_dropOne (b := false) tables
  unfold MetaInfo.dropTable
  simp only [← h.version_eq, ← hflag]
  split
  · exact h
  · split
    · exact hdropped.bumpVersion
    · exact hdropped

theorem commitMigrate {info : VersionInfo} {processor : Processor} {r r' : VersionInfo × MetaInfo}
    (h : Agree s s') (hr : s.commitMigrate info processor = some r)
    (hr' : s'.commitMigrate info processor = some r') : Agree r.2 r'.2 := by
  unfold MetaInfo.commitMigrate at hr hr'
  rw [← h.version_eq] at hr'
  split at hr
  · rename_i hstale
    rw [if_pos hstale] at hr'
    cases hr
    cases hr'
    exact h
  · rename_i hcurrent
    rw [if_neg hcurrent] at hr'
    cases htable : s.tableInfo.lookup processor.task.tableName with
    | none =>
      simp only [htable, some.injEq] at hr
      simp only [h.lookup_none htable, some.injEq] at hr'
      subst hr hr'
      exact h
    | some table =>
      obtain ⟨v, hv⟩ := h.lookup_some htable
      simp only [htable] at hr
      simp only [hv] at hr'
      have hat : ({ table with version := v } : Table).partitionAt processor.task.partitionId =
          table.partitionAt processor.task.partitionId := rfl
      rw [hat] at hr'
      cases hp : table.partitionAt processor.task.partitionId with
      | none => simp [hp] at hr
      | some p =>
        simp only [hp] at hr hr'
        split at hr
        · rename_i hplaced
          rw [if_pos hplaced] at hr'
          cases hr
          cases hr'
          exact h
        · rename_i hfresh
          rw [if_neg hfresh] at hr'
          cases hr
          cases hr'
          exact h.addReplica htable hv (Table.mem_of_partitionAt hp)

theorem apply {op : Op} (h : Agree s s') (hs : Comparable place s op)
    (hs' : Comparable place s' op) (ht : s.apply ⟨env, op⟩ = some t)
    (ht' : s'.apply ⟨env', op⟩ = some t') : Agree t t' := by
  cases op with
  | updateNode node =>
    cases ht
    cases ht'
    exact h.updateNode hs hs'
  | createTable info table =>
    cases ht
    cases ht'
    exact h.createTable info table
  | downNodes epoch nodes =>
    cases ht
    cases ht'
    exact h.downNodes hs
  | dropTable info tables =>
    cases ht
    cases ht'
    exact h.dropTable info tables
  | commitMigrate info processor =>
    obtain ⟨r, hr, rfl⟩ := map_eq_some_iff.mp ht
    obtain ⟨r', hr', rfl⟩ := map_eq_some_iff.mp ht'
    exact h.commitMigrate hr hr'

end Agree

/-! ## Snapshots -/

/-- The states whose snapshot holds all that replicas agree on: every key of `nodes_` reads back,
and the index lists every table for its replicas. -/
structure Saveable (s : MetaInfo) : Prop where
  readable : ∀ key ∈ s.nodes.keys, node2String (string2Node key default) = key
  indexed : ∀ name table, s.tableInfo.lookup name = some table → ∀ p ∈ table.partitions,
    ∀ n ∈ p.replicas, n ≠ default → name ∈ tablesOf s.nodeTable n

theorem state_loadNodes (clock : Clock) {nodes : NodeInfoMap}
    (h : ∀ key ∈ nodes.keys, node2String (string2Node key default) = key) (key : Bytes) :
    ((loadNodes clock (nodeStatuses nodes)).lookup key).map state =
      (nodes.lookup key).map state := by
  let restamp (info : NodeInfo) : NodeInfo := ⟨if info.state = .down then 0 else clock.us⟩
  have hstate : state ∘ restamp = state := by
    funext info
    by_cases hdown : info.lastAliveTime = 0
    · simp [restamp, state, hdown]
    · simp [restamp, state, hdown, clock.pos.ne']
  -- each node is stored under the key it was saved from
  have hloaded : loadNodes clock (nodeStatuses nodes) =
      nodes.entries.foldl (fun m e => m.assign e.1 (restamp e.2)) ∅ := by
    rw [loadNodes, nodeStatuses, foldl_map]
    refine foldl_ext _ _ _ fun m e he => ?_
    rw [h e.1 (mem_map.mpr ⟨e, he, rfl⟩)]
  rw [hloaded, lookup_foldl_assign restamp nodes.nodupKeys, lookup_empty,
    Option.or_none, Option.map_map, hstate]
  rfl

theorem Agree.loaded (load : LoadEnv) (hkeyed : s'.Keyed) (hsave : Saveable s') (h : Agree s s') :
    Agree s (setMetaInfoSnapshot load (saveSnapshot s')) := { h with
  placement_eq name := by
    rw [h.placement_eq, placement, placement, lookup_setMetaInfoSnapshot]
  state_eq key := by
    rw [h.state_eq, stateOf, stateOf, ← state_loadNodes load.env.clock hsave.readable]
    simp only [setMetaInfoSnapshot, saveSnapshot, Arrangement.lookup_run]
  index_iff name table htable p hp n hn hne := by
    obtain ⟨v, hv⟩ := h.lookup_some htable
    refine iff_of_true ?_ ?_
    · rw [h.index_iff name table htable p hp n hn hne]
      exact hsave.indexed name _ hv p hp n hn hne
    · refine hkeyed.indexed_loaded load name { table with version := v } ?_ p hp n hn
      rw [lookup_setMetaInfoSnapshot, hv] }

/-! ## Replicas -/

/-- The states of a replica after a log: it starts empty or from a snapshot of another replica,
applies requests and may become leader. Requests meet `C` and saved states meet `D`. -/
inductive Replica (C : List MetaCmdRequest → MetaInfo → MetaCmdRequest → Prop)
    (D : MetaInfo → Prop) : List MetaCmdRequest → MetaServer → Prop
  | start : Replica C D [] MetaServer.start
  | restart (load : LoadEnv) {log : List MetaCmdRequest} {s : MetaServer}
      (hs : Replica C D log s) (hD : D s.metaInfo) :
      Replica C D log { MetaServer.start with metaInfo :=
        (uninitialized.onSnapshotLoad load (saveSnapshot s.metaInfo)).init }
  | lead (clock : Clock) {log : List MetaCmdRequest} {s : MetaServer} (hs : Replica C D log s) :
      Replica C D log { s with metaInfo := s.metaInfo.refreshNodes clock }
  | apply (env : Env) (request : MetaCmdRequest) {log : List MetaCmdRequest} {s s' : MetaServer}
      {response : MetaCmdResponse} (hs : Replica C D log s) (hC : C log s.metaInfo request)
      (hdeal : s.dealRequest env request = some (response, s')) :
      Replica C D (log ++ [request]) s'

/-- The requests on which replicas stay together, given the positions of failed nodes for each
log. -/
def Undisputed (place : List MetaCmdRequest → List ℕ) (log : List MetaCmdRequest) (s : MetaInfo)
    (request : MetaCmdRequest) : Prop :=
  ∀ op, request.op = some op → Comparable (place log) s op

section Replicas

variable {C : List MetaCmdRequest → MetaInfo → MetaCmdRequest → Prop} {D : MetaInfo → Prop}
variable {log : List MetaCmdRequest} {server server' : MetaServer}

theorem Replica.reached (h : Replica C D log server) : server.Reached := by
  induction h with
  | start => exact .start
  | restart load _ _ ih => exact .restart load ih
  | lead clock _ ih => exact .refresh clock ih
  | apply env request _ _ hdeal ih => exact .request env request ih hdeal

theorem Replica.keyed (h : Replica C D log server) : server.metaInfo.Keyed := by
  induction h with
  | start => rintro name table ⟨⟩
  | restart load hs _ ih =>
    rw [restart_eq load hs.reached.grounded]
    exact ih.loaded load
  | lead clock _ ih => exact ih
  | apply env request _ _ hdeal ih =>
    exact invariant_of_dealRequest (fun heffect ht => ht.effect heffect) hdeal ih

variable {place : List MetaCmdRequest → List ℕ}

theorem Agree.restart (load : LoadEnv) (hs : Replica (Undisputed place) Saveable log server)
    (hD : Saveable server.metaInfo) (h : Agree t server.metaInfo) : Agree t
      (uninitialized.onSnapshotLoad load (saveSnapshot server.metaInfo)).init := by
  rw [restart_eq load hs.reached.grounded]
  exact h.loaded load hs.keyed hD

theorem Agree.dealRequest {request : MetaCmdRequest} {env env' : Env} {next next' : MetaServer}
    {response response' : MetaCmdResponse} (h : Agree server.metaInfo server'.metaInfo)
    (hC : Undisputed place log server.metaInfo request)
    (hC' : Undisputed place log server'.metaInfo request)
    (hdeal : server.dealRequest env request = some (response, next))
    (hdeal' : server'.dealRequest env' request = some (response', next')) :
    Agree next.metaInfo next'.metaInfo := by
  cases hop : request.op with
  | none => rwa [metaInfo_of_dealRequest hop hdeal, metaInfo_of_dealRequest hop hdeal']
  | some op =>
    exact h.apply (hC op hop) (hC' op hop) (apply_of_dealRequest hop hdeal)
      (apply_of_dealRequest hop hdeal')

/-- Replicas of one log agree. The induction is on the first replica; each of its requests is met
by the same request of the second one, between restarts and elections of the second. -/
theorem Replica.agree (h : Replica (Undisputed place) Saveable log server)
    (h' : Replica (Undisputed place) Saveable log server') :
    Agree server.metaInfo server'.metaInfo := by
  induction h generalizing server' with
  | start =>
    -- the second replica may have restarted or led any number of times on the empty log
    generalize hlog : ([] : List MetaCmdRequest) = log at h'
    induction h' with
    | start => exact .refl _
    | restart load hs hD ih => exact (ih hlog).restart load hs hD
    | lead clock _ ih => exact ((ih hlog).symm.refreshNodes clock).symm
    | apply env request _ _ _ _ => simp at hlog
  | restart load hs hD ih => exact ((ih h').symm.restart load hs hD).symm
  | lead clock _ ih => exact (ih h').refreshNodes clock
  | @apply env request log s s₁ response hs hC hdeal ih =>
    generalize hlog : log ++ [request] = log' at h'
    induction h' with
    | start => simp at hlog
    | restart load hs hD ih' => exact (ih' hlog).restart load hs hD
    | lead clock _ ih' => exact ((ih' hlog).symm.refreshNodes clock).symm
    | apply env' request' hs' hC' hdeal' _ =>
      -- both replicas applied the last request of the log last
      obtain ⟨rfl, hrequest⟩ := append_inj' hlog rfl
      obtain rfl : request = _ := singleton_inj.mp hrequest
      exact (ih hs').dealRequest hC hC' hdeal hdeal'

/-- **Replicas of one log agree** on the counters, on the placement of every table and on the state
of every node, whatever their clocks and iteration orders are, if failed nodes come back to the same
positions on all of them and snapshots are taken of saveable states. -/
theorem replicas_agree (place : List MetaCmdRequest → List ℕ)
    (h : Replica (Undisputed place) Saveable log server)
    (h' : Replica (Undisputed place) Saveable log server') :
    server.metaInfo.version = server'.metaInfo.version ∧
      (∀ name, server.metaInfo.placement name = server'.metaInfo.placement name) ∧
      ∀ key, server.metaInfo.stateOf key = server'.metaInfo.stateOf key := by
  have hagree := h.agree h'
  exact ⟨hagree.version_eq, hagree.placement_eq, hagree.state_eq⟩

end Replicas

/-! ## Two iteration orders -/

namespace Sample

/-- The iteration order is turned round by every insertion. -/
def turned : Env := ⟨⟨1, Nat.one_pos⟩, .reverse, .keep⟩

def pingRequest (port : Int32) : MetaCmdRequest := ⟨⟨0, 0⟩, .ping (Sample.node port)⟩

def downRequest (epoch : ℤ) (port : Int32) : MetaCmdRequest :=
  ⟨⟨epoch, 0⟩, .downNodes [Sample.node port]⟩

/-- The state of a replica that applied a log in the same surroundings throughout. -/
def replayed (env : Env) (log : List MetaCmdRequest) : Option MetaServer :=
  log.foldlM (fun s request => (s.dealRequest env request).map (·.2)) MetaServer.start

theorem replica_of_replayed (env : Env) {C : MetaCmdRequest → Prop} {log : List MetaCmdRequest}
    {s : MetaServer} (hC : ∀ request ∈ log, C request) (h : replayed env log = some s) :
    Replica (fun _ _ request => C request) (fun _ => True) log s := by
  induction log using List.reverseRecOn generalizing s with
  | nil =>
    cases h
    exact .start
  | append_singleton log request ih =>
    rw [replayed, foldlM_append] at h
    obtain ⟨s₀, h₀, hlast⟩ := bind_eq_some_iff.mp h
    obtain ⟨s₁, hstep, hs₁⟩ := bind_eq_some_iff.mp hlast
    cases hs₁
    obtain ⟨⟨response, next⟩, hdeal, rfl⟩ := map_eq_some_iff.mp hstep
    refine .apply env request (ih ?_ h₀) (hC request (by simp)) hdeal
    exact fun r hr => hC r (mem_append_left _ hr)

/-- A table of two replicas, whose master goes down and comes back. -/
def failedMaster : List MetaCmdRequest :=
  [pingRequest 1, pingRequest 2,
    ⟨⟨2, 0⟩, .init (table 2 [⟨0, .active, some (Sample.node 1), [Sample.node 2]⟩])⟩,
    downRequest 2 1, pingRequest 1]

/-- A table of one replica. -/
def initRequest : MetaCmdRequest :=
  ⟨⟨1, 0⟩, .init (table 1 [⟨0, .active, some (Sample.node 1), []⟩])⟩

/-- The positions of a node that is alone. -/
abbrev AloneReplica : List MetaCmdRequest → MetaServer → Prop :=
  Replica (Undisputed fun _ => [0]) Saveable

/-- A replica with one node and one table. -/
def created : MetaServer :=
  ⟨after [ping 1, create 1 0 (table 1 [⟨0, .active, some (Sample.node 1), []⟩])], .empty,
    some start⟩

theorem replica_created : AloneReplica ([] ++ [pingRequest 1] ++ [initRequest]) created := by
  refine .apply env initRequest (.apply env (pingRequest 1) .start ?_ rfl) ?_ rfl
  · rintro op ⟨⟩ ⟨⟩
  · rintro op ⟨⟩
    trivial

theorem saveable_created : Saveable created.metaInfo where
  readable := by decide
  indexed name table htable p hp n hn _ := by
    have hname : name ∈ [bytes "t"] := mem_keys_of_lookup htable
    rw [mem_singleton] at hname
    subst hname
    cases htable
    rw [mem_singleton.mp hp] at hn
    rw [mem_singleton.mp hn]
    decide

end Sample

open Sample

/-- The node of the table fails and comes back, to a replica and to one that was restarted from a
snapshot of it. -/
theorem replicas_agree_restarted : ∃ log s s', AloneReplica log s ∧ AloneReplica log s' ∧
      s.metaInfo.placement (bytes "t") = s'.metaInfo.placement (bytes "t") := by
  have hdown : default ∉ [node 1] := by decide
  have h : AloneReplica _ _ := .apply env (pingRequest 1)
    (.apply env (downRequest 1 1) replica_created
      (by rintro op ⟨⟩ _; exact hdown) rfl) (by rintro op ⟨⟩ _ _; rfl) rfl
  have h' : AloneReplica _ _ := .apply env (pingRequest 1) (.apply env (downRequest 1 1)
      (.restart ⟨env, .keep⟩ replica_created saveable_created)
      (by rintro op ⟨⟩ _; exact hdown) rfl) (by rintro op ⟨⟩ _ _; rfl) rfl
  exact ⟨_, _, _, h, h', (replicas_agree (fun _ => [0]) h h').2.1 (bytes "t")⟩

/-- One replica makes the node that came back the master, the other one makes it a slave. -/
theorem failedMaster_disputed : ∃ s s', Replica (fun _ _ _ => True) (fun _ => True) failedMaster s ∧
      Replica (fun _ _ _ => True) (fun _ => True) failedMaster s' ∧
      s.metaInfo.placement (bytes "t") = some (table 2
        [⟨0, .active, some (Sample.node 1), [Sample.node 2]⟩]) ∧
      s'.metaInfo.placement (bytes "t") = some (table 2
        [⟨0, .active, some (Sample.node 2), [Sample.node 1]⟩]) := by
  exact ⟨_, _, replica_of_replayed env (C := fun _ => True) (fun _ _ => trivial) rfl,
    replica_of_replayed turned (C := fun _ => True) (fun _ _ => trivial) rfl, rfl, rfl⟩

end Noah
