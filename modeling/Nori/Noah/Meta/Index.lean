import Nori.Noah.Meta.Status
import Nori.Noah.Meta.Restoration
import Nori.Noah.Node.MetaInfo

/-!
# The reverse index over whole runs

`node_table_` mirrors the placement so that a pull by node answers with the tables of the node. A
table that is missing there looks dropped to the node, which then deletes its data. The index is
complete in every run in which no node that is reported down holds two places of one partition,
and no master is migrated where there is none.
-/

namespace Noah

open Butil Container Transition List Sample NodeServer

/-- Every table is stored under its name. -/
def MetaInfo.Keyed (s : MetaInfo) : Prop :=
  ∀ name table, s.tableInfo.lookup name = some table → table.name = name

/-- Keyed tables and a complete index. -/
structure MetaInfo.Mirrored (s : MetaInfo) : Prop where
  keyed : s.Keyed
  indexed : s.Indexed

/-! ## Partitions -/

namespace Partition

variable {p : Partition} {node n : Node} {nodes : List Node} {base : ℕ}

theorem mem_replicas_failback {j : ℕ} (h : n ∈ (p.failback node j).1.replicas) :
    n ∈ p.replicas ∨ n = node := by
  rcases Nat.eq_zero_or_pos j with rfl | hj
  · by_cases hm : p.master = some node
    · left
      simpa [failback, hm] using h
    · have hperm := (replicas_failback_zero hm).1
      exact (mem_cons.mp (hperm.mem_iff.mp h)).symm
  · have hperm := (replicas_failback_pos p node hj).1
    exact (mem_cons.mp (hperm.mem_iff.mp h)).symm

theorem mem_replicas_foldl_takeSlot {js : List ℕ}
    (h : n ∈ (js.foldl (takeSlot node nodes base) p).replicas) :
    n ∈ p.replicas ∨ (n = node ∧ js ≠ []) := by
  induction js generalizing p with
  | nil => exact .inl h
  | cons j js ih =>
    rcases ih h with hslot | ⟨hn, -⟩
    · rw [takeSlot] at hslot
      split at hslot
      · exact (mem_replicas_failback hslot).imp_right fun hn => ⟨hn, cons_ne_nil _ _⟩
      · exact .inl hslot
    · exact .inr ⟨hn, cons_ne_nil _ _⟩

theorem mem_replicas_takeBack {dupSize : ℕ}
    (h : n ∈ (p.takeBack node nodes dupSize base).replicas) :
    n ∈ p.replicas ∨ (n = node ∧ p.status ≠ .active ∧ 0 < dupSize) := by
  unfold takeBack at h
  split at h
  · exact .inl h
  · rename_i hinactive
    have hfold := mem_replicas_foldl_takeSlot
      (show n ∈ ((List.range dupSize).foldl (takeSlot node nodes base) p).replicas from h)
    refine hfold.imp_right fun ⟨hn, hne⟩ => ⟨hn, hinactive, ?_⟩
    rw [Ne, range_eq_nil] at hne
    omega

/-- A node that is reported down can be taken out of a partition in one go: it has at most one
place, and the empty node is not a slave. -/
structure Removable (node : Node) (p : Partition) : Prop where
  count_le : p.replicas.count node ≤ 1
  empty_notMem : node = default → node ∉ p.slaves

theorem Removable.notMem_release (h : p.Removable node) : node ∉ (p.release node).1.replicas := by
  unfold release
  by_cases hget : node = p.getMaster
  · rw [if_pos hget, replicas_of_none rfl]
    intro hslave
    cases hm : p.master with
    | none => exact h.empty_notMem (by rw [hget, getMaster, hm]; rfl) hslave
    | some m =>
      -- the master's place and the slave's place would be two
      have hcount := h.count_le
      have hm' : m = node := by rw [hget, getMaster, hm]; rfl
      have hpos : 0 < p.slaves.count node := count_pos_iff.mpr hslave
      simp only [replicas, hm, hm', Option.toList_some, singleton_append, count_cons_self] at hcount
      omega
  · rw [if_neg hget, mem_replicas]
    rintro (hm | hslave)
    · exact hget (by rw [getMaster, show p.master = some node from hm]; rfl)
    · simp at hslave

variable (registered : Node → Bool)

theorem Removable.notMem_migrateFrom (h : p.Removable node) :
    node ∉ (p.migrateFrom registered node).replicas := by
  unfold migrateFrom
  split
  · rw [(replicas_settle_perm registered _).mem_iff]
    exact h.notMem_release
  · exact h.notMem_release

theorem release_replicas_sublist (node : Node) (p : Partition) :
    (p.release node).1.replicas.Sublist p.replicas := by
  unfold release
  split
  · rw [replicas_of_none rfl]
    exact sublist_append_right _ _
  · exact List.Sublist.append_left filter_sublist _

theorem count_migrateFrom_le (node n : Node) (p : Partition) :
    (p.migrateFrom registered node).replicas.count n ≤ p.replicas.count n := by
  unfold migrateFrom
  split
  · rw [(replicas_settle_perm registered _).count_eq]
    exact (release_replicas_sublist node p).count_le n
  · exact (release_replicas_sublist node p).count_le n

theorem mem_of_mem_migrateFrom {registered : Node → Bool}
    (h : n ∈ (p.migrateFrom registered node).replicas) : n ∈ p.replicas := by
  rw [← count_pos_iff] at h ⊢
  exact h.trans_le (count_migrateFrom_le registered node n p)

theorem slaves_migrateFrom_subset (node : Node) (p : Partition) :
    (p.migrateFrom registered node).slaves ⊆ p.slaves := by
  have hrelease : (p.release node).1.slaves ⊆ p.slaves := by
    unfold release
    split
    · exact List.Subset.refl _
    · exact filter_subset_self _
  have hsettle (q : Partition) : (q.settle registered).slaves ⊆ q.slaves := by
    cases hm : q.master with
    | some m =>
      rw [settle_of_some registered hm]
      exact List.Subset.refl _
    | none =>
      rw [settle_of_none registered hm]
      exact eraseP_subset
  unfold migrateFrom
  split
  · exact List.Subset.trans (hsettle _) hrelease
  · exact hrelease

theorem Removable.migrateFrom (other : Node) (h : p.Removable node) :
    (p.migrateFrom registered other).Removable node where
  count_le := (count_migrateFrom_le registered other node p).trans h.count_le
  empty_notMem hempty hmem :=
    h.empty_notMem hempty (slaves_migrateFrom_subset registered other p hmem)

/-- The replicas after a migration. The old master of a failed one becomes a slave, and the empty
node if there was none. -/
theorem mem_replicas_addReplica {role : Role} {dst : Node} {d : ℤ}
    (h : n ∈ (p.addReplica role dst d).replicas) :
    n ∈ p.replicas ∨ n = dst ∨ (role = .master ∧ p.master = none ∧ n = default) := by
  have hreplicas : ∀ q : Partition, (if (1 + q.slaves.length : ℤ) = d then
      { q with status := .active } else q).replicas = q.replicas := by
    intro q
    split <;> rfl
  unfold addReplica at h
  rw [hreplicas, mem_replicas] at h
  rw [mem_replicas]
  split at h
  · rename_i hrole
    simp only [Option.some.injEq, mem_append, mem_singleton] at h
    rcases h with hdst | hslave | hmaster
    · exact .inr (.inl hdst.symm)
    · exact .inl (.inr hslave)
    · cases hm : p.master with
      | some m => exact .inl (.inl (by simp [hmaster, getMaster, hm]))
      | none => exact .inr (.inr ⟨hrole, rfl, by simp [hmaster, getMaster, hm]⟩)
  · simp only [mem_append, mem_singleton] at h
    rcases h with hm | hslave | hdst
    · exact .inl (.inl hm)
    · exact .inl (.inr hslave)
    · exact .inr (.inl hdst)

end Partition

/-! ## Operations -/

/-- Every listed node can be taken out of every partition. -/
def MetaInfo.AllRemovable (nodes : List Node) (s : MetaInfo) : Prop :=
  ∀ node ∈ nodes, ∀ name table, s.tableInfo.lookup name = some table →
    ∀ p ∈ table.partitions, p.Removable node

/-- The operations that keep the index complete: a node that is reported down has at most one
place in each partition, and a failed master is replaced only where there is a master. -/
def SinglePlaced (s : MetaInfo) (event : Event) : Prop :=
  match event.op with
  | .downNodes epoch nodes => epoch = s.version.epoch → s.AllRemovable nodes
  | .commitMigrate info processor => info = s.version → processor.task.role = .master →
      ∀ table, s.tableInfo.lookup processor.task.tableName = some table →
        ∀ p, table.partitionAt processor.task.partitionId = some p →
          processor.dst = p.getMaster ∨ processor.dst ∈ p.slaves ∨ p.master.isSome = true
  | _ => True

namespace MetaInfo

variable {s s' : MetaInfo} {node : Node} {nodes : List Node}

theorem exists_of_mem_migrateFromNode {name : Bytes} {table : Table} {p : Partition}
    (h : (s.migrateFromNode node).tableInfo.lookup name = some table) (hp : p ∈ table.partitions) :
    ∃ table₀, s.tableInfo.lookup name = some table₀ ∧ ∃ p₀ ∈ table₀.partitions,
      p = p₀.migrateFrom (registeredIn s.nodes) node ∨
        p = p₀ ∧ name ∉ tablesOf s.nodeTable node := by
  rw [lookup_migrateFromNode] at h
  split at h
  · obtain ⟨table₀, h₀, rfl⟩ := Option.map_eq_some_iff.mp h
    obtain ⟨p₀, hp₀, rfl⟩ := mem_map.mp hp
    exact ⟨table₀, h₀, p₀, hp₀, .inl rfl⟩
  · rename_i hlisted
    exact ⟨table, h, p, hp, .inr ⟨rfl, hlisted⟩⟩

theorem AllRemovable.migrateFromNode (other : Node) (h : s.AllRemovable nodes) :
    (s.migrateFromNode other).AllRemovable nodes := by
  intro node hnode name table htable p hp
  obtain ⟨table₀, h₀, p₀, hp₀, rfl | ⟨rfl, -⟩⟩ := exists_of_mem_migrateFromNode htable hp
  · exact (h node hnode name table₀ h₀ p₀ hp₀).migrateFrom _ _
  · exact h node hnode name table₀ h₀ p hp₀

namespace Keyed

theorem dropOne {st : Bool × MetaInfo} (name : Bytes) (h : st.2.Keyed) :
    (MetaInfo.dropOne st name).2.Keyed := by
  intro name' table htable
  rw [lookup_dropOne] at htable
  split at htable
  · cases htable
  · exact h name' table htable

theorem effect {env : Env} {op : Op} (heffect : Effect env s op s') (h : s.Keyed) : s'.Keyed := by
  refine heffect.forall_tables (P := fun name table => table.name = name) ?_ ?_ ?_ ?_ h
  · intro node info _ _ _ name table table' htable htaken
    rw [htaken.name_eq, h name table htable]
  · exact fun _ _ _ => rfl
  · exact fun _ _ _ _ hname => hname
  · intro processor table p _ hlisted _ _ _
    exact h _ table hlisted

end Keyed

namespace Indexed

theorem migrateFromNode (hremovable : s.AllRemovable [node]) (h : s.Indexed) :
    (s.migrateFromNode node).Indexed := by
  intro name table htable p hp n hn
  rw [tablesOf_migrateFromNode]
  obtain ⟨table₀, h₀, p₀, hp₀, rfl | ⟨rfl, hlisted⟩⟩ := exists_of_mem_migrateFromNode htable hp
  · have hne : n ≠ node := by
      rintro rfl
      -- the entry of the node is gone, so the node must be gone from the partition as well
      exact (hremovable n mem_cons_self name table₀ h₀ p₀ hp₀).notMem_migrateFrom _ hn
    rw [if_neg hne]
    exact h name table₀ h₀ p₀ hp₀ n (Partition.mem_of_mem_migrateFrom hn)
  · have hmem := h name table₀ h₀ p hp₀ n hn
    have hne : n ≠ node := by
      rintro rfl
      exact hlisted hmem
    rwa [if_neg hne]

theorem generateMigrateTasks (hremovable : s.AllRemovable nodes) (h : s.Indexed) :
    (s.generateMigrateTasks nodes).Indexed := by
  have hboth : (s.generateMigrateTasks nodes).Indexed ∧
      (s.generateMigrateTasks nodes).AllRemovable nodes := by
    refine generateMigrateTasks_invariant (P := fun t => t.Indexed ∧ t.AllRemovable nodes) ?_
      ⟨h, hremovable⟩
    -- taking one node out leaves the others removable, so the list can be walked
    rintro t node hnode ⟨ht, hall⟩
    refine ⟨ht.migrateFromNode ?_, hall.migrateFromNode node⟩
    intro n hn
    rw [mem_singleton] at hn
    exact hn ▸ hall node hnode
  exact hboth.1

theorem updatePartNodeMS (h : s.Indexed) : (s.updatePartNodeMS node).Indexed := by
  intro name table htable p hp n hn
  obtain ⟨f, hf, hlookup⟩ := lookup_updatePartNodeMS s node name
  rw [hlookup] at htable
  obtain ⟨table₀, h₀, rfl⟩ := Option.map_eq_some_iff.mp htable
  rw [(hf table₀).partitions_eq, Table.takeBack, mem_mapIdx] at hp
  obtain ⟨i, hi, rfl⟩ := hp
  have hmem := getElem_mem hi
  rcases Partition.mem_replicas_takeBack hn with hold | ⟨rfl, hinactive, hdup⟩
  · exact mem_tablesOf_updatePartNodeMS (h name table₀ h₀ _ hmem n hold)
  -- the offsets of an inactive partition are tried, which lists its table for the node
  · exact mem_tablesOf_updatePartNodeMS_self h₀ ⟨_, hmem, hinactive⟩ hdup

theorem addTable (env : Env) (table : Table) (h : s.Indexed) : (s.addTable env table).Indexed := by
  intro name table' htable p hp n hn
  rw [lookup_addTable] at htable
  refine mem_tablesOf_setNodeTable.mpr ?_
  split at htable
  · rename_i hname
    cases htable
    refine .inr ⟨mem_flatMap.mpr ⟨p, hp, ?_⟩, hname⟩
    exact Partition.mem_visited_of_mem_replicas hn
  · exact .inl (h name table' htable p hp n hn)

theorem addReplica {processor : Processor} {table : Table} {p : Partition}
    (listed : s.tableInfo.lookup processor.task.tableName = some table)
    (partition : table.partitionAt processor.task.partitionId = some p)
    (hmaster : processor.task.role = .master → p.master.isSome = true) (h : s.Indexed) :
    (s.addReplica processor table p).Indexed := by
  have hp : p ∈ table.partitions := Table.mem_of_partitionAt partition
  intro name table' htable q hq n hn
  rw [lookup_addReplica listed] at htable
  refine mem_tablesOf_updateNodeTable.mpr ?_
  split at htable
  · rename_i hname
    cases htable
    rcases mem_or_eq_of_mem_set hq with hold | rfl
    · exact .inl (hname ▸ h _ table listed q hold n hn)
    · rcases Partition.mem_replicas_addReplica hn with hold | rfl | ⟨hrole, hnone, -⟩
      · exact .inl (hname ▸ h _ table listed p hp n hold)
      · exact .inr ⟨rfl, hname⟩
      · -- the master that is moved to the slaves was a replica before
        have hsome := hmaster hrole
        rw [hnone] at hsome
        cases hsome
  · exact .inl (h name table' htable q hq n hn)

end Indexed

namespace Mirrored

theorem dropOne {st : Bool × MetaInfo} (name : Bytes) (h : st.2.Mirrored) :
    (MetaInfo.dropOne st name).2.Mirrored := by
  refine ⟨h.keyed.dropOne name, ?_⟩
  intro name' table htable p hp n hn
  rw [lookup_dropOne] at htable
  split at htable
  · cases htable
  · rename_i hne
    have hmem := h.indexed name' table htable p hp n hn
    unfold MetaInfo.dropOne
    split
    · rename_i dropped hdropped
      refine mem_tablesOf_dropNodeTable.mpr ⟨hmem, ?_⟩
      rintro ⟨-, heq⟩
      -- `DropNodeTable` clears the name inside the table, which is the key it is stored under
      rw [h.keyed name dropped hdropped] at heq
      exact hne heq
    · exact hmem

theorem foldl_dropOne (tables : List Bytes) {st : Bool × MetaInfo} (h : st.2.Mirrored) :
    (tables.foldl MetaInfo.dropOne st).2.Mirrored := by
  refine foldlRecOn (motive := fun st : Bool × MetaInfo => st.2.Mirrored) tables _ h ?_
  exact fun st hst name _ => hst.dropOne name

theorem effect {env : Env} {op : Op} (hplaced : SinglePlaced s ⟨env, op⟩)
    (heffect : Effect env s op s') (h : s.Mirrored) : s'.Mirrored := by
  refine ⟨h.keyed.effect heffect, ?_⟩
  have hindexed := h.indexed
  cases heffect with
  | unchanged => exact hindexed
  | stamped node info known up => exact hindexed
  | failedBack node info known down =>
    exact Indexed.updatePartNodeMS (s := s.stamp env.clock node) hindexed
  | registered node unknown => exact hindexed
  | created table absent => exact hindexed.addTable env table
  | downed nodes member =>
    refine Indexed.generateMigrateTasks ?_ hindexed
    exact fun n hn => hplaced rfl n hn
  | dropped tables changed =>
    have hdrop : (tables.foldl MetaInfo.dropOne (false, s)).2.Mirrored := foldl_dropOne tables h
    exact hdrop.indexed
  | migrated processor table p listed partition fresh =>
    refine Indexed.addReplica listed partition ?_ hindexed
    intro hrole
    rcases hplaced rfl hrole table listed p partition with hdst | hdst | hsome
    · exact absurd (.inl hdst) fresh
    · exact absurd (.inr hdst) fresh
    · exact hsome

end Mirrored

end MetaInfo

open MetaInfo

/-! ## Snapshots -/

theorem mem_tablesOf_loadTables {entries : List (Σ _ : Bytes, Table)} {name : Bytes} {n : Node} :
    name ∈ tablesOf (loadTables entries).2 n ↔
      ∃ e ∈ entries, n ∈ e.2.visited ∧ name = e.2.name := by
  have hgen : ∀ st : TableMap × NodeTableMap, name ∈ tablesOf (entries.foldl
        (fun st e => (st.1.assign e.1 e.2, setNodeTable e.2 st.2)) st).2 n ↔
      name ∈ tablesOf st.2 n ∨ ∃ e ∈ entries, n ∈ e.2.visited ∧ name = e.2.name := by
    induction entries with
    | nil => simp
    | cons e entries ih =>
      intro st
      rw [foldl_cons, ih, mem_tablesOf_setNodeTable]
      simp only [mem_cons, exists_eq_or_imp, or_assoc]
  have hempty : name ∉ tablesOf (∅ : NodeTableMap) n := by simp [tablesOf]
  simpa [loadTables, hempty] using hgen (∅, ∅)

theorem MetaInfo.Keyed.loaded {peer : MetaInfo} (load : LoadEnv) (h : peer.Keyed) :
    (setMetaInfoSnapshot load (saveSnapshot peer)).Keyed := by
  intro name table htable
  rw [lookup_setMetaInfoSnapshot] at htable
  exact h name table htable

theorem MetaInfo.Keyed.indexed_loaded {peer : MetaInfo} (load : LoadEnv) (h : peer.Keyed) :
    (setMetaInfoSnapshot load (saveSnapshot peer)).Indexed := by
  intro name table htable p hp n hn
  rw [lookup_setMetaInfoSnapshot] at htable
  refine mem_tablesOf_loadTables.mpr ⟨⟨name, table⟩, ?_, ?_, (h name table htable).symm⟩
  · have hmem := UnorderedMap.mem_entries_of_lookup htable
    exact (load.arrangeSnap.perm peer.tableInfo).mem_iff.mpr hmem
  · exact mem_flatMap.mpr ⟨p, hp, Partition.mem_visited_of_mem_replicas hn⟩

namespace MetaInfo.Mirrored

variable {s peer : MetaInfo}

theorem loaded (load : LoadEnv) (h : peer.Mirrored) :
    (setMetaInfoSnapshot load (saveSnapshot peer)).Mirrored :=
  ⟨h.keyed.loaded load, h.keyed.indexed_loaded load⟩

theorem onSnapshotLoad (load : LoadEnv) (hpeer : peer.Mirrored) (h : s.Mirrored) :
    (s.onSnapshotLoad load (saveSnapshot peer)).Mirrored := by
  unfold MetaInfo.onSnapshotLoad MetaInfo.loadFromSnapshot
  split
  · exact h
  · exact hpeer.loaded load

end MetaInfo.Mirrored

/-- States reached by operations under a condition, and by loading snapshots of such states, at a
start or later. -/
inductive LoadReached (C : MetaInfo → Event → Prop) : MetaInfo → Prop
  | start : LoadReached C start
  | op {s s' : MetaInfo} (event : Event) (hs : LoadReached C s) (hC : C s event)
      (happly : s.apply event = some s') : LoadReached C s'
  | restart (load : LoadEnv) {peer : MetaInfo} (hpeer : LoadReached C peer) :
      LoadReached C (uninitialized.onSnapshotLoad load (saveSnapshot peer)).init
  | load (load : LoadEnv) {s peer : MetaInfo} (hs : LoadReached C s) (hpeer : LoadReached C peer) :
      LoadReached C (s.onSnapshotLoad load (saveSnapshot peer))

namespace LoadReached

variable {C : MetaInfo → Event → Prop} {s : MetaInfo}

theorem of_reachable (h : (metaSystem.restrict C).Reachable s) : LoadReached C s := by
  refine h.invariant ?_ ?_
  · rintro s rfl
    exact .start
  · rintro s event s' ⟨hC, happly⟩ hs
    exact .op event hs hC happly

theorem grounded (h : LoadReached C s) : s.Grounded := by
  induction h with
  | start => exact ⟨le_rfl, fun _ => rfl⟩
  | op event _ _ happly ih => exact ih.effect (effect_of_apply happly)
  | restart load _ ih =>
    rw [restart_eq load ih]
    exact ih.loaded load
  | load load _ _ ih ihpeer => exact ih.onSnapshotLoad load ihpeer

theorem mirrored (h : LoadReached SinglePlaced s) : s.Mirrored := by
  induction h with
  | start =>
    constructor
    · rintro name table ⟨⟩
    · rintro name table ⟨⟩
  | op event _ hC happly ih => exact ih.effect hC (effect_of_apply happly)
  -- the index of the source plays no part: it is not among the saved files
  | restart load hpeer ih =>
    rw [restart_eq load hpeer.grounded]
    exact ih.loaded load
  | load load _ _ ih ihpeer => exact ihpeer.onSnapshotLoad load ih

end LoadReached

/-! ## Pulls -/

theorem mem_info_pullResponse {snapshot : MetaInfoSnapshot} {name : Bytes} {table : Table}
    {n : Node} {names : List Bytes} {all : Bool} (hlisted : name ∈ tablesOf snapshot.nodeTable n)
    (htable : snapshot.tableInfo.lookup name = some table) :
    table ∈ (pullResponse snapshot (some n) names all).info :=
  mem_filterMap.mpr ⟨name, hlisted, htable⟩

/-- **The index is complete.** In every state reached by single-placed operations and loaded
snapshots, the tables of a replica are listed for it, a pull by the replica is answered with them,
and installing that answer over any view drops none of them. -/
theorem indexed_of_singlePlaced {s : MetaInfo} (h : LoadReached SinglePlaced s) {name : Bytes}
    {table : Table} (htable : s.tableInfo.lookup name = some table) {p : Partition}
    (hp : p ∈ table.partitions) {n : Node} (hn : n ∈ p.replicas) :
    name ∈ tablesOf s.nodeTable n ∧
      ∀ names all, table ∈ (pullResponse s.getSnapshot (some n) names all).info ∧
        ∀ view : Common.MetaInfo, (updateMetaInfo
          (pullResponse s.getSnapshot (some n) names all) view).2.lookup name = none := by
  have hlisted := h.mirrored.indexed name table htable p hp n hn
  refine ⟨hlisted, fun names all => ?_⟩
  have hinfo : table ∈ (pullResponse s.getSnapshot (some n) names all).info :=
    mem_info_pullResponse hlisted htable
  refine ⟨hinfo, fun view => ?_⟩
  rw [lookup_dropped, if_pos]
  exact mem_map.mpr ⟨table, hinfo, h.mirrored.keyed name table htable⟩

/-- A table of two replicas whose slave goes down. -/
def slaveDown : List Event :=
  [ping 1, ping 2, create 2 0 (table 2 [⟨0, .active, some (node 1), [node 2]⟩]), down 2 [2]]

theorem indexed_of_singlePlaced_slaveDown :
    ∃ s, LoadReached SinglePlaced s ∧ bytes "t" ∈ tablesOf s.nodeTable (node 1) := by
  have hplaced : System.Admits SinglePlaced apply start slaveDown := by
    refine .cons trivial rfl (.cons trivial rfl (.cons trivial rfl (.cons ?_ rfl trivial)))
    intro _ n hn name table htable p hp
    have hname : name ∈ [bytes "t"] := UnorderedMap.mem_keys_of_lookup htable
    rw [mem_singleton] at hname
    subst hname
    cases htable
    rw [mem_singleton.mp hn, mem_singleton.mp hp]
    exact ⟨by decide, by decide⟩
  have hreached := LoadReached.of_reachable (reachable_restrict_after _ rfl hplaced)
  have htable : (after slaveDown).tableInfo.lookup (bytes "t") = some
    ⟨bytes "t", [⟨0, .slowdown, some (node 1), []⟩], 2, 0, 1⟩ := rfl
  exact ⟨after slaveDown, hreached,
    (indexed_of_singlePlaced hreached htable mem_cons_self mem_cons_self).1⟩

/-- A node that came back into a place it already had becomes master with itself as slave, and is
then reported down. -/
def twicePlacedDown : List Event := createdOverDown ++ [ping 3, down 6 [1], down 7 [3]]

/-- The node is the master of its table, and no pull of the node returns the table. -/
theorem promoted_unlisted : ∃ s table p, (metaSystem.restrict BuiltByNode).Reachable s ∧
      s.tableInfo.lookup (bytes "t") = some table ∧ p ∈ table.partitions ∧
      p.master = some (node 3) ∧ bytes "t" ∉ tablesOf s.nodeTable (node 3) ∧
      (pullResponse s.getSnapshot (some (node 3)) [] false).info = [] ∧
      ∀ view : Common.MetaInfo, (updateMetaInfo
        (pullResponse s.getSnapshot (some (node 3)) [] false) view).2.lookup (bytes "t") =
          view.tableInfo.lookup (bytes "t") := by
  have hbuilt : System.Admits BuiltByNode apply start twicePlacedDown := by
    refine .cons trivial rfl (.cons trivial rfl (.cons trivial rfl (.cons trivial rfl
      (.cons ?_ rfl (.cons trivial rfl (.cons trivial rfl (.cons trivial rfl
        (.cons trivial rfl trivial))))))))
    intro _
    exact ⟨_, ⟨bytes "t", 1, 3, 0⟩, 3, by decide, by decide, by decide, rfl⟩
  have hinfo : (pullResponse (after twicePlacedDown).getSnapshot (some (node 3)) []
      false).info = [] := rfl
  refine ⟨after twicePlacedDown, _, ⟨0, .slowdown, some (node 3), []⟩,
    reachable_restrict_after _ rfl hbuilt, rfl, by decide, rfl, by decide, hinfo, ?_⟩
  intro view
  rw [lookup_dropped, hinfo, map_nil, if_neg not_mem_nil]

end Noah
