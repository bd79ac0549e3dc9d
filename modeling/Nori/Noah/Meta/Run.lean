import Nori.Transition.System
import Nori.Noah.Meta.Failover
import Nori.Noah.Meta.Failback

/-!
# Runs of `MetaInfo`

The five operations that a committed request can apply to `MetaInfo`, as the steps of a transition
system that starts where `Init` leaves it. Each step has its own surroundings. A migration of a
partition that does not exist is undefined behaviour of the source and no step here.
-/

namespace Noah

open Butil Container Transition MetaInfo Option System

/-- The operations that change the placement. -/
inductive Op
  | updateNode (node : Node)
  | createTable (info : VersionInfo) (table : Table)
  | downNodes (epoch : ℤ) (nodes : List Node)
  | dropTable (info : VersionInfo) (tables : List Bytes)
  | commitMigrate (info : VersionInfo) (processor : Processor)

/-- An operation in its surroundings. -/
structure Event where
  env : Env
  op : Op

/-- The state after an operation. -/
def MetaInfo.apply (s : MetaInfo) (event : Event) : Option MetaInfo :=
  match event.op with
  | .updateNode node => some (s.updateNode event.env node).2
  | .createTable info table => some (s.createTable event.env info table).2
  | .downNodes epoch nodes => some (s.downNodes epoch nodes []).2.2
  | .dropTable info tables => some (s.dropTable info tables).2
  | .commitMigrate info processor => (s.commitMigrate info processor).map (·.2)

/-- `MetaInfo` from `Init` on. -/
def metaSystem : System MetaInfo Event := .ofStep MetaInfo.start MetaInfo.apply

/-- What a step can do to a state: a refused or idle operation leaves it as it was, and every
other one has a single effect. -/
inductive Effect (env : Env) (s : MetaInfo) : Op → MetaInfo → Prop
  | unchanged (op : Op) : Effect env s op s
  | stamped (node : Node) (info : NodeInfo)
      (known : s.nodes.lookup (node2String node) = some info) (up : info.lastAliveTime ≠ 0) :
      Effect env s (.updateNode node) (s.stamp env.clock node)
  | failedBack (node : Node) (info : NodeInfo)
      (known : s.nodes.lookup (node2String node) = some info) (down : info.lastAliveTime = 0) :
      Effect env s (.updateNode node) ((s.stamp env.clock node).updatePartNodeMS node).bumpEpoch
  | registered (node : Node) (unknown : s.nodes.lookup (node2String node) = none) :
      Effect env s (.updateNode node) (s.register env node).bumpEpoch
  | created (table : Table) (absent : s.tableInfo.lookup table.name = none) :
      Effect env s (.createTable s.version table) (s.addTable env table)
  | downed (nodes : List Node) (member : ∃ node ∈ nodes, registeredIn s.nodes node = true) :
      Effect env s (.downNodes s.version.epoch nodes)
        (({ s with nodes := (markDown nodes s.nodes).2 } : MetaInfo).bumpEpoch.generateMigrateTasks
          nodes)
  | dropped (tables : List Bytes) (changed : (tables.foldl MetaInfo.dropOne (false, s)).1 = true) :
      Effect env s (.dropTable s.version tables)
        (tables.foldl MetaInfo.dropOne (false, s)).2.bumpVersion
  | migrated (processor : Processor) (table : Table) (p : Partition)
      (listed : s.tableInfo.lookup processor.task.tableName = some table)
      (partition : table.partitionAt processor.task.partitionId = some p)
      (fresh : ¬(processor.dst = p.getMaster ∨ processor.dst ∈ p.slaves)) :
      Effect env s (.commitMigrate s.version processor) (s.addReplica processor table p)

namespace MetaInfo

variable {s s' : MetaInfo} {env : Env}

open Effect

theorem effect_updateNode (node : Node) :
    Effect env s (.updateNode node) (s.updateNode env node).2 := by
  unfold updateNode
  cases hknown : s.nodes.lookup (node2String node) with
  | some info =>
    by_cases hdown : info.lastAliveTime = 0
    · simpa [hdown] using failedBack node info hknown hdown
    · simpa [hdown] using stamped node info hknown hdown
  | none => exact registered node hknown

variable (info : VersionInfo)

theorem effect_createTable (table : Table) :
    Effect env s (.createTable info table) (s.createTable env info table).2 := by
  unfold createTable
  split
  · exact unchanged _
  · rename_i hcurrent
    rw [not_not] at hcurrent
    subst hcurrent
    split
    · exact unchanged _
    · rename_i habsent
      exact created table habsent

theorem effect_downNodes (epoch : ℤ) (nodes : List Node) :
    Effect env s (.downNodes epoch nodes) (s.downNodes epoch nodes []).2.2 := by
  unfold downNodes
  split
  · exact unchanged _
  · rename_i hcurrent
    rw [not_not] at hcurrent
    subst hcurrent
    cases hmarked : (markDown nodes s.nodes).1 with
    | false =>
      -- an accepted list without a member marks nothing and moves no counter
      have hsame : ({ s with nodes := (markDown nodes s.nodes).2 } : MetaInfo) = s := by
        rw [markDown_eq_self hmarked]
      simpa [hmarked, hsame] using (unchanged _ : Effect env s _ s)
    | true =>
      rw [markDown_eq] at hmarked
      have hmember := List.any_eq_true.mp hmarked
      simpa [markDown_eq, hmarked] using (downed nodes hmember : Effect env s _ _)

theorem effect_dropTable (tables : List Bytes) :
    Effect env s (.dropTable info tables) (s.dropTable info tables).2 := by
  unfold dropTable
  split
  · exact unchanged _
  · rename_i hcurrent
    rw [not_not] at hcurrent
    subst hcurrent
    cases hchanged : (tables.foldl dropOne (false, s)).1 with
    | false =>
      rw [foldl_dropOne_unchanged hchanged]
      exact unchanged _
    | true => simpa [hchanged] using (dropped tables hchanged : Effect env s _ _)

theorem effect_commitMigrate (processor : Processor)
    (h : (s.commitMigrate info processor).map (·.2) = some s') :
    Effect env s (.commitMigrate info processor) s' := by
  unfold commitMigrate at h
  split at h
  · cases h
    exact unchanged _
  · rename_i hcurrent
    rw [not_not] at hcurrent
    subst hcurrent
    split at h
    · cases h
      exact unchanged _
    · rename_i table hlisted
      split at h
      · cases h
      · rename_i p hp
        split at h
        · cases h
          exact unchanged _
        · rename_i hfresh
          cases h
          exact migrated processor table p hlisted hp hfresh

/-- Every step is one of the effects. -/
theorem effect_of_apply {event : Event} (h : s.apply event = some s') :
    Effect event.env s event.op s' := by
  obtain ⟨env, op⟩ := event
  cases op with
  | updateNode node =>
    cases h
    exact effect_updateNode node
  | createTable info table =>
    cases h
    exact effect_createTable info table
  | downNodes epoch nodes =>
    cases h
    exact effect_downNodes epoch nodes
  | dropTable info tables =>
    cases h
    exact effect_dropTable info tables
  | commitMigrate info processor => exact effect_commitMigrate info processor h

end MetaInfo

/-! ## What a step does to the tables -/

section Tables

variable {s s' : MetaInfo} {env : Env}

theorem lookup_addTable {table : Table} (name : Bytes) :
    (s.addTable env table).tableInfo.lookup name =
      if name = table.name then some { table with version := s.version.version + 1 }
      else s.tableInfo.lookup name := by
  rw [addTable, Arrangement.lookup_run, UnorderedMap.lookup_assign]

theorem lookup_addReplica {processor : Processor} {table : Table} {p : Partition}
    (htable : s.tableInfo.lookup processor.task.tableName = some table) (name : Bytes) :
    (s.addReplica processor table p).tableInfo.lookup name = if name = processor.task.tableName then
        some (table.addReplica processor p (s.version.version + 1))
      else s.tableInfo.lookup name := by
  rw [addReplica, UnorderedMap.lookup_replace]
  by_cases h : name = processor.task.tableName
  · subst h
    simp [htable]
  · simp [h]

/-- A property of all tables is kept by a step if a table that comes back, is created, gives up a
node or gets a replica has it. -/
theorem Effect.forall_tables {op : Op} {P : Bytes → Table → Prop} (heffect : Effect env s op s')
    (failback : ∀ node info, op = .updateNode node →
      s.nodes.lookup (node2String node) = some info → info.lastAliveTime = 0 →
      ∀ name table table', s.tableInfo.lookup name = some table →
        TakenBack node (nodeArray s.nodes) s.version.version name table table' → P name table')
    (create : ∀ table, op = .createTable s.version table → s' = s.addTable env table →
      P table.name { table with version := s.version.version + 1 })
    (release : ∀ nodes node name table, P name table →
      P name (migrateFromTable nodes s.version.version node table))
    (migrate : ∀ processor table p, op = .commitMigrate s.version processor →
      s.tableInfo.lookup processor.task.tableName = some table →
      table.partitionAt processor.task.partitionId = some p →
      ¬(processor.dst = p.getMaster ∨ processor.dst ∈ p.slaves) →
      s' = s.addReplica processor table p →
      P processor.task.tableName (table.addReplica processor p (s.version.version + 1)))
    (hs : ∀ name table, s.tableInfo.lookup name = some table → P name table) :
    ∀ name table, s'.tableInfo.lookup name = some table → P name table := by
  cases heffect with
  | unchanged => exact hs
  | stamped node info known up => exact hs
  | failedBack node info known down =>
    intro name table' htable
    obtain ⟨f, hf, hlookup⟩ := lookup_updatePartNodeMS (s.stamp env.clock node) node name
    change ((s.stamp env.clock node).updatePartNodeMS node).tableInfo.lookup name = _ at htable
    rw [hlookup] at htable
    obtain ⟨table, hbefore, rfl⟩ := map_eq_some_iff.mp htable
    -- the stamp changes no key, so the node list is that of the state before
    have htaken := hf table
    rw [nodeArray_stamp] at htaken
    exact failback node info rfl known down name table _ hbefore htaken
  | registered node unknown => exact hs
  | created table absent =>
    intro name table' htable
    rw [lookup_addTable] at htable
    split at htable
    · rename_i hname
      cases htable
      exact hname ▸ create table rfl rfl
    · exact hs name table' htable
  | downed nodes member =>
    -- no node of the list moves the version that the tables are given
    let Q (t : MetaInfo) : Prop := t.version.version = s.version.version ∧
      ∀ name table, t.tableInfo.lookup name = some table → P name table
    suffices hQ : Q (generateMigrateTasks nodes _) from hQ.2
    refine generateMigrateTasks_invariant ?_ ⟨rfl, hs⟩
    rintro t node - ⟨hversion, ht⟩
    refine ⟨by rw [migrateFromNode_version, hversion], fun name table' htable => ?_⟩
    rw [lookup_migrateFromNode] at htable
    split at htable
    · obtain ⟨table, hbefore, rfl⟩ := map_eq_some_iff.mp htable
      rw [hversion]
      exact release t.nodes node name table (ht name table hbefore)
    · exact ht name table' htable
  | dropped tables changed =>
    intro name table htable
    change (tables.foldl dropOne (false, s)).2.tableInfo.lookup name = some table at htable
    rw [lookup_foldl_dropOne] at htable
    split at htable
    · cases htable
    · exact hs name table htable
  | migrated processor table p listed partition fresh =>
    intro name table' htable
    rw [lookup_addReplica listed] at htable
    split at htable
    · rename_i hname
      cases htable
      exact hname ▸ migrate processor table p rfl listed partition fresh rfl
    · exact hs name table' htable

end Tables

/-! ## A small cluster for concrete runs -/

namespace Sample

/-- The clock stands still and the maps keep their order. -/
def env : Env := ⟨⟨1, Nat.one_pos⟩, .keep, .keep⟩

/-- The nodes of one host, told apart by their ports. -/
def node (port : Int32) : Node := ⟨bytes "h", port⟩

def ping (port : Int32) : Event := ⟨env, .updateNode (node port)⟩

def down (epoch : ℤ) (ports : List Int32) : Event := ⟨env, .downNodes epoch (ports.map node)⟩

def create (epoch version : ℤ) (table : Table) : Event := ⟨env, .createTable ⟨epoch, version⟩ table⟩

/-- A table named `t`, before it has a version. -/
def table (duplicateNum : ℤ) (partitions : List Partition) : Table :=
  ⟨bytes "t", partitions, duplicateNum, 0, 0⟩

/-- The state after a list of events from `Init`. -/
def after (events : List Event) : MetaInfo :=
  (events.foldlM MetaInfo.apply MetaInfo.start).getD MetaInfo.start

/-- Whether every event of a list is a step. -/
def accepted (events : List Event) : Bool := (events.foldlM MetaInfo.apply MetaInfo.start).isSome

theorem foldlM_of_accepted {events : List Event} (h : accepted events = true) :
    events.foldlM apply start = some (after events) := by
  obtain ⟨s, hs⟩ := isSome_iff_exists.mp h
  rw [after, hs, getD_some]

theorem reachable_after (events : List Event) (h : accepted events = true) :
    metaSystem.Reachable (after events) :=
  ⟨start, rfl, run_of_foldlM (foldlM_of_accepted h)⟩

theorem reachable_restrict_after {C : MetaInfo → Event → Prop} (events : List Event)
    (h : accepted events = true) (hC : Admits C apply start events) :
    (metaSystem.restrict C).Reachable (after events) :=
  ⟨start, rfl, run_restrict_of_admits hC (foldlM_of_accepted h)⟩

theorem foldlM_of_accepted_append {events more : List Event}
    (h : accepted (events ++ more) = true) :
    more.foldlM apply (after events) = some (after (events ++ more)) := by
  have hall := foldlM_of_accepted h
  rw [List.foldlM_append] at hall
  obtain ⟨s, hs, hmore⟩ := bind_eq_some_iff.mp hall
  have hafter : after events = s := by rw [after, hs, getD_some]
  rwa [hafter]

theorem run_after (events more : List Event) (h : accepted (events ++ more) = true) :
    metaSystem.Run (after events) (after (events ++ more)) :=
  run_of_foldlM (foldlM_of_accepted_append h)

theorem run_restrict_after {C : MetaInfo → Event → Prop} (events more : List Event)
    (h : accepted (events ++ more) = true)
    (hC : Admits C apply (after events) more) :
    (metaSystem.restrict C).Run (after events) (after (events ++ more)) :=
  run_restrict_of_admits hC (foldlM_of_accepted_append h)

end Sample

end Noah
