import Nori.Noah.Common.Entity
import Nori.Noah.Meta.Command
import Nori.Noah.Meta.Run
import Nori.Noah.Node.CreateTable

/-!
# `Cluster`: the view of a client

A client keeps the tables it uses in the same `common::MetaInfo` as a node server. A pull replaces
the version, the tables and the nodes; a dropped table is erased, and only the version is replaced
with it. A request for the keys of split `i` carries the id `i` and goes to the `i`-th master in the
order of the partition ids, which is the master of partition `i` if the ids count up from zero.
That is how `NodeServer::CreateTable` numbers them, and nothing renumbers a table.
-/

namespace Noah

open Butil Container List

namespace Cluster

/-- `UpdateTableInfo` on an answer with status `OK`. -/
def updateTableInfo (response : MetaCmdResponse) : Common.MetaInfo where
  version := response.version
  tableInfo := response.info.foldl (fun m table => m.assign table.name (.ofMessage table)) ∅
  nodes := response.nodeStatus

/-- The end of `DropTable` on an answer with status `OK`. -/
def dropTable (version : VersionInfo) (tables : List Bytes) (view : Common.MetaInfo) :
    Common.MetaInfo :=
  { view with
    version := version
    tableInfo := tables.foldl (fun m name => m.erase name) view.tableInfo }

/-- `struct RequestInfo`. -/
structure RequestInfo where
  version : VersionInfo
  tableInfo : Common.Table

/-- `FindTable`, once the table is known to the client. -/
def findTable (tableName : Bytes) (view : Common.MetaInfo) : Option RequestInfo :=
  (view.tableInfo.lookup tableName).map fun table => ⟨view.version, table⟩

theorem lookup_updateTableInfo {response : MetaCmdResponse} {name : Bytes} {table : Common.Table}
    (h : (updateTableInfo response).tableInfo.lookup name = some table) :
    ∃ t ∈ response.info, t.name = name ∧ table = .ofMessage t := by
  exact (UnorderedMap.mem_of_lookup_foldl_assign h).resolve_right (by simp)

theorem lookup_updateTableInfo_of_mem {response : MetaCmdResponse} {t : Table}
    (ht : t ∈ response.info) (honly : ∀ u ∈ response.info, u.name = t.name → u = t) :
    (updateTableInfo response).tableInfo.lookup t.name = some (.ofMessage t) := by
  have hsome : ((updateTableInfo response).tableInfo.lookup t.name).isSome = true :=
    UnorderedMap.isSome_lookup_foldl_assign (.inl ⟨t, ht, rfl⟩)
  obtain ⟨table, htable⟩ := Option.isSome_iff_exists.mp hsome
  obtain ⟨u, hu, hname, rfl⟩ := lookup_updateTableInfo htable
  exact honly u hu hname ▸ htable

theorem lookup_dropTable {version : VersionInfo} {tables : List Bytes} {view : Common.MetaInfo}
    (name : Bytes) :
    (dropTable version tables view).tableInfo.lookup name =
      if name ∈ tables then none else view.tableInfo.lookup name := by
  rw [dropTable, UnorderedMap.lookup_foldl_erase]
  split_ifs <;> rfl

end Cluster

/-! ## Routing -/

namespace Common.Table

/-- `GetAllMasters` into a vector. -/
def getAllMasters (t : Common.Table) : List Node := t.partitions.entries.map (·.2.master)

/-- The partition that stands behind `nodes[i]`, to which a client sends the keys of split `i`. -/
def routed (t : Common.Table) (i : ℕ) : Option Common.Partition :=
  t.partitions.entries[i]?.map (·.2)

def getPartition (t : Common.Table) (key : Bytes) : Option Common.Partition :=
  if t.partitions.entries = [] then none
  else t.getPartitionById ((Butil.hash key).toNat % t.partitions.entries.length : ℕ)

/-- The ids of the partitions count up from zero. -/
def Numbered (t : Common.Table) : Prop :=
  t.partitions.entries.map Prod.fst = (range t.partitionNum).map Nat.cast

instance (t : Common.Table) : Decidable t.Numbered := inferInstanceAs (Decidable (_ = _))

theorem Numbered.length_entries {t : Common.Table} (h : t.Numbered) :
    t.partitions.entries.length = t.partitionNum := by
  simpa using congrArg length h

theorem Numbered.routed {t : Common.Table} (h : t.Numbered) {i : ℕ} (hi : i < t.partitionNum) :
    ∃ p, t.routed i = some p ∧ t.getPartitionById i = some p := by
  obtain ⟨e, he⟩ : ∃ e, t.partitions.entries[i]? = some e :=
    ⟨_, getElem?_eq_getElem (h.length_entries ▸ hi)⟩
  have hid : e.1 = i := by
    have hplace := congrArg (·[i]?) h
    simpa [he, getElem?_range hi] using hplace
  refine ⟨e.2, by simp [Common.Table.routed, he], ?_⟩
  rw [getPartitionById, OrderedMap.find?_eq_some_iff, ← hid]
  exact mem_of_getElem? he

theorem getAllMasters_getElem? (t : Common.Table) (i : ℕ) :
    t.getAllMasters[i]? = (t.routed i).map (·.master) := by
  simp [getAllMasters, routed, Function.comp_def]

end Common.Table

namespace Partition

variable {p : Partition}

@[simp] theorem migrateFrom_id (registered : Node → Bool) (node : Node) :
    (p.migrateFrom registered node).id = p.id := by
  unfold migrateFrom release settle
  split_ifs <;> rfl

theorem foldl_takeSlot_id (node : Node) (nodes : List Node) (base : ℕ) (js : List ℕ) :
    (js.foldl (takeSlot node nodes base) p).id = p.id := by
  induction js generalizing p with
  | nil => rfl
  | cons j js ih =>
    rw [foldl_cons, ih]
    unfold takeSlot failback
    split_ifs <;> [split; rfl; rfl] <;> [rfl; split_ifs <;> rfl]

@[simp] theorem takeBack_id (node : Node) (nodes : List Node) (dupSize base : ℕ) :
    (p.takeBack node nodes dupSize base).id = p.id := by
  unfold takeBack
  split_ifs
  · rfl
  · exact foldl_takeSlot_id node nodes base _

@[simp] theorem addReplica_id (role : Role) (dst : Node) (duplicateNum : ℤ) :
    (p.addReplica role dst duplicateNum).id = p.id := by
  unfold addReplica
  simp only
  split_ifs <;> rfl

end Partition

namespace Table

variable {table table' : Table}

/-- The ids of the partitions, in the order of the message. -/
def ids (table : Table) : List ℤ := table.partitions.map (·.id)

@[simp] theorem ids_migrateFromTable (nodes : NodeInfoMap) (version : ℤ) (node : Node) :
    (migrateFromTable nodes version node table).ids = table.ids := by
  simp [ids, migrateFromTable, Function.comp_def]

theorem ids_of_takenBack {node : Node} {nodes : List Node} {version : ℤ} {name : Bytes}
    (h : TakenBack node nodes version name table table') : table'.ids = table.ids := by
  rw [ids, h.partitions_eq, Table.takeBack]
  refine ext_getElem (by simp [ids]) ?_
  intro i _ _
  simp [ids]

theorem ids_addReplica {processor : Processor} {p : Partition} {version : ℤ}
    (hp : table.partitionAt processor.task.partitionId = some p) :
    (table.addReplica processor p version).ids = table.ids := by
  unfold partitionAt at hp
  split at hp
  · -- the partition is put back in its own place
    obtain ⟨_, rfl⟩ := List.getElem?_eq_some_iff.mp hp
    refine ext_getElem (by simp [ids, Table.addReplica]) ?_
    intro i _ _
    simp only [ids, Table.addReplica, getElem_map, getElem_set]
    split
    · rename_i hi
      subst hi
      exact Partition.addReplica_id _ _ _
    · rfl
  · cases hp

end Table

theorem Effect.ids {s s' : MetaInfo} {env : Env} {op : Op} (heffect : Effect env s op s')
    {name : Bytes} {table' : Table} (h : s'.tableInfo.lookup name = some table') :
    (∃ info created, op = .createTable info created ∧ table'.ids = created.ids) ∨
      ∃ table, s.tableInfo.lookup name = some table ∧ table'.ids = table.ids := by
  refine heffect.forall_tables (P := fun name table' =>
    (∃ info created, op = .createTable info created ∧ table'.ids = created.ids) ∨
      ∃ table, s.tableInfo.lookup name = some table ∧ table'.ids = table.ids) ?_ ?_ ?_ ?_ ?_
    name table' h
  · intro node info _ _ _ name table table' htable htaken
    exact .inr ⟨table, htable, Table.ids_of_takenBack htaken⟩
  · rintro table rfl -
    exact .inl ⟨_, table, rfl, rfl⟩
  · intro nodes node name table htable
    rwa [Table.ids_migrateFromTable]
  · intro processor table p _ hlisted hp _ _
    exact .inr ⟨table, hlisted, Table.ids_addReplica hp⟩
  · exact fun name table htable => .inr ⟨table, htable, rfl⟩

/-- The ids of the partitions count up from zero. -/
def Table.Numbered (table : Table) : Prop :=
  ∀ i (h : i < table.partitions.length), (table.partitions[i]).id = i

instance (table : Table) : Decidable table.Numbered :=
  inferInstanceAs (Decidable (∀ i (h : i < table.partitions.length), (table.partitions[i]).id = i))

namespace Table.Numbered

variable {table table' : Table}

theorem of_ids (h : table.Numbered) (hids : table'.ids = table.ids) : table'.Numbered := by
  intro i hi
  unfold ids at hids
  have hlength : table'.partitions.length = table.partitions.length := by
    simpa using congrArg length hids
  have hid := getElem_of_eq hids (i := i) (by simpa using hi)
  rw [getElem_map, getElem_map] at hid
  rw [hid, h i (hlength ▸ hi)]

theorem entries_ofMessage (h : table.Numbered) : (Common.Table.ofMessage table).partitions.entries =
      table.partitions.map fun p => (p.id, .ofMessage p) := by
  -- the ids grow along the table, so the map keeps the order of the message
  have hsorted : (table.partitions.map fun p => (p.id, Common.Partition.ofMessage p)).Pairwise
      fun a b => a.1 < b.1 := by
    rw [pairwise_map, pairwise_iff_getElem]
    intro i j hi hj hij
    rw [h i hi, h j hj]
    omega
  have hentries := OrderedMap.entries_foldl_emplace (m := ∅) (by simpa using hsorted)
  rwa [foldl_map] at hentries

/-- In a numbered table, split `i` is sent to partition `i`. -/
theorem routed_eq (h : table.Numbered) (i : ℕ) : (Common.Table.ofMessage table).routed i =
      (Common.Table.ofMessage table).getPartitionById i := by
  ext q
  rw [Common.Table.routed, Common.Table.getPartitionById, OrderedMap.find?_eq_some_iff,
    h.entries_ofMessage]
  constructor
  · intro hq
    simp only [getElem?_map, Option.map_map, Option.map_eq_some_iff] at hq
    obtain ⟨p, hp, rfl⟩ := hq
    obtain ⟨hi, rfl⟩ := List.getElem?_eq_some_iff.mp hp
    exact mem_map.mpr ⟨_, getElem_mem hi, by rw [h i hi]; rfl⟩
  · intro hq
    obtain ⟨p, hp, heq⟩ := mem_map.mp hq
    obtain ⟨j, hj, rfl⟩ := mem_iff_getElem.mp hp
    obtain ⟨hid, rfl⟩ := Prod.mk.inj heq
    rw [h j hj, Int.natCast_inj] at hid
    subst hid
    simp [getElem?_eq_getElem hj]

end Table.Numbered

/-- Every table of a state is numbered. -/
def MetaInfo.Numbered (s : MetaInfo) : Prop :=
  ∀ name table, s.tableInfo.lookup name = some table → table.Numbered

theorem MetaInfo.Numbered.effect {s s' : MetaInfo} {env : Env} {op : Op}
    (hop : ∀ info table, op = .createTable info table → table.Numbered)
    (heffect : Effect env s op s') (h : s.Numbered) : s'.Numbered := by
  intro name table' htable'
  rcases heffect.ids htable' with ⟨info, created, hcreated, hids⟩ | ⟨table, htable, hids⟩
  · exact (hop info created hcreated).of_ids hids
  · exact (h name table htable).of_ids hids

end Noah
