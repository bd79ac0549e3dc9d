import Nori.Noah.Meta.Replication

/-!
# Saving and loading the placement

What becomes of a state that is saved in the three files of a snapshot and loaded into an older
one. The counters, the tables and the nodes with their state come back whenever the addresses of
the nodes are proper. The index is not saved but built anew from the tables, so a pull by node
finds the same tables only if the index listed each table for exactly the nodes its partitions
name. A failback breaks that: it lists every table with an inactive partition for the node that
came back, whether the node has a place there or not.
-/

namespace Noah

open Butil Container MetaInfo List Option

variable {s s' : MetaInfo} {env : Env}

/-- A loaded state has the version, the tables and the nodes of the saved one, and answers pulls
by node with the same tables. -/
structure MetaInfo.RestoredBy (s loaded : MetaInfo) : Prop where
  version_eq : loaded.version = s.version
  tables_eq : ∀ name, loaded.tableInfo.lookup name = s.tableInfo.lookup name
  state_eq : ∀ key, loaded.stateOf key = s.stateOf key
  pull_eq : ∀ node names all, (pullResponse loaded.getSnapshot (some node) names all).info =
    (pullResponse s.getSnapshot (some node) names all).info

/-- The index lists a table for exactly the nodes its partitions name, which is the empty node
where the master is absent. -/
def MetaInfo.ExactlyListed (s : MetaInfo) : Prop :=
  ∀ name table, s.tableInfo.lookup name = some table →
    ∀ node, name ∈ tablesOf s.nodeTable node ↔ node ∈ table.visited

/-! ## Addresses -/

/-- A request whose ping, if it is one, comes from a proper address. -/
def ProperRequest (request : MetaCmdRequest) : Prop :=
  ∀ node, request.cmd = .ping node → node.Proper

/-- Every member has a proper address. -/
def KeysProper (nodes : NodeInfoMap) : Prop :=
  ∀ key ∈ nodes.keys, ∃ node : Node, node.Proper ∧ key = node2String node

theorem KeysProper.readable {nodes : NodeInfoMap} (h : KeysProper nodes) :
    ∀ key ∈ nodes.keys, node2String (string2Node key default) = key := by
  intro key hkey
  obtain ⟨node, hproper, rfl⟩ := h key hkey
  rw [string2Node_node2String hproper]

theorem MetaInfo.foldl_dropOne_nodes (tables : List Bytes) (st : Bool × MetaInfo) :
    (tables.foldl dropOne st).2.nodes = st.2.nodes := by
  induction tables generalizing st with
  | nil => rfl
  | cons name tables ih =>
    rw [foldl_cons, ih, dropOne]
    split <;> rfl

theorem Effect.mem_keys {op : Op} (heffect : Effect env s op s') {key : Bytes}
    (h : key ∈ s'.nodes.keys) :
    key ∈ s.nodes.keys ∨ ∃ node, op = .updateNode node ∧ key = node2String node := by
  have hstamp (node : Node) : (s.stamp env.clock node).nodes.keys = s.nodes.keys :=
    AList.keys_replace _ _ _
  cases heffect with
  | unchanged => exact .inl h
  | stamped node info known up | failedBack node info known down => exact .inl (hstamp node ▸ h)
  | registered node unknown =>
    have hrun : (s.register env node).nodes.keys.Perm
        (s.nodes.insert (node2String node) ⟨env.clock.us⟩).keys :=
      (env.arrangeNodes.perm _).map _
    have hinsert := hrun.mem_iff.mp h
    rw [← AList.mem_keys, AList.mem_insert] at hinsert
    exact hinsert.symm.imp_right fun hkey => ⟨node, rfl, hkey⟩
  | created table absent => exact .inl h
  | downed nodes member =>
    rw [generateMigrateTasks_nodes] at h
    exact .inl (Tracked.keys_markDown nodes s.nodes ▸ h)
  | dropped tables changed =>
    have hnodes := foldl_dropOne_nodes tables (false, s)
    exact .inl (hnodes ▸ h)
  | migrated processor table p listed partition fresh => exact .inl h

theorem KeysProper.effect {op : Op} (heffect : Effect env s op s')
    (hop : ∀ node, op = .updateNode node → node.Proper) (h : KeysProper s.nodes) :
    KeysProper s'.nodes := by
  intro key hkey
  rcases heffect.mem_keys hkey with hold | ⟨node, hping, rfl⟩
  · exact h key hold
  · exact ⟨node, hop node hping, rfl⟩

theorem KeysProper.loaded (load : LoadEnv) (h : KeysProper s.nodes) :
    KeysProper (setMetaInfoSnapshot load (saveSnapshot s)).nodes := by
  intro key hkey
  refine h key ?_
  have hstate := state_loadNodes load.env.clock h.readable key
  have hloaded : (setMetaInfoSnapshot load (saveSnapshot s)).nodes.lookup key =
      (loadNodes load.env.clock (nodeStatuses s.nodes)).lookup key :=
    Arrangement.lookup_run _ _ _
  rw [← AList.mem_keys, ← AList.lookup_isSome] at hkey ⊢
  rw [← isSome_map, hloaded, hstate, isSome_map] at hkey
  exact hkey

section Replicas

variable {log : List MetaCmdRequest} {server : MetaServer}

theorem MetaServer.op_ping {request : MetaCmdRequest} {op : Op} {node : Node}
    (hop : request.op = some op) (hnode : op = .updateNode node) : request.cmd = .ping node := by
  obtain ⟨version, cmd⟩ := request
  subst hnode
  cases cmd <;> simp [MetaCmdRequest.op] at hop
  rw [hop]

/-- Every member has a proper address. -/
theorem Replica.keysProper
    (h : Replica (fun _ _ request => ProperRequest request) (fun _ => True) log server) :
    KeysProper server.metaInfo.nodes := by
  induction h with
  | start => rintro key ⟨⟩
  | restart load hs _ ih =>
    rw [restart_eq load hs.reached.grounded]
    exact ih.loaded load
  | lead clock _ ih =>
    intro key hkey
    refine ih key ?_
    rw [refreshNodes, AList.keys, UnorderedMap.traverse] at hkey
    rwa [UnorderedMap.keys_traverseEntries] at hkey
  | apply env request _ hC hdeal ih =>
    cases hop : request.op with
    | none => rwa [MetaServer.metaInfo_of_dealRequest hop hdeal]
    | some op =>
      refine ih.effect (effect_of_apply (MetaServer.apply_of_dealRequest hop hdeal)) ?_
      exact fun node hnode => hC node (MetaServer.op_ping hop hnode)

end Replicas

/-! ## The index -/

theorem MetaInfo.Keyed.mem_tablesOf_loaded (h : s.Keyed) (load : LoadEnv) {name : Bytes}
    {table : Table} (htable : s.tableInfo.lookup name = some table) {node : Node} :
    name ∈ tablesOf (setMetaInfoSnapshot load (saveSnapshot s)).nodeTable node ↔
      node ∈ table.visited := by
  have hentries (e : Σ _ : Bytes, Table) :
      e ∈ (load.arrangeSnap.run s.tableInfo).entries ↔ s.tableInfo.lookup e.1 = some e.2 := by
    rw [(load.arrangeSnap.perm s.tableInfo).mem_iff]
    exact (mem_dlookup_iff s.tableInfo.nodupKeys).symm
  refine mem_tablesOf_loadTables.trans ⟨?_, fun hnode => ?_⟩
  · rintro ⟨e, he, hnode, hname⟩
    -- the name inside a table is the key it was stored under, so the entry is the one asked for
    have hkey := h e.1 e.2 ((hentries e).mp he)
    have hfound := (hentries e).mp he
    rw [← hkey, ← hname, htable, some.injEq] at hfound
    exact hfound ▸ hnode
  · exact ⟨⟨name, table⟩, (hentries _).mpr htable, hnode, (h name table htable).symm⟩

theorem MetaInfo.Keyed.mem_info_pull (h : s.Keyed) {name : Bytes} {table : Table}
    (htable : s.tableInfo.lookup name = some table) {node : Node} (names : List Bytes)
    (all : Bool) : table ∈ (pullResponse s.getSnapshot (some node) names all).info ↔
      name ∈ tablesOf s.nodeTable node := by
  refine ⟨fun hinfo => ?_, fun hlisted => mem_info_pullResponse hlisted htable⟩
  obtain ⟨name', hlisted, htable'⟩ := mem_filterMap.mp hinfo
  have hname : name' = name := by rw [← h name' table htable', h name table htable]
  exact hname ▸ hlisted

/-- Pulls by node find the same tables in two states with the same tables exactly where the
indexes agree on them. -/
theorem MetaInfo.Keyed.pull_eq_iff (h : s.Keyed) {loaded : MetaInfo}
    (htables : ∀ name, loaded.tableInfo.lookup name = s.tableInfo.lookup name) :
    (∀ node names all, (pullResponse loaded.getSnapshot (some node) names all).info =
        (pullResponse s.getSnapshot (some node) names all).info) ↔
      ∀ name table, s.tableInfo.lookup name = some table → ∀ node,
        name ∈ tablesOf loaded.nodeTable node ↔ name ∈ tablesOf s.nodeTable node := by
  have hloaded : loaded.Keyed := fun name table htable => h name table (htables name ▸ htable)
  constructor
  · intro hpull name table htable node
    rw [← hloaded.mem_info_pull ((htables name).trans htable) [] false,
      ← h.mem_info_pull htable [] false, hpull]
  · intro hindex node names all
    have hlookup : loaded.tableInfo.lookup = s.tableInfo.lookup := funext htables
    simp only [pullResponse, pullTables, getSnapshot, hlookup]
    refine OrderedSet.filterMap_elems_congr fun name hname => ?_
    obtain ⟨table, htable⟩ := isSome_iff_exists.mp hname
    exact hindex name table htable node

/-! ## The round trip -/

/-- **A saved state comes back whole exactly when it is exactly listed.** Whatever the clock and
the iteration orders at the load, and whatever the older state it replaces. -/
theorem restoredBy_iff {log : List MetaCmdRequest} {server : MetaServer}
    (h : Replica (fun _ _ request => ProperRequest request) (fun _ => True) log server)
    (load : LoadEnv) {old : MetaInfo} (hold : server.metaInfo.changed old.version = true) :
    server.metaInfo.RestoredBy (old.onSnapshotLoad load (saveSnapshot server.metaInfo)) ↔
      server.metaInfo.ExactlyListed := by
  have hnewer : ¬(server.metaInfo.version.epoch ≤ old.version.epoch ∧
      server.metaInfo.version.version ≤ old.version.version) := by
    simp only [changed, Bool.or_eq_true, decide_eq_true_eq] at hold
    omega
  have hload : old.onSnapshotLoad load (saveSnapshot server.metaInfo) =
      setMetaInfoSnapshot load (saveSnapshot server.metaInfo) := by
    rw [onSnapshotLoad, loadFromSnapshot, setMetaInfoSnapshot_version, if_neg hnewer]
  have htables (name : Bytes) : (setMetaInfoSnapshot load
      (saveSnapshot server.metaInfo)).tableInfo.lookup name =
        server.metaInfo.tableInfo.lookup name := lookup_setMetaInfoSnapshot name
  have hindex := h.keyed.pull_eq_iff htables
  rw [hload]
  constructor
  · intro hrestored name table htable node
    rw [← hindex.mp hrestored.pull_eq name table htable node]
    exact h.keyed.mem_tablesOf_loaded load htable
  · intro hlisted
    refine ⟨rfl, htables, fun key => ?_, hindex.mpr fun name table htable node => ?_⟩
    · rw [stateOf, stateOf, ← state_loadNodes load.env.clock h.keysProper.readable]
      simp only [setMetaInfoSnapshot, saveSnapshot, Arrangement.lookup_run]
    · rw [h.keyed.mem_tablesOf_loaded load htable, hlisted name table htable node]

namespace Sample

theorem properRequest_ping (port : Int32) : ProperRequest (pingRequest port) := by
  rintro n ⟨⟩
  exact ⟨show (58 : UInt8) ∉ bytes "h" by decide, rfl, rfl⟩

/-- A table of one replica, saved right after it was created. -/
def createdLog : List MetaCmdRequest := [pingRequest 1, initRequest]

theorem proper_createdLog : ∀ request ∈ createdLog, ProperRequest request := by
  intro request hrequest
  rcases mem_cons.mp hrequest with rfl | hrequest
  · exact properRequest_ping 1
  · rw [mem_singleton.mp hrequest]
    rintro n ⟨⟩

/-- The only replica of a table goes down, then another node goes down and comes back. -/
def strayFailback : List MetaCmdRequest :=
  [pingRequest 1, pingRequest 2, ⟨⟨2, 0⟩, .init (table 1 [⟨0, .active, some (Sample.node 1), []⟩])⟩,
    downRequest 2 1, downRequest 3 2, pingRequest 2]

theorem proper_strayFailback : ∀ request ∈ strayFailback, ProperRequest request := by
  have hinit : ProperRequest ⟨⟨2, 0⟩,
      .init (table 1 [⟨0, .active, some (Sample.node 1), []⟩])⟩ := by
    rintro n ⟨⟩
  have hdown (epoch : ℤ) (port : Int32) : ProperRequest (downRequest epoch port) := by rintro n ⟨⟩
  simp only [strayFailback, forall_mem_cons]
  exact ⟨properRequest_ping 1, properRequest_ping 2, hinit, hdown 2 1, hdown 3 2,
    properRequest_ping 2, by simp⟩

end Sample

theorem restoredBy_iff_created :
    ∃ server : MetaServer, server.metaInfo.ExactlyListed ∧ server.metaInfo.RestoredBy
      (MetaInfo.uninitialized.onSnapshotLoad ⟨Sample.env, .keep⟩
        (saveSnapshot server.metaInfo)) := by
  have hreplica := Sample.replica_of_replayed Sample.env Sample.proper_createdLog
    (s := ⟨Sample.created.metaInfo, .empty, some start⟩) rfl
  have hlisted : Sample.created.metaInfo.ExactlyListed := by
    intro name table htable node
    have hname : name ∈ [bytes "t"] := UnorderedMap.mem_keys_of_lookup htable
    rw [mem_singleton] at hname
    subst hname
    cases htable
    have hindex : Sample.created.metaInfo.nodeTable =
        setNodeTable (Sample.table 1 [⟨0, .active, some (Sample.node 1), []⟩]) ∅ := rfl
    rw [hindex, mem_tablesOf_setNodeTable]
    simp [tablesOf, Sample.table, Table.visited]
  exact ⟨_, hlisted, (restoredBy_iff hreplica ⟨Sample.env, .keep⟩ rfl).mpr hlisted⟩

/-- The node that came back is listed for a table it has no place in, until the state is saved and
loaded. -/
theorem strayFailback_not_restored :
    ∃ server, Replica (fun _ _ request => ProperRequest request) (fun _ => True)
        Sample.strayFailback server ∧
      server.metaInfo.changed MetaInfo.uninitialized.version = true ∧
      (pullResponse server.metaInfo.getSnapshot (some (Sample.node 2)) [] false).info =
        [⟨bytes "t", [⟨0, .stuck, none, []⟩], 1, 0, 1⟩] ∧
      (pullResponse (MetaInfo.uninitialized.onSnapshotLoad ⟨Sample.env, .keep⟩
        (saveSnapshot server.metaInfo)).getSnapshot (some (Sample.node 2)) [] false).info = [] ∧
      ¬server.metaInfo.RestoredBy (MetaInfo.uninitialized.onSnapshotLoad ⟨Sample.env, .keep⟩
        (saveSnapshot server.metaInfo)) := by
  refine ⟨_, Sample.replica_of_replayed Sample.env Sample.proper_strayFailback rfl, rfl, rfl, rfl,
    fun h => ?_⟩
  have hpull := h.pull_eq (Sample.node 2) [] false
  exact absurd hpull (by decide)

end Noah
