import Nori.Noah.Meta.Command

/-!
# `MetaServer`: the replicated state machine

A replica applies the committed requests in order, refreshes the stamps of its nodes when it
becomes leader, and may load a snapshot another replica saved. A snapshot is three files: the two
counters, the tables as a protobuf map, and the nodes with their state. Everything else, the index
above all, is built anew from them. Reading or writing a file may fail, and then nothing changes.
-/

namespace Noah

open Butil Container

/-- The contents of the files `version`, `nodes` and `tables`. -/
structure Saved where
  version : VersionInfo
  nodeSnap : List NodeStatus
  tableSnap : TableMap

/-- `SaveSnapshot`, with `ConvertNodeSnap` and `ConvertTableSnap`. -/
def saveSnapshot (s : MetaInfo) : Saved where
  version := s.version
  nodeSnap := nodeStatuses s.nodes
  tableSnap := s.tableInfo

/-- What loading a snapshot takes from its surroundings: a clock reading, the iteration order of
the protobuf map, and the orders of the maps that are filled. -/
structure LoadEnv where
  env : Env
  arrangeSnap : Arrangement Bytes Table

/-- The tables and the index of a snapshot, from a list of tables. -/
def loadTables (entries : List (Σ _ : Bytes, Table)) : TableMap × NodeTableMap :=
  entries.foldl (fun st e => (st.1.assign e.1 e.2, setNodeTable e.2 st.2)) (∅, ∅)

/-- The nodes of a snapshot: those saved as down are down, the others are alive now. -/
def loadNodes (clock : Clock) (nodes : List NodeStatus) : NodeInfoMap :=
  nodes.foldl (fun m ns => m.assign (node2String ns.node)
    ⟨if ns.status = .down then 0 else clock.us⟩) ∅

/-- `SetMetaInfoSnapshot`, after the version was read. -/
def setMetaInfoSnapshot (load : LoadEnv) (saved : Saved) : MetaInfoSnapshot :=
  let tables := loadTables (load.arrangeSnap.run saved.tableSnap).entries
  -- the index is filled in the order of the protobuf map, the table map has its own
  { version := saved.version
    tableInfo := load.env.arrangeTables.run tables.1
    nodeTable := tables.2
    nodes := load.env.arrangeNodes.run (loadNodes load.env.clock saved.nodeSnap) }

namespace MetaInfo

/-- `on_snapshot_load`. -/
def onSnapshotLoad (load : LoadEnv) (saved : Saved) (s : MetaInfo) : MetaInfo :=
  (s.loadFromSnapshot (setMetaInfoSnapshot load saved)).2

/-- A `MetaInfo` that was constructed and not yet initialised. -/
def uninitialized : MetaInfo := ⟨⟨-1, -1⟩, ∅, ∅, ∅⟩

/-- `Init`: nothing happens after a snapshot was loaded. -/
def init (s : MetaInfo) : MetaInfo :=
  if -1 < s.version.epoch then s else { s with version := ⟨0, 0⟩ }

end MetaInfo

namespace MetaServer

/-- A replica that starts without a snapshot. -/
def start : MetaServer := ⟨MetaInfo.start, .empty, none⟩

/-- The states of a replica: it starts empty or from a snapshot, applies requests, answers reads,
becomes leader, and loads snapshots of other replicas. -/
inductive Reached : MetaServer → Prop
  | start : Reached MetaServer.start
  | restart (load : LoadEnv) {peer : MetaServer} (hpeer : Reached peer) :
      Reached { start with metaInfo :=
        (MetaInfo.uninitialized.onSnapshotLoad load (saveSnapshot peer.metaInfo)).init }
  | request (env : Env) (request : MetaCmdRequest) {s s' : MetaServer}
      {response : MetaCmdResponse} (hs : Reached s)
      (hdeal : s.dealRequest env request = some (response, s')) : Reached s'
  | pull (node : Option Node) (names : List Bytes) (all : Bool) {s : MetaServer}
      (hs : Reached s) : Reached (s.dealPull node names all).2
  | list {s : MetaServer} (hs : Reached s) : Reached s.getMetaInfoSnapshot.2
  | refresh (clock : Clock) {s : MetaServer} (hs : Reached s) :
      Reached { s with metaInfo := s.metaInfo.refreshNodes clock }
  | load (load : LoadEnv) {s peer : MetaServer} (hs : Reached s) (hpeer : Reached peer) :
      Reached { s with metaInfo := s.metaInfo.onSnapshotLoad load (saveSnapshot peer.metaInfo) }

end MetaServer

/-! ## What a loaded snapshot holds -/

section Load

variable {load : LoadEnv} {s : MetaInfo}

theorem lookup_loadTables {entries : List (Σ _ : Bytes, Table)} (h : entries.NodupKeys)
    (name : Bytes) : (loadTables entries).1.lookup name = entries.dlookup name := by
  have htables : (loadTables entries).1 = entries.foldl (fun m e => m.assign e.1 (id e.2)) ∅ :=
    (List.foldl_hom Prod.fst fun _ _ => rfl).symm
  rw [htables, UnorderedMap.lookup_foldl_assign id h]
  simp

/-- A loaded snapshot has the tables that were saved. -/
theorem lookup_setMetaInfoSnapshot (name : Bytes) :
    (setMetaInfoSnapshot load (saveSnapshot s)).tableInfo.lookup name =
      s.tableInfo.lookup name := by
  have hnodup := (load.arrangeSnap.run s.tableInfo).nodupKeys
  simp only [setMetaInfoSnapshot, saveSnapshot, Arrangement.lookup_run]
  rw [lookup_loadTables hnodup]
  exact load.arrangeSnap.lookup_run s.tableInfo name

@[simp] theorem setMetaInfoSnapshot_version :
    (setMetaInfoSnapshot load (saveSnapshot s)).version = s.version := rfl

end Load

end Noah
