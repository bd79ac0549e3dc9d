import Nori.Noah.Common.Entity
import Nori.Noah.Meta.Command

/-!
# The view of a node server

`NodeServer` keeps the placement it pulled last. A pull replaces the version, the tables and the
nodes at once, and queues the tables the answer no longer has to be dropped with their data; a
table the node created itself is added, with the version of the answer.
-/

namespace Noah.NodeServer

open Butil Container

variable {view : Common.MetaInfo} {response : MetaCmdResponse}

/-- The loop of `UpdateMetaInfo` over the tables of an answer: the new tables, and what is left of
the old ones. -/
def installTables (tables : List Table) (old : Common.TableMap) :
    Common.TableMap × Common.TableMap :=
  tables.foldl (fun st table =>
    (st.1.assign table.name (.ofMessage table), st.2.erase table.name)) (∅, old)

/-- `UpdateMetaInfo` on an answer with status `OK`: the new view, and the tables to drop. -/
def updateMetaInfo (response : MetaCmdResponse) (view : Common.MetaInfo) :
    Common.MetaInfo × Common.TableMap :=
  let tables := installTables response.info view.tableInfo
  (⟨response.version, tables.1, response.nodeStatus⟩, tables.2)

/-- The end of `CreateTable` on an answer with status `OK`: the version of the view is that of the
answer, and so is the version of the table that is added. -/
def installCreated (version : VersionInfo) (table : Table) (view : Common.MetaInfo) :
    Common.MetaInfo :=
  { view with
    version := version
    tableInfo := view.tableInfo.assign table.name
      (.ofMessage { table with version := version.version }) }

/-- The locked block of `CheckEpoch` with a partition to fill: whether the request is accepted, and
the partition as far as it is filled. -/
def checkEpoch (epoch version : ℤ) (tableName : Bytes) (id : ℤ) (view : Common.MetaInfo) :
    Bool × Option Common.Partition :=
  if view.version.epoch = epoch then
    match view.tableInfo.lookup tableName with
    -- a table the node has never seen is not refused, and nothing is filled in
    | none => (true, none)
    | some table =>
      if version ≠ table.version then (false, none) else (true, table.getPartitionById id)
  else (false, none)

theorem lookup_dropped (name : Bytes) : (updateMetaInfo response view).2.lookup name =
      if name ∈ response.info.map Table.name then none else view.tableInfo.lookup name := by
  have hdropped : (installTables response.info view.tableInfo).2 =
      (response.info.map Table.name).foldl (fun m name => m.erase name) view.tableInfo := by
    rw [List.foldl_map]
    exact (List.foldl_hom Prod.snd fun _ _ => rfl).symm
  simp only [updateMetaInfo, hdropped, UnorderedMap.lookup_foldl_erase]
  split_ifs <;> rfl

theorem installTables_fst (tables : List Table) (old : Common.TableMap) :
    (installTables tables old).1 = tables.foldl (fun m t => m.assign t.name (.ofMessage t)) ∅ :=
  (List.foldl_hom Prod.fst fun _ _ => rfl).symm

theorem installed_of_lookup {name : Bytes} {table : Common.Table}
    (h : (updateMetaInfo response view).1.tableInfo.lookup name = some table) :
    ∃ t ∈ response.info, t.name = name ∧ table = .ofMessage t := by
  simp only [updateMetaInfo, installTables_fst] at h
  exact (UnorderedMap.mem_of_lookup_foldl_assign h).resolve_right (by simp)

end Noah.NodeServer
