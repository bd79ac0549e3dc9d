import Nori.Noah.Meta.Fencing
import Nori.Noah.Meta.Server

/-!
# What a response status says

`MetaInfo` reports the outcome of an operation as a `VersionInfo` whose epoch doubles as an error
code, and the handlers read an epoch of zero as a failure. Before the first ping zero is the real
epoch, so a request that was carried out is then reported as refused. From the first ping on a
status is wrong only for a migration to the empty node, which an absent master is taken for.
-/

namespace Noah

open Butil Container Transition MetaServer Option List

variable {s s' : MetaServer} {env : Env} {request : MetaCmdRequest}

/-! ## Requests are operations -/

/-- The operation a committed request applies to `MetaInfo`, if any. -/
def MetaCmdRequest.op (request : MetaCmdRequest) : Option Op :=
  match request.cmd with
  | .ping node => some (.updateNode node)
  | .init table => some (.createTable request.version table)
  | .dropTable names => some (.dropTable request.version names)
  | .downNodes nodes => some (.downNodes request.version.epoch nodes)
  | .migrate unit => some (.commitMigrate request.version unit)
  | _ => none

variable {response : MetaCmdResponse}

theorem MetaServer.apply_of_dealRequest {op : Op}
    (hop : request.op = some op) (h : s.dealRequest env request = some (response, s')) :
    s.metaInfo.apply ⟨env, op⟩ = some s'.metaInfo := by
  obtain ⟨version, cmd⟩ := request
  cases cmd with
  -- the task queue may answer a ping too, but only after the node was updated
  | ping node =>
    cases hop
    simp only [dealRequest, dealPing, getMetaInfoSnapshot_metaInfo] at h
    split at h
    · obtain ⟨r, -, hr⟩ := map_eq_some_iff.mp h
      rw [← (Prod.mk.inj hr).2]
      simp [MetaInfo.apply]
    · cases h
      simp [MetaInfo.apply]
  | init _ | dropTable _ | downNodes _ =>
    cases hop
    simp only [dealRequest, dealInit, dealDropTable, dealDownNodes] at h
    split_ifs at h <;> cases h <;> rfl
  | migrate unit =>
    cases hop
    simp only [dealRequest, dealMigrate] at h
    obtain ⟨r, hr, hresult⟩ := map_eq_some_iff.mp h
    simp only [MetaInfo.apply, hr, map_some]
    split at hresult <;> cases hresult <;> rfl
  | pull _ _ _ | listTable | listNode | unsupported => cases hop

theorem MetaServer.metaInfo_of_dealRequest (hop : request.op = none)
    (h : s.dealRequest env request = some (response, s')) : s'.metaInfo = s.metaInfo := by
  obtain ⟨version, cmd⟩ := request
  cases cmd with
  | ping _ | init _ | dropTable _ | downNodes _ | migrate _ => cases hop
  | pull _ _ _ | listTable | listNode | unsupported =>
    cases h
    rfl

open MetaInfo

theorem MetaServer.invariant_of_dealRequest {P : MetaInfo → Prop}
    (hP : ∀ {t t' op}, Effect env t op t' → P t → P t')
    (h : s.dealRequest env request = some (response, s')) (hs : P s.metaInfo) :
    P s'.metaInfo := by
  cases hop : request.op with
  | none => rwa [metaInfo_of_dealRequest hop h]
  | some op => exact hP (effect_of_apply (apply_of_dealRequest hop h)) hs

/-! ## Epoch zero -/

/-- The epoch is not negative, and at epoch zero no node is registered. -/
structure MetaInfo.Grounded (s : MetaInfo) : Prop where
  epoch_nonneg : 0 ≤ s.version.epoch
  nodes_nil : s.version.epoch = 0 → s.nodes.entries = []

namespace MetaInfo.Grounded

variable {t t' : MetaInfo}

theorem of_epoch_succ (h : t.Grounded) (hepoch : t'.version.epoch = t.version.epoch + 1) :
    t'.Grounded where
  epoch_nonneg := by
    have := h.epoch_nonneg
    omega
  nodes_nil := by
    have := h.epoch_nonneg
    omega

theorem of_frame (h : t.Grounded) (hepoch : t'.version.epoch = t.version.epoch)
    (hnodes : t'.nodes = t.nodes) : t'.Grounded where
  epoch_nonneg := hepoch ▸ h.epoch_nonneg
  nodes_nil := by
    rw [hepoch, hnodes]
    exact h.nodes_nil

theorem effect {op : Op} (h : t.Grounded) (heffect : Effect env t op t') : t'.Grounded := by
  cases heffect with
  | unchanged => exact h
  | stamped node info known up =>
    refine ⟨h.epoch_nonneg, fun hzero => ?_⟩
    -- a known node is a registered one
    have hnone : t.nodes.lookup (node2String node) = none := by
      rw [AList.lookup, h.nodes_nil hzero, dlookup_nil]
    rw [hnone] at known
    cases known
  | failedBack node info known down | registered node unknown => exact h.of_epoch_succ rfl
  | created table absent | migrated processor table p listed partition fresh =>
    exact h.of_frame rfl rfl
  | downed nodes member =>
    refine h.of_epoch_succ ?_
    rw [generateMigrateTasks_version]
    rfl
  | dropped tables changed =>
    have hframe := foldl_dropOne_frame tables (false, t)
    exact h.of_frame (by rw [bumpVersion, hframe.1]) hframe.2

theorem loaded (load : LoadEnv) (h : t.Grounded) :
    (setMetaInfoSnapshot load (saveSnapshot t)).Grounded := { h with
  nodes_nil hzero := by
    have hperm := load.env.arrangeNodes.perm (loadNodes load.env.clock (nodeStatuses t.nodes))
    rw [nodeStatuses, h.nodes_nil hzero] at hperm
    simp only [setMetaInfoSnapshot, saveSnapshot, nodeStatuses, h.nodes_nil hzero]
    exact hperm.eq_nil }

theorem onSnapshotLoad (load : LoadEnv) (h : t.Grounded) (h' : t'.Grounded) :
    (t.onSnapshotLoad load (saveSnapshot t')).Grounded := by
  unfold MetaInfo.onSnapshotLoad loadFromSnapshot
  split
  · exact h
  · exact h'.loaded load

end MetaInfo.Grounded

theorem MetaInfo.restart_eq (load : LoadEnv) {t : MetaInfo} (h : t.Grounded) :
    (uninitialized.onSnapshotLoad load (saveSnapshot t)).init =
      setMetaInfoSnapshot load (saveSnapshot t) := by
  have hepoch := h.epoch_nonneg
  have hload : uninitialized.onSnapshotLoad load (saveSnapshot t) =
      setMetaInfoSnapshot load (saveSnapshot t) := by
    have hnew : ¬((setMetaInfoSnapshot load (saveSnapshot t)).version.epoch ≤
        uninitialized.version.epoch ∧ (setMetaInfoSnapshot load (saveSnapshot t)).version.version ≤
        uninitialized.version.version) := by
      simp only [setMetaInfoSnapshot_version, uninitialized]
      omega
    rw [onSnapshotLoad, loadFromSnapshot, if_neg hnew]
  rw [hload, init, if_pos]
  simp only [setMetaInfoSnapshot_version]
  omega

/-- At epoch zero there are no nodes. -/
theorem MetaServer.Reached.grounded (h : s.Reached) : s.metaInfo.Grounded := by
  induction h with
  | start => exact ⟨le_rfl, fun _ => rfl⟩
  | restart load _ ih =>
    rw [restart_eq load ih]
    exact ih.loaded load
  | request env request _ hdeal ih =>
    exact invariant_of_dealRequest (fun heffect ht => ht.effect heffect) hdeal ih
  | pull node names all _ ih => simpa [dealPull] using ih
  | list _ ih => simpa using ih
  | refresh clock _ ih =>
    refine ⟨ih.epoch_nonneg, fun hzero => ?_⟩
    have hnil := ih.nodes_nil hzero
    simp only [refreshNodes, UnorderedMap.traverse, hnil]
    rfl
  | load load _ _ ih ih' => exact ih.onSnapshotLoad load ih'

/-! ## The truth of a status -/

/-- The effect a successful command promises. -/
def InForce (cmd : MetaCmd) (s s' : MetaInfo) : Prop :=
  match cmd with
  | .init table => ∃ table', s'.tableInfo.lookup table.name = some table' ∧
      table'.partitions = table.partitions
  | .dropTable names => ∀ name ∈ names, s'.tableInfo.lookup name = none
  | .downNodes nodes => ∀ node ∈ nodes, registeredIn s.nodes node = true →
      s'.nodes.lookup (node2String node) = some ⟨0⟩
  | .migrate unit => ∃ table p, s'.tableInfo.lookup unit.task.tableName = some table ∧
      table.partitionAt unit.task.partitionId = some p ∧ unit.dst ∈ p.replicas
  | _ => True

/-- A request is answered; where the answer is not `OK` nothing changed, and where it is the
effect is in force. -/
def TellsTruth (env : Env) (request : MetaCmdRequest) (s : MetaServer) : Prop :=
  ∃ response s', s.dealRequest env request = some (response, s') ∧
    (response.status ≠ .ok → s'.metaInfo = s.metaInfo ∧ s'.metaMigrate = s.metaMigrate) ∧
    (response.status = .ok → InForce request.cmd s.metaInfo s'.metaInfo)

/-- The commands that change the placement. -/
def MetaCmd.IsPlacement : MetaCmd → Prop
  | .init _ | .dropTable _ | .downNodes _ | .migrate _ => True
  | _ => False

/-- A migration that `CommitMigrate` can report: the partition exists, and the destination is a
replica of it already or, from the first ping on, becomes one. The empty node is taken for an
absent master. -/
def Decodable.Migration (unit : Processor) (table : Table) (epoch : ℤ) : Prop :=
  ∃ p, table.partitionAt unit.task.partitionId = some p ∧
    (epoch = 0 → unit.dst = p.getMaster ∨ unit.dst ∈ p.slaves) ∧
    (epoch ≠ 0 → unit.dst = p.getMaster → p.master = none → unit.dst ∈ p.slaves)

/-- When the status of a request can be decoded from the epoch `MetaInfo` returns. -/
def Decodable (request : MetaCmdRequest) (s : MetaInfo) : Prop :=
  request.version = s.version → match request.cmd with
    | .init table => s.version.epoch = 0 → (s.tableInfo.lookup table.name).isSome
    | .dropTable names => s.version.epoch = 0 → ∀ name ∈ names, s.tableInfo.lookup name = none
    | .migrate unit => ∀ table, s.tableInfo.lookup unit.task.tableName = some table →
        Decodable.Migration unit table s.version.epoch
    | _ => True

section

variable {response : MetaCmdResponse} (h : s.dealRequest env request = some (response, s'))
include h

theorem tellsTruth_iff_of_refused (hstatus : response.status ≠ .ok) :
    TellsTruth env request s ↔ s'.metaInfo = s.metaInfo ∧ s'.metaMigrate = s.metaMigrate := by
  simp [TellsTruth, h, hstatus]

theorem tellsTruth_iff_of_ok (hstatus : response.status = .ok) :
    TellsTruth env request s ↔ InForce request.cmd s.metaInfo s'.metaInfo := by
  simp [TellsTruth, h, hstatus]

end

theorem metaInfo_ne_of_version {t t' : MetaInfo}
    (h : t'.version.version = t.version.version + 1) : t' ≠ t := by
  rintro rfl
  omega

/-! ## One command at a time -/

section Commands

variable {version : VersionInfo}

theorem tellsTruth_init (hs : s.metaInfo.Grounded) (table : Table) :
    TellsTruth env ⟨version, .init table⟩ s ↔ Decodable ⟨version, .init table⟩ s.metaInfo := by
  have hdeal : s.dealRequest env ⟨version, .init table⟩ = some (s.dealInit env version table) := rfl
  by_cases hversion : version = s.metaInfo.version
  · cases htable : s.metaInfo.tableInfo.lookup table.name with
    | some table' =>
      have hcreate : s.metaInfo.createTable env version table = (⟨0, 0⟩, s.metaInfo) := by
        simp [createTable, hversion, htable]
      simp only [dealInit, hcreate] at hdeal
      rw [tellsTruth_iff_of_refused hdeal (by simp)]
      simp [Decodable, htable]
    | none =>
      have hcreate : s.metaInfo.createTable env version table =
          (s.metaInfo.bumpVersion.version, s.metaInfo.addTable env table) := by
        simp [createTable, hversion, htable, addTable]
      simp only [dealInit, hcreate] at hdeal
      -- from the first ping on the epoch is positive; before it zero, which reads as `EXIST`
      rcases hs.epoch_nonneg.lt_or_eq with hpos | hzero
      · rw [if_pos (show 0 < s.metaInfo.bumpVersion.version.epoch from hpos)] at hdeal
        rw [tellsTruth_iff_of_ok hdeal rfl]
        have hforce : InForce (.init table) s.metaInfo (s.metaInfo.addTable env table) :=
          ⟨{ table with version := s.metaInfo.version.version + 1 },
            by rw [lookup_addTable, if_pos rfl], rfl⟩
        simp [Decodable, hforce, hpos.ne']
      · rw [if_neg (show ¬0 < s.metaInfo.bumpVersion.version.epoch from hzero.not_lt),
          if_pos (show s.metaInfo.bumpVersion.version.epoch = 0 from hzero.symm)] at hdeal
        rw [tellsTruth_iff_of_refused hdeal (by simp)]
        have hne : s.metaInfo.addTable env table ≠ s.metaInfo := metaInfo_ne_of_version rfl
        simp [Decodable, hversion, hne, hzero.symm, htable]
  · have hcreate : s.metaInfo.createTable env version table = (⟨-1, 0⟩, s.metaInfo) := by
      simp [createTable, hversion]
    simp only [dealInit, hcreate] at hdeal
    rw [tellsTruth_iff_of_refused hdeal (by simp)]
    simp [Decodable, hversion]

theorem tellsTruth_dropTable (names : List Bytes) : TellsTruth env ⟨version, .dropTable names⟩ s ↔
      Decodable ⟨version, .dropTable names⟩ s.metaInfo := by
  have hdeal : s.dealRequest env ⟨version, .dropTable names⟩ =
      some (s.dealDropTable version names) := rfl
  by_cases hversion : version = s.metaInfo.version
  · obtain ⟨t, ht⟩ : ∃ t, names.foldl dropOne (false, s.metaInfo) = t := ⟨_, rfl⟩
    have hframe := foldl_dropOne_frame names (false, s.metaInfo)
    have hlookup := lookup_foldl_dropOne names (false, s.metaInfo)
    rw [ht] at hframe hlookup
    have hdrop : s.metaInfo.dropTable version names =
        ((if t.1 then t.2.bumpVersion else t.2).version, if t.1 then t.2.bumpVersion else t.2) := by
      simp [dropTable, hversion, ht]
    -- the epoch that is read as a status is the same whether or not a table was dropped
    have hepoch : (if t.1 then t.2.bumpVersion else t.2).version.epoch =
        s.metaInfo.version.epoch := by
      split <;> simp [bumpVersion, hframe.1]
    have hgone : InForce (.dropTable names) s.metaInfo (if t.1 then t.2.bumpVersion else t.2) := by
      intro name hmem
      have hnone := hlookup name
      rw [if_pos hmem] at hnone
      split <;> exact hnone
    simp only [dealDropTable, hdrop, hepoch] at hdeal
    by_cases hzero : s.metaInfo.version.epoch = 0
    · rw [if_neg (not_not.mpr hzero)] at hdeal
      rw [tellsTruth_iff_of_refused hdeal (by simp)]
      simp only [Decodable, hversion, hzero, and_true, forall_const]
      constructor
      · intro hsame name hmem
        rw [← hsame]
        exact hgone name hmem
      · intro hnone
        rw [foldl_dropOne_eq_self hnone] at ht
        subst ht
        rfl
    · rw [if_pos hzero] at hdeal
      rw [tellsTruth_iff_of_ok hdeal rfl]
      simp [Decodable, hgone, hzero]
  · have hdrop : s.metaInfo.dropTable version names = (⟨0, 0⟩, s.metaInfo) := by
      simp [dropTable, hversion]
    simp only [dealDropTable, hdrop] at hdeal
    rw [tellsTruth_iff_of_refused hdeal (by simp)]
    simp [Decodable, hversion]

theorem inForce_downNodes (nodes : List Node) (t : MetaInfo)
    (hnodes : t.nodes = (markDown nodes s.metaInfo.nodes).2) :
    InForce (.downNodes nodes) s.metaInfo t := by
  intro node hmem hregistered
  rw [hnodes, lookup_markDown, if_pos (mem_map_of_mem hmem)]
  obtain ⟨info, hinfo⟩ := isSome_iff_exists.mp hregistered
  rw [hinfo, map_some]

theorem tellsTruth_downNodes (hs : s.metaInfo.Grounded) (nodes : List Node) :
    TellsTruth env ⟨version, .downNodes nodes⟩ s ↔
      Decodable ⟨version, .downNodes nodes⟩ s.metaInfo := by
  have hdeal : s.dealRequest env ⟨version, .downNodes nodes⟩ =
      some (s.dealDownNodes version nodes) := rfl
  have hdecodable : Decodable ⟨version, .downNodes nodes⟩ s.metaInfo := fun _ => trivial
  refine iff_of_true ?_ hdecodable
  by_cases hversion : version.epoch = s.metaInfo.version.epoch
  · obtain ⟨t, ht⟩ : ∃ t, (s.metaInfo.downNodes version.epoch nodes []).2.2 = t := ⟨_, rfl⟩
    have hdown : s.metaInfo.downNodes version.epoch nodes [] = (t.version, [], t) := by
      rw [← ht, downNodes, if_neg (not_not.mpr hversion)]
    simp only [dealDownNodes, hdown] at hdeal
    have heffect : Effect env s.metaInfo (.downNodes version.epoch nodes) _ :=
      effect_downNodes version.epoch nodes
    rw [ht] at heffect
    have hepoch := (Fence.effect heffect).epoch_le
    rcases hs.epoch_nonneg.lt_or_eq with hpos | hzero
    · rw [if_pos (show t.version.epoch ≠ 0 by omega)] at hdeal
      refine (tellsTruth_iff_of_ok hdeal rfl).mpr (inForce_downNodes nodes t ?_)
      rw [← ht, downNodes, if_neg (not_not.mpr hversion)]
      simp only
      split
      · rw [generateMigrateTasks_nodes]
        rfl
      · rfl
    · -- at epoch zero no node is registered, so nothing is marked
      have hmarked : markDown nodes s.metaInfo.nodes = (false, s.metaInfo.nodes) := by
        have hnone : (markDown nodes s.metaInfo.nodes).1 = false := by
          rw [markDown_eq, List.any_eq_false]
          intro node _
          simp [registeredIn, AList.lookup, hs.nodes_nil hzero.symm]
        exact Prod.ext hnone (markDown_eq_self hnone)
      have hsame : t = s.metaInfo := by
        rw [← ht, downNodes, if_neg (not_not.mpr hversion), hmarked]
        rfl
      subst hsame
      rw [if_neg (not_not.mpr hzero.symm)] at hdeal
      exact (tellsTruth_iff_of_refused hdeal (by simp)).mpr ⟨rfl, rfl⟩
  · have hdown : s.metaInfo.downNodes version.epoch nodes [] = (⟨0, 0⟩, [], s.metaInfo) := by
      rw [downNodes, if_pos hversion]
    simp only [dealDownNodes, hdown] at hdeal
    exact (tellsTruth_iff_of_refused hdeal (by simp)).mpr ⟨rfl, rfl⟩

theorem dst_mem_replicas_addReplica (role : Role) (dst : Node) (duplicateNum : ℤ) (p : Partition) :
    dst ∈ (p.addReplica role dst duplicateNum).replicas := by
  rw [Partition.mem_replicas]
  by_cases hrole : role = .master
  · left
    simp only [Partition.addReplica, if_pos hrole]
    split <;> rfl
  · right
    simp only [Partition.addReplica, if_neg hrole]
    split <;> simp

theorem partitionAt_addReplica {unit : Processor} {table : Table} {p : Partition} {v : ℤ}
    (h : table.partitionAt unit.task.partitionId = some p) :
    (table.addReplica unit p v).partitionAt unit.task.partitionId =
      some (p.addReplica unit.task.role unit.dst table.duplicateNum) := by
  unfold Table.partitionAt at h ⊢
  split at h
  · rename_i hnonneg
    obtain ⟨hlt, -⟩ := List.getElem?_eq_some_iff.mp h
    rw [if_pos hnonneg, Table.addReplica, getElem?_set_self hlt]
  · cases h

section Migrate

variable {unit : Processor} {table : Table} {p : Partition}

section

variable (hversion : version = s.metaInfo.version)
  (htable : s.metaInfo.tableInfo.lookup unit.task.tableName = some table)
  (hp : table.partitionAt unit.task.partitionId = some p)
include hversion htable hp

theorem tellsTruth_migrate_of_placed (hreplica : unit.dst = p.getMaster ∨ unit.dst ∈ p.slaves) :
    TellsTruth env ⟨version, .migrate unit⟩ s ↔
      Decodable.Migration unit table s.metaInfo.version.epoch := by
  have hcommit : s.metaInfo.commitMigrate version unit = some (s.metaInfo.version, s.metaInfo) := by
    simp [commitMigrate, hversion, htable, hp, hreplica]
  have hdeal : s.dealRequest env ⟨version, .migrate unit⟩ = s.dealMigrate version unit := rfl
  simp only [dealMigrate, hcommit, map_some] at hdeal
  simp only [Decodable.Migration, hp, some.injEq, exists_eq_left']
  by_cases hzero : s.metaInfo.version.epoch = 0
  · rw [if_neg (not_not.mpr hzero)] at hdeal
    rw [tellsTruth_iff_of_refused hdeal (by simp)]
    simp [hzero, hreplica]
  · rw [if_pos hzero] at hdeal
    rw [tellsTruth_iff_of_ok hdeal rfl]
    simp only [InForce, htable, hp, some.injEq, exists_eq_left', exists_and_left,
      Partition.mem_replicas, hzero, false_implies, true_and, ne_eq, not_false_eq_true,
      true_implies]
    -- only the empty node can be equal to an absent master
    cases hmaster : p.master with
    | none =>
      simp only [reduceCtorEq, false_or, true_implies]
      exact ⟨fun h _ => h, fun h => hreplica.elim h id⟩
    | some m =>
      have hget : p.getMaster = m := by simp [Partition.getMaster, hmaster]
      simpa [hget, eq_comm] using hreplica

theorem tellsTruth_migrate_of_fresh (hfresh : ¬(unit.dst = p.getMaster ∨ unit.dst ∈ p.slaves)) :
    TellsTruth env ⟨version, .migrate unit⟩ s ↔
      Decodable.Migration unit table s.metaInfo.version.epoch := by
  have hcommit : s.metaInfo.commitMigrate version unit =
      some (s.metaInfo.bumpVersion.version, s.metaInfo.addReplica unit table p) := by
    simp [commitMigrate, hversion, htable, hp, hfresh, addReplica]
  have hdeal : s.dealRequest env ⟨version, .migrate unit⟩ = s.dealMigrate version unit := rfl
  simp only [dealMigrate, hcommit, map_some] at hdeal
  simp only [Decodable.Migration, hp, some.injEq, exists_eq_left']
  by_cases hzero : s.metaInfo.version.epoch = 0
  · -- the replica is added, and the epoch of the outcome reads as a refusal
    rw [if_neg (not_not.mpr (show s.metaInfo.bumpVersion.version.epoch = 0 from hzero))] at hdeal
    rw [tellsTruth_iff_of_refused hdeal (by simp)]
    have hne : s.metaInfo.addReplica unit table p ≠ s.metaInfo := metaInfo_ne_of_version rfl
    simp [hne, hzero, hfresh]
  · rw [if_pos (show s.metaInfo.bumpVersion.version.epoch ≠ 0 from hzero)] at hdeal
    rw [tellsTruth_iff_of_ok hdeal rfl]
    have hforce : InForce (.migrate unit) s.metaInfo (s.metaInfo.addReplica unit table p) :=
      ⟨_, _, by rw [lookup_addReplica htable, if_pos rfl], partitionAt_addReplica hp,
        dst_mem_replicas_addReplica _ _ _ _⟩
    rw [not_or] at hfresh
    simp [hforce, hzero, hfresh.1]

end

end Migrate

theorem tellsTruth_migrate (unit : Processor) : TellsTruth env ⟨version, .migrate unit⟩ s ↔
      Decodable ⟨version, .migrate unit⟩ s.metaInfo := by
  have hdeal : s.dealRequest env ⟨version, .migrate unit⟩ = s.dealMigrate version unit := rfl
  by_cases hversion : version = s.metaInfo.version
  · cases htable : s.metaInfo.tableInfo.lookup unit.task.tableName with
    | none =>
      have hcommit : s.metaInfo.commitMigrate version unit = some (⟨0, 0⟩, s.metaInfo) := by
        simp [commitMigrate, hversion, htable]
      simp only [dealMigrate, hcommit] at hdeal
      rw [tellsTruth_iff_of_refused hdeal (by simp)]
      simp [Decodable, htable]
    | some table =>
      have hdecodable : Decodable ⟨version, .migrate unit⟩ s.metaInfo ↔
          Decodable.Migration unit table s.metaInfo.version.epoch := by
        simp [Decodable, hversion, htable]
      rw [hdecodable]
      cases hp : table.partitionAt unit.task.partitionId with
      | none =>
        -- no answer at all: the accessor is undefined outside the table
        have hcommit : s.metaInfo.commitMigrate version unit = none := by
          simp [commitMigrate, hversion, htable, hp]
        simp only [dealMigrate, hcommit] at hdeal
        simp [TellsTruth, hdeal, Decodable.Migration, hp]
      | some p =>
        by_cases hreplica : unit.dst = p.getMaster ∨ unit.dst ∈ p.slaves
        · exact tellsTruth_migrate_of_placed hversion htable hp hreplica
        · exact tellsTruth_migrate_of_fresh hversion htable hp hreplica
  · have hcommit : s.metaInfo.commitMigrate version unit = some (⟨0, 0⟩, s.metaInfo) := by
      simp [commitMigrate, hversion]
    simp only [dealMigrate, hcommit] at hdeal
    rw [tellsTruth_iff_of_refused hdeal (by simp)]
    simp [Decodable, hversion]

end Commands

/-- **Status tells the truth** exactly for requests whose outcome can be decoded: from the first
ping on every placement command but a migration of a partition that does not exist, or one of the
empty node to a partition without master; before it, those that change nothing. -/
theorem tellsTruth_iff (hs : s.Reached) (hcmd : request.cmd.IsPlacement) :
    TellsTruth env request s ↔ Decodable request s.metaInfo := by
  obtain ⟨version, cmd⟩ := request
  cases cmd with
  | init table => exact tellsTruth_init hs.grounded table
  | dropTable names => exact tellsTruth_dropTable names
  | downNodes nodes => exact tellsTruth_downNodes hs.grounded nodes
  | migrate unit => exact tellsTruth_migrate unit
  | ping _ | pull _ _ _ | listTable | listNode | unsupported => exact hcmd.elim

/-- A table of one partition, to be created at an epoch. -/
def initAt (epoch : ℤ) : MetaCmdRequest :=
  ⟨⟨epoch, 0⟩, .init (Sample.table 1 [⟨0, .active, some (Sample.node 1), []⟩])⟩

/-- After the first ping the status of the creation is right. -/
theorem tellsTruth_iff_initAt_one :
    ∃ s, MetaServer.start.dealRequest Sample.env ⟨⟨0, 0⟩, .ping (Sample.node 1)⟩ =
        some ({ version := ⟨1, 0⟩ }, s) ∧ s.Reached ∧
      TellsTruth Sample.env (initAt 1) s := by
  have hs := MetaServer.Reached.request Sample.env ⟨⟨0, 0⟩, .ping (Sample.node 1)⟩ .start rfl
  have hcmd : (initAt 1).cmd.IsPlacement := trivial
  refine ⟨_, rfl, hs, (tellsTruth_iff hs hcmd).mpr ?_⟩
  intro _ hzero
  exact absurd hzero (by decide)

/-- The table is created, and the status says that it existed. -/
theorem initAt_zero_reported_exist : MetaServer.start.Reached ∧
      ((MetaServer.start.dealRequest Sample.env (initAt 0)).map (·.1.status)) = some .exist ∧
      MetaServer.start.metaInfo.tableInfo.lookup (bytes "t") = none ∧
      ((MetaServer.start.dealRequest Sample.env (initAt 0)).bind fun r =>
        r.2.metaInfo.tableInfo.lookup (bytes "t")).isSome ∧
      ¬TellsTruth Sample.env (initAt 0) MetaServer.start := by
  refine ⟨.start, rfl, rfl, rfl, ?_⟩
  rintro ⟨response, s', h, hrefused, -⟩
  cases h
  have hsame := (hrefused (by decide)).1
  exact absurd (congrArg (fun t : MetaInfo => t.version.version) hsame) (by decide)

end Noah
