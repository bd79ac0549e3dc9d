import Nori.Noah.Meta.Fencing
import Nori.Noah.Node.CreateTable

/-!
# Well-formed placement

What a partition should look like at any time: distinct replicas, no more of them than asked for,
`ACTIVE` exactly when there is a master and the number is full, and `STUCK` exactly when there is
no master. Failovers keep this always. A failback keeps it when the node comes back to one place
of the partition that it does not hold already, a migration when the partition has a master and
lacks a replica, and a creation when the node list names no node twice.
-/

namespace Noah

open Butil Container Transition List Sample Option

namespace Partition

/-- The shape of a partition of a table with the given number of replicas. -/
structure WellFormed (duplicateNum : ℤ) (p : Partition) : Prop where
  nodup : p.replicas.Nodup
  length_le : (p.replicas.length : ℤ) ≤ duplicateNum
  active_iff : p.status = .active ↔ p.master.isSome = true ∧ (p.replicas.length : ℤ) = duplicateNum
  stuck_iff : p.status = .stuck ↔ p.master = none

/-- The inductive form: without a master there is room for one. -/
structure Sound (duplicateNum : ℤ) (p : Partition) : Prop extends WellFormed duplicateNum p where
  room : p.master = none → (p.slaves.length : ℤ) < duplicateNum

variable {d : ℤ} {p : Partition} {node : Node}

theorem length_replicas_of_some {m : Node} (h : p.master = some m) :
    p.replicas.length = p.slaves.length + 1 := by
  simp [replicas, h]

theorem replicas_of_none (h : p.master = none) : p.replicas = p.slaves := by simp [replicas, h]

/-- A partition that is not active has room. -/
theorem Sound.lt_of_inactive (h : p.Sound d) (hinactive : p.status ≠ .active) :
    (p.replicas.length : ℤ) < d := by
  have hle := h.length_le
  cases hm : p.master with
  | none =>
    rw [replicas_of_none hm]
    exact h.room hm
  | some m =>
    have hne : (p.replicas.length : ℤ) ≠ d := fun heq =>
      hinactive (h.active_iff.mpr ⟨by simp [hm], heq⟩)
    omega

/-! ## Failover -/

theorem release_of_unchanged (h : (p.release node).2 = false) : (p.release node).1 = p := by
  unfold release at h ⊢
  split at h
  · cases h
  · rename_i hmaster
    rw [if_neg hmaster]
    have hfilter : p.slaves.filter (· ≠ node) = p.slaves := by
      rw [filter_eq_self]
      intro n hn
      simp only [decide_eq_true_eq]
      rintro rfl
      simp [hn] at h
    simp only [hfilter]

theorem Sound.release (h : p.Sound d) (hchanged : (p.release node).2 = true) :
    (p.release node).1.replicas.Nodup ∧ ((p.release node).1.replicas.length : ℤ) < d := by
  unfold Partition.release at hchanged ⊢
  split
  · -- the master is released, or there was none and the node is the empty one
    rw [replicas_of_none rfl]
    refine ⟨h.nodup.sublist (sublist_append_right _ _), ?_⟩
    cases hmaster : p.master with
    | none => exact h.room hmaster
    | some m =>
      have hle := h.length_le
      rw [length_replicas_of_some hmaster] at hle
      simp only
      omega
  · rename_i hmaster
    rw [if_neg hmaster] at hchanged
    have hmem : node ∈ p.slaves := by simpa using hchanged
    have hlt : (p.slaves.filter (· ≠ node)).length < p.slaves.length := by
      refine length_filter_lt_length_iff_exists.mpr ⟨node, hmem, ?_⟩
      simp
    have hle := h.length_le
    simp only [replicas, length_append] at hle ⊢
    refine ⟨h.nodup.sublist (List.Sublist.append_left filter_sublist _), ?_⟩
    omega

section

variable (registered : Node → Bool)

theorem settle_of_some {m : Node} (h : p.master = some m) :
    p.settle registered = { p with status := .slowdown } := by
  simp [settle, h]

/-- Without a master the first registered slave is promoted; with no slave left there is none to
promote. -/
theorem settle_of_none (h : p.master = none) : p.settle registered = { p with
        master := p.slaves.find? registered
        slaves := p.slaves.eraseP registered
        status := if (p.slaves.find? registered).isSome then .slowdown else .stuck } := by
  cases hslaves : p.slaves with
  | nil => simp [settle, h, hslaves]
  -- the source asks for slaves first; without any the search finds nothing either
  | cons n ns => simp [settle, h, hslaves]

theorem promote_perm (slaves : List Node) :
    ((slaves.find? registered).toList ++ slaves.eraseP registered).Perm slaves := by
  induction slaves with
  | nil => exact .nil
  | cons n ns ih =>
    cases hn : registered n with
    | true => simp [hn]
    | false =>
      simp only [find?_cons, hn, eraseP_cons, cond_false]
      exact (perm_middle).trans (ih.cons n)

theorem sound_settle (hnodup : p.replicas.Nodup)
    (hroom : (p.replicas.length : ℤ) < d) : (p.settle registered).Sound d := by
  cases hmaster : p.master with
  | some m =>
    rw [settle_of_some registered hmaster]
    have hreplicas : ({ p with status := .slowdown } : Partition).replicas = p.replicas := rfl
    refine ⟨⟨?_, ?_, ?_, ?_⟩, ?_⟩
    · rwa [hreplicas]
    · rw [hreplicas]
      omega
    · rw [hreplicas]
      simp only [reduceCtorEq, false_iff, not_and]
      omega
    · simp [hmaster]
    · simp [hmaster]
  | none =>
    rw [settle_of_none registered hmaster]
    rw [replicas_of_none hmaster] at hnodup hroom
    -- promotion moves a slave to the front, so the replicas stay the same
    have hperm := promote_perm registered p.slaves
    have hlength := hperm.length_eq
    refine ⟨⟨hperm.nodup_iff.mpr hnodup, ?_, ?_, ?_⟩, ?_⟩
    · simp only [replicas]
      omega
    · simp only [replicas]
      constructor
      · intro hactive
        split at hactive <;> cases hactive
      · omega
    · cases hfind : p.slaves.find? registered <;> simp
    · intro _
      have hle : (p.slaves.eraseP registered).length ≤ p.slaves.length := length_eraseP_le
      simp only
      omega

/-- **Failover** keeps a partition sound. -/
theorem Sound.migrateFrom (h : p.Sound d) : (p.migrateFrom registered node).Sound d := by
  unfold Partition.migrateFrom
  split
  · rename_i hchanged
    obtain ⟨hnodup, hroom⟩ := h.release hchanged
    exact sound_settle registered hnodup hroom
  · rename_i hchanged
    rwa [release_of_unchanged (by simpa using hchanged)]

end

/-! ## Failback -/

variable {nodes : List Node} {base dupSize : ℕ}

/-- A node comes back cleanly to a partition: an active partition is skipped; the node has no place
there, and no slave waits for a master; or it has one place, which it does not hold yet or holds as
the master, and only a partition with a master gets a slave back. -/
def CleanReturn (node : Node) (nodes : List Node) (dupSize base : ℕ) (p : Partition) : Prop :=
  p.status = .active ∨
    ((∀ j < dupSize, ¬Places node nodes base j) ∧ (p.master = none → p.slaves = [])) ∨
    ∃ j < dupSize, (∀ j' < dupSize, Places node nodes base j' ↔ j' = j) ∧
      ((node ∉ p.replicas ∧ (0 < j → p.master.isSome = true)) ∨ (j = 0 ∧ p.master = some node))

theorem sound_refreshStatus (hd : 0 < d) (hnodup : p.replicas.Nodup)
    (hle : (p.replicas.length : ℤ) ≤ d) (hmaster : p.master = none → p.slaves = []) :
    (p.refreshStatus d.toNat).Sound d := by
  have hreplicas : (p.refreshStatus d.toNat).replicas = p.replicas := rfl
  refine ⟨⟨hnodup, hle, ?_, ?_⟩, ?_⟩
  · rw [hreplicas]
    cases hm : p.master with
    | none => simp [refreshStatus, hm, hmaster hm]
    | some m =>
      rw [length_replicas_of_some hm]
      -- the source counts in `size_t`, the invariant in integers
      have hcount : 1 + p.slaves.length = d.toNat ↔ (p.slaves.length : ℤ) + 1 = d := by omega
      by_cases hfull : 1 + p.slaves.length = d.toNat
      · simp [refreshStatus, hm, hfull, hcount.mp hfull]
      · simp [refreshStatus, hm, hfull, mt hcount.mpr hfull]
  · cases hm : p.master with
    | none => simp [refreshStatus, hm, hmaster hm]
    | some m =>
      simp only [refreshStatus, hm, isSome_some, true_and, true_or, if_true]
      split <;> simp
  · intro hm
    show (p.slaves.length : ℤ) < d
    rw [hmaster hm]
    exact hd

theorem replicas_failback_zero (hmaster : p.master ≠ some node) :
    (p.failback node 0).1.replicas.Perm (node :: p.replicas) ∧
      (p.failback node 0).1.master = some node := by
  unfold failback
  cases hm : p.master with
  | none => simp [replicas, hm]
  | some m =>
    have hne : node ≠ m := by
      rintro rfl
      exact hmaster hm
    simp only [if_true, if_neg hne, replicas, hm, toList_some, singleton_append, and_true]
    exact (perm_append_singleton m p.slaves).cons node

theorem replicas_failback_pos (p : Partition) (node : Node) {j : ℕ} (hj : 0 < j) :
    (p.failback node j).1.replicas.Perm (node :: p.replicas) ∧
      (p.failback node j).1.master = p.master := by
  simp only [failback, hj.ne', if_false, replicas, and_true, ← append_assoc]
  exact perm_append_singleton node _

/-- **Failback** of a node that returns cleanly keeps a partition sound. -/
theorem Sound.takeBack (hd : 0 < d) (h : p.Sound d)
    (hclean : p.CleanReturn node nodes d.toNat base) :
    (p.takeBack node nodes d.toNat base).Sound d := by
  unfold Partition.takeBack
  split
  · exact h
  · rename_i hinactive
    rcases hclean with hactive | ⟨hnone, hmaster⟩ | ⟨j, hj, hunique, hfresh⟩
    · exact absurd hactive hinactive
    · rw [foldl_takeSlot_of_none hnone]
      exact sound_refreshStatus hd h.nodup h.length_le hmaster
    · rw [foldl_takeSlot_of_unique hj hunique]
      rcases hfresh with ⟨hfresh, hslave⟩ | ⟨rfl, hm⟩
      · have hroom := h.lt_of_inactive hinactive
        obtain ⟨hperm, hsome⟩ : (p.failback node j).1.replicas.Perm (node :: p.replicas) ∧
            (p.failback node j).1.master ≠ none := by
          -- offset zero is the place of the master, any other one that of a slave
          rcases Nat.eq_zero_or_pos j with rfl | hpos
          · have hm : p.master ≠ some node := fun hm => hfresh (mem_replicas.mpr (.inl hm))
            obtain ⟨hperm, hm'⟩ := replicas_failback_zero hm
            exact ⟨hperm, by simp [hm']⟩
          · obtain ⟨hperm, hm'⟩ := replicas_failback_pos p node hpos
            refine ⟨hperm, ?_⟩
            rw [hm', ← isSome_iff_ne_none]
            exact hslave hpos
        refine sound_refreshStatus hd ?_ ?_ fun hm => absurd hm hsome
        · exact hperm.nodup_iff.mpr (nodup_cons.mpr ⟨hfresh, h.nodup⟩)
        · rw [hperm.length_eq, length_cons]
          omega
      · have hsame : (p.failback node 0).1 = p := by simp [failback, hm]
        rw [hsame]
        exact sound_refreshStatus hd h.nodup h.length_le fun hm' => by simp [hm] at hm'

/-! ## Migration -/

/-- The last lines of `CommitMigrate`, on a partition with a master that was neither active nor
stuck. -/
theorem sound_activate {q : Partition} (hnodup : q.replicas.Nodup)
    (hle : (q.replicas.length : ℤ) ≤ d) {m : Node} (hm : q.master = some m)
    (hactive : q.status ≠ .active) (hstuck : q.status ≠ .stuck) :
    (if (1 + q.slaves.length : ℤ) = d then { q with status := .active } else q).Sound d := by
  have hlength := length_replicas_of_some hm
  split
  · rename_i hfull
    have hreplicas : ({ q with status := .active } : Partition).replicas = q.replicas := rfl
    refine ⟨⟨hnodup, hle, ?_, ?_⟩, ?_⟩
    · rw [hreplicas, hlength]
      simp [hm, add_comm, ← hfull]
    · simp [hm]
    · simp [hm]
  · rename_i hpart
    refine ⟨⟨hnodup, hle, ?_, ?_⟩, ?_⟩
    · refine iff_of_false hactive ?_
      rintro ⟨-, heq⟩
      rw [hlength] at heq
      omega
    · exact iff_of_false hstuck (by simp [hm])
    · simp [hm]

/-- **Migration** to a partition that has a master and lacks a replica keeps it sound. -/
theorem Sound.addReplica (role : Role) (h : p.Sound d) {m : Node} (hm : p.master = some m)
    (hactive : p.status ≠ .active) (hfresh : ¬(node = p.getMaster ∨ node ∈ p.slaves)) :
    (p.addReplica role node d).Sound d := by
  have hget : p.getMaster = m := by simp [getMaster, hm]
  have hnodup : (node :: p.replicas).Nodup := by
    refine nodup_cons.mpr ⟨?_, h.nodup⟩
    rw [mem_replicas, hm, some.injEq, eq_comm, ← hget]
    exact hfresh
  have hle : ((node :: p.replicas).length : ℤ) ≤ d := by
    have hroom := h.lt_of_inactive hactive
    rw [length_cons]
    omega
  have hstuck : p.status ≠ .stuck := fun hs => by simp [h.stuck_iff.mp hs] at hm
  unfold Partition.addReplica
  by_cases hrole : role = .master
  · simp only [if_pos hrole]
    have hperm : ({ p with slaves := p.slaves ++ [p.getMaster], master := some node } :
        Partition).replicas.Perm (node :: p.replicas) := by
      simp only [replicas, hm, hget, toList_some, singleton_append]
      exact (perm_append_singleton m p.slaves).cons node
    exact sound_activate (hperm.nodup_iff.mpr hnodup) (hperm.length_eq ▸ hle) rfl hactive hstuck
  · simp only [if_neg hrole]
    have hperm : ({ p with slaves := p.slaves ++ [node] } : Partition).replicas.Perm
        (node :: p.replicas) := by
      simp only [replicas, ← append_assoc]
      exact perm_append_singleton node _
    exact sound_activate (hperm.nodup_iff.mpr hnodup) (hperm.length_eq ▸ hle) hm hactive hstuck

/-! ## Creation -/

theorem sound_buildPartition {nodes : List Node} {start i : ℕ} (hnodes : nodes.Nodup)
    (hd : 0 < d) (hle : d ≤ nodes.length) :
    (buildPartition nodes start d.toNat i).Sound d := by
  have hpos : 0 < d.toNat := by omega
  have hlength : ((buildPartition nodes start d.toNat i).replicas.length : ℤ) = d := by
    rw [replicas_buildPartition hpos, length_map, length_range]
    omega
  obtain ⟨k, hk⟩ := Nat.exists_eq_add_of_lt hpos
  have hbuild := buildPartition_succ nodes start k i
  rw [show d.toNat = k + 1 by omega] at hlength ⊢
  have hnodup : (buildPartition nodes start (k + 1) i).replicas.Nodup :=
    nodup_replicas_buildPartition hnodes (by omega) (by omega)
  refine ⟨⟨hnodup, hlength.le, ?_, ?_⟩, ?_⟩
  · rw [hlength]
    simp [hbuild]
  · simp [hbuild]
  · simp [hbuild]

end Partition

/-! ## Tables and states -/

/-- A table whose partitions are sound for its number of replicas. -/
structure Table.WellPlaced (table : Table) : Prop where
  duplicateNum_pos : 0 < table.duplicateNum
  duplicateNum_le : table.duplicateNum ≤ kMaxDuplicateNumber
  sound : ∀ p ∈ table.partitions, p.Sound table.duplicateNum

theorem sizeT_eq_toNat {d : ℤ} (hpos : 0 < d) (hle : d ≤ kMaxDuplicateNumber) :
    sizeT d = d.toNat := by
  unfold kMaxDuplicateNumber at hle
  unfold sizeT
  omega

theorem Table.mem_of_partitionAt {table : Table} {index : ℤ} {p : Partition}
    (h : table.partitionAt index = some p) : p ∈ table.partitions := by
  unfold Table.partitionAt at h
  split at h
  · exact mem_of_getElem? h
  · cases h

namespace Table.WellPlaced

variable {table table' : Table}

theorem migrateFromTable (h : table.WellPlaced) (nodes : NodeInfoMap) (version : ℤ)
    (node : Node) : (Noah.migrateFromTable nodes version node table).WellPlaced := { h with
  sound p hp := by
    obtain ⟨p₀, hp₀, rfl⟩ := mem_map.mp hp
    exact (h.sound p₀ hp₀).migrateFrom _ }

theorem takenBack {node : Node} {nodes : List Node} {version : ℤ} {name : Bytes}
    (h : table.WellPlaced) (htaken : TakenBack node nodes version name table table')
    (hclean : ∀ (i : ℕ) (p : Partition), table.partitions[i]? = some p →
      p.CleanReturn node nodes (sizeT table.duplicateNum)
        ((Butil.hash name).toNat % nodes.length + i)) : table'.WellPlaced where
  duplicateNum_pos := htaken.duplicateNum_eq ▸ h.duplicateNum_pos
  duplicateNum_le := htaken.duplicateNum_eq ▸ h.duplicateNum_le
  sound p hp := by
    rw [htaken.partitions_eq, Table.takeBack, mem_mapIdx] at hp
    obtain ⟨i, hi, rfl⟩ := hp
    have hsize := sizeT_eq_toNat h.duplicateNum_pos h.duplicateNum_le
    have hclean := hclean i _ (getElem?_eq_getElem hi)
    rw [hsize] at hclean ⊢
    rw [htaken.duplicateNum_eq]
    exact (h.sound _ (getElem_mem hi)).takeBack h.duplicateNum_pos hclean

theorem addReplica {processor : Processor} {p : Partition} {version : ℤ} (h : table.WellPlaced)
    (hp : (p.addReplica processor.task.role processor.dst table.duplicateNum).Sound
      table.duplicateNum) : (table.addReplica processor p version).WellPlaced := { h with
  sound q hq := by
    rcases mem_or_eq_of_mem_set hq with hq | rfl
    · exact h.sound q hq
    · exact hp }

theorem buildTable {nodes : List Node} {info : TableInfo} {d : ℤ} (hnodes : nodes.Nodup)
    (hne : nodes ≠ []) (hd : info.duplicateNum = clampDuplicateNum nodes.length d) :
    (Noah.buildTable nodes info).WellPlaced where
  duplicateNum_pos := (clampDuplicateNum_pos (length_pos_iff.mpr hne) d).trans_eq hd.symm
  duplicateNum_le := hd.trans_le (clampDuplicateNum_le_max _ _)
  sound p hp := by
    obtain ⟨i, -, rfl⟩ := mem_map.mp hp
    refine Partition.sound_buildPartition hnodes ?_ (hd.trans_le (clampDuplicateNum_le _ _))
    exact (clampDuplicateNum_pos (length_pos_iff.mpr hne) d).trans_eq hd.symm

end Table.WellPlaced

/-- Every table of a state is well placed. -/
def MetaInfo.WellPlaced (s : MetaInfo) : Prop :=
  ∀ name table, s.tableInfo.lookup name = some table → table.WellPlaced

/-- A creation that is accepted carries a table that a node server built over the nodes of the
current version, down nodes included. -/
def BuiltByNode (s : MetaInfo) (event : Event) : Prop :=
  match event.op with
  | .createTable info table => info = s.version → ∃ nodes tableInfo d,
      nodes ≠ [] ∧ nodes.Perm (nodeArray s.nodes) ∧
      tableInfo.duplicateNum = clampDuplicateNum nodes.length d ∧
      table = buildTable nodes tableInfo
  | _ => True

/-- The operations that keep every partition well formed: a node that was down comes back cleanly,
a table is laid out over distinct nodes, and a replica is added only to a partition that has a
master and lacks one. -/
def Orderly (s : MetaInfo) (event : Event) : Prop :=
  match event.op with
  -- only a failback edits partitions; it is judged by the node list of the state before it
  | .updateNode node => s.nodes.lookup (node2String node) = some ⟨0⟩ →
      ∀ name table, s.tableInfo.lookup name = some table →
        ∀ (i : ℕ) (p : Partition), table.partitions[i]? = some p →
          p.CleanReturn node (nodeArray s.nodes) (sizeT table.duplicateNum)
            ((Butil.hash name).toNat % (nodeArray s.nodes).length + i)
  | .createTable info _ => info = s.version → (nodeArray s.nodes).Nodup
  | .commitMigrate info processor => info = s.version →
      ∀ table, s.tableInfo.lookup processor.task.tableName = some table →
        ∀ p, table.partitionAt processor.task.partitionId = some p →
          processor.dst = p.getMaster ∨ processor.dst ∈ p.slaves ∨
            (p.master.isSome = true ∧ p.status ≠ .active)
  | _ => True

namespace MetaInfo.WellPlaced

variable {s s' : MetaInfo}

theorem effect {env : Env} {op : Op} (h : s.WellPlaced) (hbuilt : BuiltByNode s ⟨env, op⟩)
    (horderly : Orderly s ⟨env, op⟩) (heffect : Effect env s op s') : s'.WellPlaced := by
  refine heffect.forall_tables (P := fun _ table => table.WellPlaced) ?_ ?_ ?_ ?_ h
  · rintro node ⟨time⟩ rfl hknown rfl name table table' htable htaken
    exact (h name table htable).takenBack htaken (horderly hknown name table htable)
  · rintro table rfl -
    obtain ⟨nodes, tableInfo, d, hne, hperm, hd, rfl⟩ := hbuilt rfl
    -- the view of a node lists the same nodes, in an order of its own
    have hnodes := hperm.nodup_iff.mpr (horderly rfl)
    obtain ⟨hpos, hle, hsound⟩ := Table.WellPlaced.buildTable hnodes hne hd
    exact ⟨hpos, hle, hsound⟩
  · intro nodes node name table htable
    exact htable.migrateFromTable nodes _ node
  · rintro processor table p rfl hlisted hp hfresh -
    have htable := h _ _ hlisted
    rcases horderly rfl table hlisted p hp with hmaster | hslave | ⟨hmaster, hactive⟩
    -- the effect has already excluded a destination that is a replica
    · exact absurd (.inl hmaster) hfresh
    · exact absurd (.inr hslave) hfresh
    · obtain ⟨m, hm⟩ := isSome_iff_exists.mp hmaster
      have hmem := Table.mem_of_partitionAt hp
      exact htable.addReplica ((htable.sound p hmem).addReplica _ hm hactive hfresh)

end MetaInfo.WellPlaced

/-- **Well-formed placement**: where node servers create the tables and every step is orderly, every
partition is well formed in every reachable state. -/
theorem wellFormed_of_orderly {s : MetaInfo}
    (hreach : (metaSystem.restrict fun s event => BuiltByNode s event ∧ Orderly s event).Reachable
      s) (name : Bytes) (table : Table) (htable : s.tableInfo.lookup name = some table)
    (p : Partition) (hp : p ∈ table.partitions) : p.WellFormed table.duplicateNum := by
  have hplaced : s.WellPlaced := by
    refine hreach.invariant ?_ ?_
    · rintro s₀ rfl name table htable
      simp [MetaInfo.start] at htable
    · rintro s ⟨env, op⟩ s' ⟨⟨hbuilt, horderly⟩, hstep⟩ hs
      exact hs.effect hbuilt horderly (MetaInfo.effect_of_apply hstep)
  exact ((hplaced name table htable).sound p hp).toWellFormed

/-! ## A node comes back to its place -/

instance (node : Node) (nodes : List Node) (dupSize base : ℕ) (p : Partition) :
    Decidable (p.CleanReturn node nodes dupSize base) :=
  inferInstanceAs (Decidable (_ ∨ _ ∨ _))

/-- Two nodes, a table `t` of one partition with two replicas, and a failover of one of them. -/
def failedOver : List Event :=
  [ping 1, ping 2, create 2 0 (buildTable (nodeArray (after [ping 1, ping 2]).nodes)
      ⟨bytes "t", 1, 2, 0⟩),
    down 2 [2]]

theorem orderly_failedOver :
    System.Admits (fun s event => BuiltByNode s event ∧ Orderly s event) MetaInfo.apply
      MetaInfo.start (failedOver ++ [ping 2]) := by
  refine .cons ⟨trivial, ?_⟩ rfl (.cons ⟨trivial, ?_⟩ rfl (.cons ⟨?_, ?_⟩ rfl
    (.cons ⟨trivial, trivial⟩ rfl (.cons ⟨trivial, ?_⟩ rfl trivial))))
  · intro hknown
    cases hknown
  · intro hknown
    exact absurd hknown (by decide)
  · intro _
    exact ⟨_, ⟨bytes "t", 1, 2, 0⟩, 2, by decide, by decide, by decide, rfl⟩
  · intro _
    decide
  · intro _ name table htable i p hp
    have hname : name ∈ [bytes "t"] := UnorderedMap.mem_keys_of_lookup htable
    rw [mem_singleton] at hname
    subst hname
    cases htable
    cases i with
    | zero =>
      cases hp
      decide
    | succ i => cases hp

theorem wellFormed_of_orderly_failedOver :
    ∃ table, (after (failedOver ++ [ping 2])).tableInfo.lookup (bytes "t") =
      some table ∧ ∀ p ∈ table.partitions, p.WellFormed table.duplicateNum :=
  ⟨_, rfl, wellFormed_of_orderly (reachable_restrict_after _ rfl orderly_failedOver)
    (bytes "t") _ rfl⟩

/-! ## A node that holds its place comes back -/

/-- A table `t` of one partition with three replicas, built over the nodes of three pings. -/
def threeReplicas : Table :=
  buildTable (nodeArray (after [ping 1, ping 2, ping 3]).nodes) ⟨bytes "t", 1, 3, 0⟩

/-- The table is created over a node that is down, and another node goes down. -/
def createdOverDown : List Event :=
  [ping 1, ping 2, ping 3, down 3 [3], create 4 0 threeReplicas, down 4 [2]]

theorem builtByNode_threeReplicas : System.Admits BuiltByNode MetaInfo.apply MetaInfo.start
      (createdOverDown ++ [ping 3]) := by
  refine .cons trivial rfl (.cons trivial rfl (.cons trivial rfl (.cons trivial rfl
    (.cons ?_ rfl (.cons trivial rfl (.cons trivial rfl trivial))))))
  intro _
  exact ⟨_, ⟨bytes "t", 1, 3, 0⟩, 3, by decide, by decide, by decide, rfl⟩

/-- The node the table was created over is its slave twice after its first ping. -/
theorem returned_twice : ∃ s table p, (metaSystem.restrict BuiltByNode).Reachable s ∧
      s.tableInfo.lookup (bytes "t") = some table ∧ p ∈ table.partitions ∧
      p.slaves = [node 3, node 3] ∧ ¬p.WellFormed table.duplicateNum := by
  refine ⟨after (createdOverDown ++ [ping 3]), _, ⟨0, .active, some (node 1), [node 3, node 3]⟩,
    reachable_restrict_after _ rfl builtByNode_threeReplicas, rfl, by decide, rfl, ?_⟩
  intro h
  exact absurd h.nodup (by decide)

end Noah
