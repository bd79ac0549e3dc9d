import Nori.Noah.Meta.Placement
import Mathlib.Data.List.Perm.Subperm

/-!
# Failover and failback restore the placement

Take a cluster that is whole: every node is up, and every partition is active on the nodes the
creation rule gives it. However its nodes then go down and come back, a partition always has those
of its original replicas that are up, and once all nodes are up it is active again, with its
original master.

Two things can break this, and are excluded by hypothesis. The keys of the nodes have to read back
as the nodes they were made from; and the empty node must not be a member, because
`MigrateFromTable` takes it for the master of a partition that has none, and so does not remove it
from the slaves.
-/

namespace Noah

open Butil Container Transition MetaInfo List UnorderedMap Sample Option AList

/-! ## One partition -/

/-- The replicas the creation rule gives a partition. -/
def ruleReplicas (nodes : List Node) (base d : ℕ) : List Node :=
  (List.range d).map (placedAt nodes base)

variable {d : ℕ} {nodes : List Node} {s : MetaInfo} {p : Partition} {n : Node}

theorem nodup_ruleReplicas (base : ℕ) (hnodes : nodes.Nodup)
    (hd : d ≤ nodes.length) : (ruleReplicas nodes base d).Nodup :=
  nodup_map_placedAt base hnodes hd

namespace Partition

/-- A partition has those of its original replicas that are alive, its original master when that
is alive, and is active when all of them are. -/
structure Follows (alive : Node → Prop) (nodes : List Node) (base d : ℕ) (p : Partition) :
    Prop where
  nodup : p.replicas.Nodup
  mem_iff : ∀ n, n ∈ p.replicas ↔ n ∈ ruleReplicas nodes base d ∧ alive n
  master_eq : alive (placedAt nodes base 0) → p.master = some (placedAt nodes base 0)
  active_iff : p.status = .active ↔ ∀ n ∈ ruleReplicas nodes base d, alive n

variable {alive : Node → Prop} {nodes : List Node} {base d : ℕ} {p : Partition} {node : Node}

theorem getMaster_mem_replicas {m : Node} (h : p.master = some m) : m ∈ p.replicas :=
  mem_replicas.mpr (.inl h)

theorem release_of_notMem (hempty : node ≠ default) (hmem : node ∉ p.replicas) :
    (p.release node).2 = false := by
  have hmaster : node ≠ p.getMaster := by
    cases hm : p.master with
    | none => simpa [getMaster, hm] using hempty
    | some m =>
      rintro rfl
      refine hmem (getMaster_mem_replicas ?_)
      simp [getMaster, hm]
  have hslave : node ∉ p.slaves := fun h => hmem (mem_replicas.mpr (.inr h))
  simp [release, hmaster, hslave]

theorem release_of_mem (hempty : node ≠ default) (hnodup : p.replicas.Nodup)
    (hmem : node ∈ p.replicas) :
    (p.release node).2 = true ∧ (p.release node).1.replicas = p.replicas.filter (· ≠ node) ∧
      (p.master ≠ some node → (p.release node).1.master = p.master) := by
  by_cases hm : p.master = some node
  · have hget : node = p.getMaster := by simp [getMaster, hm]
    have hreplicas : p.replicas = node :: p.slaves := by simp [replicas, hm]
    rw [hreplicas, nodup_cons] at hnodup
    have hfilter : p.slaves.filter (· ≠ node) = p.slaves := by
      rw [filter_eq_self]
      intro n hn
      simp only [ne_eq, decide_not, Bool.not_eq_true', decide_eq_false_iff_not]
      rintro rfl
      exact hnodup.1 hn
    refine ⟨by simp [release, ← hget], ?_, fun hne => absurd hm hne⟩
    rw [hreplicas, filter_cons_of_neg (by simp), hfilter]
    simp [release, ← hget, replicas]
  · have hget : node ≠ p.getMaster := by
      cases hm' : p.master with
      | none => simpa [getMaster, hm'] using hempty
      | some m =>
        rintro rfl
        simp [getMaster, hm'] at hm
    have hslave : node ∈ p.slaves := (mem_replicas.mp hmem).resolve_left hm
    refine ⟨by simp [release, hget, hslave], ?_, by simp [release, hget]⟩
    simp only [release, if_neg hget, replicas, filter_append]
    congr 1
    cases hm' : p.master with
    | none => rfl
    | some m =>
      have hne : m ≠ node := fun h => hm (h ▸ hm')
      simp [hne]

variable (registered : Node → Bool)

theorem replicas_settle_perm (p : Partition) : (p.settle registered).replicas.Perm p.replicas := by
  cases hm : p.master with
  | some m =>
    rw [settle_of_some registered hm]
    exact .refl _
  | none =>
    rw [settle_of_none registered hm, replicas_of_none hm]
    exact promote_perm registered p.slaves

theorem status_settle_ne_active (p : Partition) : (p.settle registered).status ≠ .active := by
  cases hm : p.master with
  | some m => simp [settle_of_some registered hm]
  | none =>
    rw [settle_of_none registered hm]
    simp only
    split <;> simp

theorem Follows.of_notMem (hmem : node ∉ p.replicas) (h : p.Follows alive nodes base d) :
    p.Follows (fun n => alive n ∧ n ≠ node) nodes base d := by
  -- the node was not among the original replicas, or it was down already
  have hnot : node ∈ ruleReplicas nodes base d → ¬alive node := fun hrule halive =>
    hmem ((h.mem_iff node).mpr ⟨hrule, halive⟩)
  have hsame : ∀ n ∈ ruleReplicas nodes base d, (alive n ∧ n ≠ node ↔ alive n) := by
    intro n hrule
    refine and_iff_left_of_imp fun halive => ?_
    rintro rfl
    exact hnot hrule halive
  refine ⟨h.nodup, ?_, fun hfirst => h.master_eq hfirst.1, ?_⟩
  · intro n
    rw [h.mem_iff]
    exact and_congr_right fun hrule => (hsame n hrule).symm
  · rw [h.active_iff]
    exact forall₂_congr fun n hrule => (hsame n hrule).symm

/-- **Failover** of a node leaves the original replicas that are still alive. -/
theorem Follows.migrateFrom (hempty : node ≠ default) (h : p.Follows alive nodes base d) :
    (p.migrateFrom registered node).Follows (fun n => alive n ∧ n ≠ node) nodes base d := by
  by_cases hmem : node ∈ p.replicas
  · obtain ⟨hchanged, hreplicas, hmaster⟩ := release_of_mem hempty h.nodup hmem
    obtain ⟨hrule, halive⟩ := (h.mem_iff node).mp hmem
    rw [Partition.migrateFrom, if_pos hchanged]
    have hperm := replicas_settle_perm registered (p.release node).1
    rw [hreplicas] at hperm
    refine ⟨?_, ?_, ?_, ?_⟩
    · exact hperm.nodup_iff.mpr (h.nodup.filter _)
    · intro n
      rw [hperm.mem_iff, mem_filter, h.mem_iff, decide_eq_true_eq, and_assoc]
    · rintro ⟨hfirst, hne⟩
      have hm := h.master_eq hfirst
      -- the original master is alive and not the node, so nobody is promoted in its place
      have hkept : (p.release node).1.master = some (placedAt nodes base 0) := by
        rw [hmaster, hm]
        rw [hm, Ne, some.injEq]
        exact hne
      rw [settle_of_some registered hkept]
      exact hkept
    · refine iff_of_false (status_settle_ne_active _ _) fun hall => ?_
      exact (hall node hrule).2 rfl
  · have hunchanged := release_of_notMem hempty hmem
    rw [Partition.migrateFrom, hunchanged, if_neg Bool.false_ne_true,
      release_of_unchanged hunchanged]
    exact h.of_notMem hmem

theorem status_refreshStatus (q : Partition) :
    (q.refreshStatus d).status = .active ↔ q.master.isSome = true ∧ 1 + q.slaves.length = d := by
  simp only [refreshStatus]
  by_cases h : q.master.isSome = true ∧ 1 + q.slaves.length = d
  · simp [h]
  · rw [if_neg h]
    refine iff_of_false ?_ h
    split <;> simp

theorem follows_refreshStatus (hnodes : nodes.Nodup) (hd : 0 < d) (hle : d ≤ nodes.length)
    {q : Partition} (hnodup : q.replicas.Nodup)
    (hmem : ∀ n, n ∈ q.replicas ↔ n ∈ ruleReplicas nodes base d ∧ alive n)
    (hmaster : alive (placedAt nodes base 0) → q.master = some (placedAt nodes base 0)) :
    (q.refreshStatus d).Follows alive nodes base d := by
  have hrule := nodup_ruleReplicas base hnodes hle
  have hlength : (ruleReplicas nodes base d).length = d := by
    rw [ruleReplicas, length_map, length_range]
  refine ⟨hnodup, hmem, hmaster, ?_⟩
  rw [status_refreshStatus]
  constructor
  · rintro ⟨hsome, hfull⟩ n hn
    -- as many replicas as places: every original replica is one
    obtain ⟨m, hm⟩ := isSome_iff_exists.mp hsome
    have hcount : q.replicas.length = d := by
      rw [length_replicas_of_some hm]
      omega
    have hsub : q.replicas.Subperm (ruleReplicas nodes base d) :=
      hnodup.subperm fun n hn => ((hmem n).mp hn).1
    have hperm := hsub.perm_of_length_le (by omega)
    exact ((hmem n).mp (hperm.mem_iff.mpr hn)).2
  · intro hall
    have hfirst : placedAt nodes base 0 ∈ ruleReplicas nodes base d :=
      mem_map_of_mem (mem_range.mpr hd)
    have hm := hmaster (hall _ hfirst)
    refine ⟨by simp [hm], ?_⟩
    have hperm : q.replicas.Perm (ruleReplicas nodes base d) := by
      rw [perm_ext_iff_of_nodup hnodup hrule]
      intro n
      rw [hmem]
      exact ⟨fun h => h.1, fun h => ⟨h, hall n h⟩⟩
    have hcount := hperm.length_eq
    rw [length_replicas_of_some hm, hlength] at hcount
    omega

theorem places_iff (hread : ∀ n ∈ nodes, string2Node (node2String n) default = n)
    (hne : 0 < nodes.length) (node : Node) (base j : ℕ) :
    Places node nodes base j ↔ node = placedAt nodes base j := by
  have hlt : (base + j) % nodes.length < nodes.length := Nat.mod_lt _ hne
  rw [Places, partNode, placedAt, getD_eq_getElem _ _ hlt, hread _ (getElem_mem hlt)]

/-- **Failback** of a node that was down adds it where it was. -/
theorem Follows.takeBack (hnodes : nodes.Nodup)
    (hread : ∀ n ∈ nodes, string2Node (node2String n) default = n) (hd : 0 < d)
    (hle : d ≤ nodes.length) (hdown : ¬alive node) (h : p.Follows alive nodes base d) :
    (p.takeBack node nodes d base).Follows (fun n => alive n ∨ n = node) nodes base d := by
  have hplaces := places_iff hread (hd.trans_le hle) node base
  have hmem : node ∉ p.replicas := fun hmem => hdown ((h.mem_iff node).mp hmem).2
  unfold Partition.takeBack
  by_cases hrule : node ∈ ruleReplicas nodes base d
  · -- an original replica: the partition is inactive, and the node has one place in it
    have hinactive : p.status ≠ .active := fun hactive => hdown (h.active_iff.mp hactive node hrule)
    obtain ⟨j, hj, hplaced⟩ := mem_map.mp hrule
    rw [mem_range] at hj
    have hunique : ∀ j' < d, Places node nodes base j' ↔ j' = j := by
      intro j' hj'
      rw [hplaces, ← hplaced]
      refine ⟨fun heq => ?_, fun heq => heq ▸ rfl⟩
      exact (placedAt_injOn hnodes (hj.trans_le hle) (hj'.trans_le hle) heq).symm
    rw [if_neg hinactive, foldl_takeSlot_of_unique hj hunique]
    obtain ⟨hperm, hmaster⟩ : (p.failback node j).1.replicas.Perm (node :: p.replicas) ∧
        (alive (placedAt nodes base 0) ∨ placedAt nodes base 0 = node →
          (p.failback node j).1.master = some (placedAt nodes base 0)) := by
      rcases eq_zero_or_pos j with rfl | hpos
      · have hm : p.master ≠ some node := fun hm => hmem (getMaster_mem_replicas hm)
        obtain ⟨hperm, hm'⟩ := replicas_failback_zero hm
        exact ⟨hperm, fun _ => hplaced ▸ hm'⟩
      · obtain ⟨hperm, hm'⟩ := replicas_failback_pos p node hpos
        refine ⟨hperm, fun hfirst => ?_⟩
        rw [hm']
        -- a slave came back: the original master is another node, and keeps its place if it is up
        refine h.master_eq (hfirst.resolve_right fun heq => ?_)
        have hzero := placedAt_injOn hnodes (hd.trans_le hle) (hj.trans_le hle)
          (heq.trans hplaced.symm)
        omega
    refine follows_refreshStatus hnodes hd hle ?_ ?_ hmaster
    · exact hperm.nodup_iff.mpr (nodup_cons.mpr ⟨hmem, h.nodup⟩)
    · intro n
      have hself : n ∈ ruleReplicas nodes base d ∧ n = node ↔ n = node :=
        and_iff_right_of_imp fun heq => heq ▸ hrule
      rw [hperm.mem_iff, mem_cons, h.mem_iff, and_or_left, hself, or_comm]
  · -- the node has no place in the partition
    have hsame : ∀ n ∈ ruleReplicas nodes base d, (alive n ∨ n = node ↔ alive n) := by
      intro n hn
      refine or_iff_left ?_
      rintro rfl
      exact hrule hn
    have hfirst : placedAt nodes base 0 ∈ ruleReplicas nodes base d :=
      mem_map_of_mem (mem_range.mpr hd)
    have hmem_iff : ∀ n, n ∈ p.replicas ↔
        n ∈ ruleReplicas nodes base d ∧ (alive n ∨ n = node) := fun n =>
      (h.mem_iff n).trans (and_congr_right fun hn => (hsame n hn).symm)
    have hmaster : alive (placedAt nodes base 0) ∨ placedAt nodes base 0 = node →
        p.master = some (placedAt nodes base 0) := fun hor =>
      h.master_eq ((hsame _ hfirst).mp hor)
    split
    · refine ⟨h.nodup, hmem_iff, hmaster, ?_⟩
      rw [h.active_iff]
      exact forall₂_congr fun n hn => (hsame n hn).symm
    · have hnone : ∀ j < d, ¬Places node nodes base j := by
        intro j hj hplace
        refine hrule (mem_map.mpr ⟨j, mem_range.mpr hj, ?_⟩)
        exact ((hplaces j).mp hplace).symm
      rw [foldl_takeSlot_of_none hnone]
      exact follows_refreshStatus hnodes hd hle h.nodup hmem_iff hmaster

end Partition

/-! ## States -/

/-- A node is registered and up. -/
def Up (s : MetaInfo) (n : Node) : Prop :=
  ∃ info, s.nodes.lookup (node2String n) = some info ∧ info.lastAliveTime ≠ 0

/-- Every key reads back as a node with that key, and none of these is the empty node. -/
structure Readable (nodes : NodeInfoMap) : Prop where
  key_eq : ∀ key ∈ nodes.keys, node2String (string2Node key default) = key
  ne_default : ∀ key ∈ nodes.keys, string2Node key default ≠ default

namespace Readable

variable {nodes : NodeInfoMap}

theorem nodup_nodeArray (h : Readable nodes) : (nodeArray nodes).Nodup := by
  rw [nodeArray_eq]
  refine List.Nodup.map_on ?_ nodes.keys_nodup
  intro key hkey key' hkey' heq
  rw [← h.key_eq key hkey, ← h.key_eq key' hkey', heq]

theorem reads_back (h : Readable nodes) :
    ∀ n ∈ nodeArray nodes, string2Node (node2String n) default = n := by
  intro n hn
  rw [nodeArray_eq] at hn
  obtain ⟨key, hkey, rfl⟩ := mem_map.mp hn
  rw [h.key_eq key hkey]

theorem ne_default_of_registered (h : Readable nodes) {n : Node}
    (hn : registeredIn nodes n = true) : n ≠ default := by
  obtain ⟨info, hinfo⟩ := isSome_iff_exists.mp hn
  have hkey := mem_keys_of_lookup hinfo
  have hread : string2Node (node2String n) default = n := by
    rw [← node2String_inj]
    exact h.key_eq _ hkey
  exact hread ▸ h.ne_default _ hkey

end Readable

/-- The tables follow the nodes that are alive, and the index is complete. -/
structure MetaInfo.Tracks (nodes : List Node) (alive : Node → Prop) (s : MetaInfo) : Prop where
  bounds : ∀ name table, s.tableInfo.lookup name = some table →
    0 < table.duplicateNum ∧ table.duplicateNum ≤ kMaxDuplicateNumber ∧
      table.duplicateNum ≤ nodes.length
  follows : ∀ name table, s.tableInfo.lookup name = some table →
    ∀ (i : ℕ) (p : Partition), table.partitions[i]? = some p →
      p.Follows alive nodes ((Butil.hash name).toNat % nodes.length + i) table.duplicateNum.toNat
  indexed : s.Indexed

namespace MetaInfo.Tracks

variable {s : MetaInfo} {nodes : List Node} {alive alive' : Node → Prop} {node : Node}

section

variable (h : s.Tracks nodes alive)
include h

theorem congr (halive : ∀ n, alive n ↔ alive' n) : s.Tracks nodes alive' := by
  obtain rfl : alive = alive' := funext fun n => propext (halive n)
  exact h

theorem of_eq (s' : MetaInfo) (htables : s'.tableInfo = s.tableInfo)
    (hindex : s'.nodeTable = s.nodeTable) : s'.Tracks nodes alive where
  bounds := by
    rw [htables]
    exact h.bounds
  follows := by
    rw [htables]
    exact h.follows
  indexed := by
    unfold MetaInfo.Indexed
    rw [htables, hindex]
    exact h.indexed

/-- Tables whose partitions follow other nodes, with an index that lists every original replica
among these. -/
theorem of_tables {s' : MetaInfo} (htables : ∀ name table, s'.tableInfo.lookup name = some table →
      ∃ table₀, s.tableInfo.lookup name = some table₀ ∧ table.duplicateNum = table₀.duplicateNum ∧
        ∀ (i : ℕ) (p : Partition), table.partitions[i]? = some p →
          ∃ p₀, table₀.partitions[i]? = some p₀ ∧ p.Follows alive' nodes
            ((Butil.hash name).toNat % nodes.length + i) table₀.duplicateNum.toNat)
    (hindex : ∀ name table₀ (i : ℕ) p₀ n, s.tableInfo.lookup name = some table₀ →
      table₀.partitions[i]? = some p₀ →
      n ∈ ruleReplicas nodes ((Butil.hash name).toNat % nodes.length + i)
        table₀.duplicateNum.toNat →
      alive' n → name ∈ tablesOf s'.nodeTable n) : s'.Tracks nodes alive' where
  bounds name table htable := by
    obtain ⟨table₀, h₀, hdup, -⟩ := htables name table htable
    rw [hdup]
    exact h.bounds name table₀ h₀
  follows name table htable i p hp := by
    obtain ⟨_, -, hdup, hfollows⟩ := htables name table htable
    obtain ⟨_, -, hp'⟩ := hfollows i p hp
    rwa [hdup]
  indexed name table htable p hp n hn := by
    obtain ⟨table₀, h₀, -, hfollows⟩ := htables name table htable
    obtain ⟨i, hi⟩ := getElem?_of_mem hp
    obtain ⟨p₀, hp₀, hp'⟩ := hfollows i p hi
    obtain ⟨hrule, halive⟩ := (hp'.mem_iff n).mp hn
    exact hindex name table₀ i p₀ n h₀ hp₀ hrule halive

theorem migrateFromNode (hempty : node ≠ default) :
    (s.migrateFromNode node).Tracks nodes (fun n => alive n ∧ n ≠ node) := by
  refine h.of_tables ?_ ?_
  · intro name table htable
    rw [lookup_migrateFromNode] at htable
    split at htable
    · obtain ⟨table₀, h₀, rfl⟩ := map_eq_some_iff.mp htable
      refine ⟨table₀, h₀, rfl, fun i p hp => ?_⟩
      simp only [migrateFromTable, getElem?_map] at hp
      obtain ⟨p₀, hp₀, rfl⟩ := map_eq_some_iff.mp hp
      exact ⟨p₀, hp₀, (h.follows name table₀ h₀ i p₀ hp₀).migrateFrom _ hempty⟩
    · -- a table that is not listed for the node has no replica there
      rename_i hlisted
      refine ⟨table, htable, rfl, fun i p hp => ?_⟩
      refine ⟨p, hp, (h.follows name table htable i p hp).of_notMem fun hmem => hlisted ?_⟩
      exact h.indexed name table htable p (mem_of_getElem? hp) node hmem
  · rintro name table₀ i p₀ n h₀ hp₀ hrule ⟨halive, hne⟩
    have hn₀ := ((h.follows name table₀ h₀ i p₀ hp₀).mem_iff n).mpr ⟨hrule, halive⟩
    rw [tablesOf_migrateFromNode, if_neg hne]
    exact h.indexed name table₀ h₀ p₀ (mem_of_getElem? hp₀) n hn₀

theorem generateMigrateTasks {down : List Node} (hempty : ∀ n ∈ down, n ≠ default) :
    (s.generateMigrateTasks down).Tracks nodes (fun n => alive n ∧ n ∉ down) := by
  induction down generalizing s alive with
  | nil => exact h.congr fun n => by simp
  | cons first rest ih =>
    have hfirst := h.migrateFromNode (hempty first mem_cons_self)
    refine (ih hfirst fun n hn => hempty n (mem_cons_of_mem _ hn)).congr fun n => ?_
    rw [mem_cons, not_or, and_assoc]

end

theorem updatePartNodeMS (h : s.Tracks (nodeArray s.nodes) alive)
    (hnodes : (nodeArray s.nodes).Nodup)
    (hread : ∀ n ∈ nodeArray s.nodes, string2Node (node2String n) default = n)
    (hdown : ¬alive node) :
    (s.updatePartNodeMS node).Tracks (nodeArray s.nodes) (fun n => alive n ∨ n = node) := by
  refine h.of_tables ?_ ?_
  · intro name table htable
    obtain ⟨f, hf, heq⟩ := lookup_updatePartNodeMS s node name
    rw [heq] at htable
    obtain ⟨table₀, h₀, rfl⟩ := map_eq_some_iff.mp htable
    refine ⟨table₀, h₀, (hf table₀).duplicateNum_eq, fun i p hp => ?_⟩
    rw [(hf table₀).partitions_eq, Table.takeBack, getElem?_mapIdx] at hp
    obtain ⟨p₀, hp₀, rfl⟩ := map_eq_some_iff.mp hp
    obtain ⟨hpos, hmax, hle⟩ := h.bounds name table₀ h₀
    refine ⟨p₀, hp₀, ?_⟩
    rw [sizeT_eq_toNat hpos hmax]
    exact (h.follows name table₀ h₀ i p₀ hp₀).takeBack hnodes hread (by omega) (by omega) hdown
  · intro name table₀ i p₀ n h₀ hp₀ hrule halive
    have hfollows₀ := h.follows name table₀ h₀ i p₀ hp₀
    rcases halive with halive | rfl
    · refine mem_tablesOf_updatePartNodeMS ?_
      exact h.indexed name table₀ h₀ p₀ (mem_of_getElem? hp₀) n
        ((hfollows₀.mem_iff n).mpr ⟨hrule, halive⟩)
    · -- an original replica was missing, so the partition was inactive
      have hinactive : p₀.status ≠ .active := fun hactive =>
        hdown (hfollows₀.active_iff.mp hactive n hrule)
      obtain ⟨hpos, hmax, -⟩ := h.bounds name table₀ h₀
      refine mem_tablesOf_updatePartNodeMS_self h₀ ⟨p₀, mem_of_getElem? hp₀, hinactive⟩ ?_
      rw [sizeT_eq_toNat hpos hmax]
      omega

end MetaInfo.Tracks

/-! ## Runs of failovers and failbacks -/

/-- The cluster is whole: every node is up, and every partition is active and placed by the rule
of `NodeServer::CreateTable` over the nodes in iteration order. -/
structure MetaInfo.Whole (s : MetaInfo) : Prop where
  up : ∀ key info, s.nodes.lookup key = some info → info.lastAliveTime ≠ 0
  bounds : ∀ name table, s.tableInfo.lookup name = some table →
    0 < table.duplicateNum ∧ table.duplicateNum ≤ kMaxDuplicateNumber ∧
      table.duplicateNum ≤ (nodeArray s.nodes).length
  placed : ∀ name table, s.tableInfo.lookup name = some table →
    ∀ (i : ℕ) (p : Partition), table.partitions[i]? = some p →
      let rule := buildPartition (nodeArray s.nodes)
        ((Butil.hash name).toNat % (nodeArray s.nodes).length) table.duplicateNum.toNat i
      p.status = .active ∧ p.master = rule.master ∧ p.slaves.Perm rule.slaves

theorem MetaInfo.whole_of_entries (hup : ∀ e ∈ s.nodes.entries, e.2.lastAliveTime ≠ 0)
    (hbounds : ∀ e ∈ s.tableInfo.entries, 0 < e.2.duplicateNum ∧
      e.2.duplicateNum ≤ kMaxDuplicateNumber ∧
      e.2.duplicateNum ≤ (nodeArray s.nodes).length)
    (hplaced : ∀ e ∈ s.tableInfo.entries, ∀ pi ∈ e.2.partitions.zipIdx, pi.1.status = .active ∧
      pi.1.master = (buildPartition (nodeArray s.nodes)
        ((Butil.hash e.1).toNat % (nodeArray s.nodes).length) e.2.duplicateNum.toNat pi.2).master ∧
      pi.1.slaves = (buildPartition (nodeArray s.nodes)
        ((Butil.hash e.1).toNat % (nodeArray s.nodes).length) e.2.duplicateNum.toNat
          pi.2).slaves) : s.Whole where
  up key info h := hup ⟨key, info⟩ (mem_entries_of_lookup h)
  bounds name table h := hbounds ⟨name, table⟩ (mem_entries_of_lookup h)
  placed name table h i p hp := by
    obtain ⟨hactive, hmaster, hslaves⟩ := hplaced ⟨name, table⟩
      (mem_entries_of_lookup h) (p, i) (mem_zipIdx_iff_getElem?.mpr hp)
    exact ⟨hactive, hmaster, .of_eq hslaves⟩

/-- The steps of an outage: members are reported down by an accepted request, or ping. -/
def Outage (s : MetaInfo) (event : Event) : Prop :=
  match event.op with
  | .updateNode node => registeredIn s.nodes node = true
  | .downNodes epoch nodes => epoch = s.version.epoch ∧ ∀ n ∈ nodes, registeredIn s.nodes n = true
  | _ => False

/-- The number of partitions and of replicas of each table. -/
def MetaInfo.skeleton (s : MetaInfo) (name : Bytes) : Option (ℕ × ℤ) :=
  (s.tableInfo.lookup name).map fun table => (table.partitions.length, table.duplicateNum)

/-- What a run of an outage keeps: the members in their order, the tables with their partitions,
and partitions that follow the nodes. -/
structure Tracked (s₀ s : MetaInfo) : Prop where
  keys_eq : s.nodes.keys = s₀.nodes.keys
  skeleton_eq : ∀ name, s.skeleton name = s₀.skeleton name
  tracks : s.Tracks (nodeArray s₀.nodes) (Up s)

namespace Tracked

variable {s₀ s s' : MetaInfo}

theorem nodeArray_eq (h : Tracked s₀ s) : nodeArray s.nodes = nodeArray s₀.nodes := by
  rw [Noah.nodeArray_eq, Noah.nodeArray_eq, h.keys_eq]

theorem registered_iff (h : Tracked s₀ s) (n : Node) :
    registeredIn s.nodes n = true ↔ registeredIn s₀.nodes n = true := by
  unfold registeredIn
  rw [AList.lookup_isSome, AList.lookup_isSome, AList.mem_keys, AList.mem_keys, h.keys_eq]

theorem skeleton_migrateFromNode (s : MetaInfo) (node : Node) (name : Bytes) :
    (s.migrateFromNode node).skeleton name = s.skeleton name := by
  unfold skeleton
  rw [lookup_migrateFromNode]
  split
  · rw [Option.map_map]
    congr 1
    funext table
    simp [migrateFromTable]
  · rfl

theorem skeleton_generateMigrateTasks (s : MetaInfo) (nodes : List Node) (name : Bytes) :
    (s.generateMigrateTasks nodes).skeleton name = s.skeleton name := by
  induction nodes generalizing s with
  | nil => rfl
  | cons first rest ih => rw [generateMigrateTasks_cons, ih, skeleton_migrateFromNode]

theorem skeleton_updatePartNodeMS (s : MetaInfo) (node : Node) (name : Bytes) :
    (s.updatePartNodeMS node).skeleton name = s.skeleton name := by
  obtain ⟨f, hf, hlookup⟩ := lookup_updatePartNodeMS s node name
  unfold skeleton
  rw [hlookup, Option.map_map]
  congr 1
  funext table
  simp [(hf table).partitions_eq, (hf table).duplicateNum_eq, Table.takeBack]

theorem up_stamp_iff {clock : Clock} {node : Node} {info : NodeInfo}
    (hknown : s.nodes.lookup (node2String node) = some info) (n : Node) :
    Up (s.stamp clock node) n ↔ Up s n ∨ n = node := by
  unfold Up stamp
  simp only [lookup_replace]
  by_cases hn : n = node
  · subst hn
    simp [hknown, clock.pos.ne']
  · simp [hn]

theorem up_markDown_iff (nodes : List Node) (n : Node) (t : MetaInfo)
    (ht : t.nodes = (markDown nodes s.nodes).2) : Up t n ↔ Up s n ∧ n ∉ nodes := by
  unfold Up
  rw [ht, lookup_markDown]
  by_cases hn : n ∈ nodes
  · have hkey : node2String n ∈ nodes.map node2String := mem_map_of_mem hn
    simp [hn, hkey]
  · have hkey : node2String n ∉ nodes.map node2String := fun h =>
      hn ((List.mem_map_of_injective node2String_injective).mp h)
    simp [hn, hkey]

theorem keys_markDown (nodes : List Node) (nodeMap : NodeInfoMap) :
    (markDown nodes nodeMap).2.keys = nodeMap.keys := by
  rw [markDown_eq]
  induction nodes generalizing nodeMap with
  | nil => rfl
  | cons n ns ih => rw [foldl_cons, ih, keys_modify]

theorem step {event : Event} (hread : Readable s₀.nodes) (h : Tracked s₀ s)
    (houtage : Outage s event) (hstep : s.apply event = some s') : Tracked s₀ s' := by
  obtain ⟨env, op⟩ := event
  cases effect_of_apply hstep with
  | unchanged => exact h
  -- a ping of a node that is up changes its stamp, and so nothing that is tracked
  | stamped node info known up =>
    refine ⟨?_, h.skeleton_eq, ?_⟩
    · rw [← h.keys_eq]
      exact keys_replace _ _ _
    · refine (h.tracks.of_eq (s.stamp env.clock node) rfl rfl).congr fun n => ?_
      rw [up_stamp_iff known]
      refine (or_iff_left_of_imp ?_).symm
      rintro rfl
      exact ⟨info, known, up⟩
  | failedBack node info known down =>
    -- the stamp comes first, so the nodes that are up during the failback include the node
    have hdown : ¬Up s node := by
      rintro ⟨info', hinfo', hup⟩
      rw [known, some.injEq] at hinfo'
      exact hup (hinfo' ▸ down)
    have harray : nodeArray (s.stamp env.clock node).nodes = nodeArray s₀.nodes := by
      rw [nodeArray_stamp, h.nodeArray_eq]
    refine ⟨?_, ?_, ?_⟩
    · rw [← h.keys_eq]
      exact keys_replace _ _ _
    · intro name
      rw [← h.skeleton_eq]
      exact skeleton_updatePartNodeMS _ _ _
    · have htracks : (s.stamp env.clock node).Tracks
          (nodeArray (s.stamp env.clock node).nodes) (Up s) := by
        rw [harray]
        exact h.tracks.of_eq _ rfl rfl
      rw [← harray]
      refine ((htracks.updatePartNodeMS ?_ ?_ hdown).of_eq
        ((s.stamp env.clock node).updatePartNodeMS node).bumpEpoch rfl rfl).congr ?_
      · rw [harray]
        exact hread.nodup_nodeArray
      · rw [harray]
        exact hread.reads_back
      · intro n
        exact (up_stamp_iff known n).symm
  | registered node unknown =>
    -- a member is known, so it never registers anew
    have hknown : registeredIn s.nodes node = true := houtage
    simp [registeredIn, unknown] at hknown
  | created table absent | dropped tables changed
  | migrated processor table p listed partition fresh => exact houtage.elim
  | downed nodes member =>
    have hnodes : (({ s with nodes := (markDown nodes s.nodes).2 } :
        MetaInfo).bumpEpoch.generateMigrateTasks nodes).nodes = (markDown nodes s.nodes).2 :=
      generateMigrateTasks_nodes
    refine ⟨?_, ?_, ?_⟩
    · rw [hnodes, ← h.keys_eq]
      exact keys_markDown _ _
    · intro name
      rw [skeleton_generateMigrateTasks, ← h.skeleton_eq]
      rfl
    · have htracks : (({ s with nodes := (markDown nodes s.nodes).2 } :
          MetaInfo).bumpEpoch).Tracks (nodeArray s₀.nodes) (Up s) := h.tracks.of_eq _ rfl rfl
      refine (htracks.generateMigrateTasks ?_).congr fun n => ?_
      · intro n hn
        exact hread.ne_default_of_registered ((h.registered_iff n).mp (houtage.2 n hn))
      · exact (up_markDown_iff nodes n _ hnodes).symm

end Tracked

theorem replicas_perm_rule {start i : ℕ} (hd : 0 < d)
    (hmaster : p.master = (buildPartition nodes start d i).master)
    (hslaves : p.slaves.Perm (buildPartition nodes start d i).slaves) :
    p.replicas.Perm (ruleReplicas nodes (start + i) d) := by
  rw [ruleReplicas, ← replicas_buildPartition hd, Partition.replicas, Partition.replicas, hmaster]
  exact hslaves.append_left _

theorem master_buildPartition {start i : ℕ} (hd : 0 < d) :
    (buildPartition nodes start d i).master = some (placedAt nodes (start + i) 0) := by
  obtain ⟨d, rfl⟩ := Nat.exists_eq_add_of_lt hd
  rw [zero_add, buildPartition_succ]

theorem registered_of_mem_rule {nodes : NodeInfoMap} (hread : Readable nodes) {base : ℕ}
    (hd : d ≤ (nodeArray nodes).length)
    (hn : n ∈ ruleReplicas (nodeArray nodes) base d) : node2String n ∈ nodes.keys := by
  obtain ⟨j, hj, rfl⟩ := mem_map.mp hn
  rw [mem_range] at hj
  have hlt : (base + j) % (nodeArray nodes).length < (nodeArray nodes).length :=
    Nat.mod_lt _ (by omega)
  have hmem : placedAt (nodeArray nodes) base j ∈ nodeArray nodes := by
    rw [placedAt, getD_eq_getElem _ _ hlt]
    exact getElem_mem hlt
  rw [nodeArray_eq] at hmem
  obtain ⟨key, hkey, heq⟩ := mem_map.mp hmem
  rw [← nodeArray_eq] at heq
  rw [← heq, hread.key_eq key hkey]
  exact hkey

theorem up_of_mem_keys (h : ∀ key info, s.nodes.lookup key = some info → info.lastAliveTime ≠ 0)
    (hn : node2String n ∈ s.nodes.keys) : Up s n := by
  rw [← AList.mem_keys, ← AList.lookup_isSome] at hn
  obtain ⟨info, hinfo⟩ := isSome_iff_exists.mp hn
  exact ⟨info, hinfo, h _ info hinfo⟩

theorem MetaInfo.Whole.tracked (h : s.Whole) (hread : Readable s.nodes)
    (hindexed : s.Indexed) : Tracked s s := by
  refine ⟨rfl, fun _ => rfl, h.bounds, ?_, hindexed⟩
  intro name table htable i p hp
  obtain ⟨hpos, -, hle⟩ := h.bounds name table htable
  obtain ⟨hactive, hmaster, hslaves⟩ := h.placed name table htable i p hp
  have hd : 0 < table.duplicateNum.toNat := by omega
  have hperm := replicas_perm_rule hd hmaster hslaves
  have hup : ∀ n ∈ ruleReplicas (nodeArray s.nodes)
      ((Butil.hash name).toNat % (nodeArray s.nodes).length + i) table.duplicateNum.toNat,
      Up s n := fun n hn => up_of_mem_keys h.up (registered_of_mem_rule hread (by omega) hn)
  refine ⟨?_, ?_, ?_, ?_⟩
  · exact hperm.nodup_iff.mpr (nodup_ruleReplicas _ hread.nodup_nodeArray (by omega))
  · intro n
    rw [hperm.mem_iff]
    exact ⟨fun hn => ⟨hn, hup n hn⟩, fun hn => hn.1⟩
  · intro _
    rw [hmaster, master_buildPartition hd]
  · exact iff_of_true hactive hup

/-- What became of a partition: it has its original replicas that are up, and once every node is
up it is active with its original master and slaves. -/
structure Restored (s : MetaInfo) (p₀ p : Partition) : Prop where
  mem_iff : ∀ n, n ∈ p.replicas ↔ n ∈ p₀.replicas ∧ Up s n
  restored : (∀ key info, s.nodes.lookup key = some info → info.lastAliveTime ≠ 0) →
    p.status = .active ∧ p.master = p₀.master ∧ ∀ n, n ∈ p.slaves ↔ n ∈ p₀.slaves

theorem Partition.mem_slaves_iff {m : Node} (hm : p.master = some m)
    (hnodup : p.replicas.Nodup) : n ∈ p.slaves ↔ n ∈ p.replicas ∧ n ≠ m := by
  have hslaves : p.slaves = p.replicas.erase m := by simp [replicas, hm]
  rw [hslaves, hnodup.mem_erase_iff, and_comm]

theorem Partition.Follows.restored {base : ℕ}
    {p₀ : Partition} (hperm : p₀.replicas.Perm (ruleReplicas nodes base d))
    (hmaster : p₀.master = some (placedAt nodes base 0))
    (hup : (∀ key info, s.nodes.lookup key = some info → info.lastAliveTime ≠ 0) →
      Up s (placedAt nodes base 0) ∧ ∀ n ∈ ruleReplicas nodes base d, Up s n)
    (h : p.Follows (Up s) nodes base d) (hnodup : p₀.replicas.Nodup) : Restored s p₀ p where
  mem_iff n := by rw [h.mem_iff, hperm.mem_iff]
  restored hall := by
    obtain ⟨hfirst, hrest⟩ := hup hall
    have hm := h.master_eq hfirst
    refine ⟨h.active_iff.mpr hrest, hm.trans hmaster.symm, fun n => ?_⟩
    rw [mem_slaves_iff hm h.nodup, mem_slaves_iff hmaster hnodup, h.mem_iff, hperm.mem_iff]
    refine and_congr_left fun _ => ⟨fun hn => hn.1, fun hn => ⟨hn, hrest n hn⟩⟩

/-- **Failover and failback restore the placement**: in a whole cluster with readable members and
a complete index, whatever the sequence of failovers and failbacks, the partitions of every table
have their original replicas that are up, and get their original placement back once all nodes
are. -/
theorem replicas_follow_nodes {s₀ s : MetaInfo} (hwhole : s₀.Whole) (hread : Readable s₀.nodes)
    (hindexed : s₀.Indexed) (hrun : (metaSystem.restrict Outage).Run s₀ s) (name : Bytes) :
    (s₀.tableInfo.lookup name = none → s.tableInfo.lookup name = none) ∧
      ∀ table₀, s₀.tableInfo.lookup name = some table₀ →
        ∃ table, s.tableInfo.lookup name = some table ∧
          List.Forall₂ (Restored s) table₀.partitions table.partitions := by
  have htracked : Tracked s₀ s := by
    refine hrun.invariant ?_ (hwhole.tracked hread hindexed)
    rintro t event t' ⟨houtage, hstep⟩ ht
    exact ht.step hread houtage hstep
  have hskeleton := htracked.skeleton_eq name
  unfold skeleton at hskeleton
  constructor
  · intro hnone
    rw [hnone, map_none, map_eq_none_iff] at hskeleton
    exact hskeleton
  · intro table₀ h₀
    rw [h₀, map_some, map_eq_some_iff] at hskeleton
    obtain ⟨table, htable, heq⟩ := hskeleton
    obtain ⟨hlength, hdup⟩ := Prod.mk.inj heq
    refine ⟨table, htable, forall₂_iff_get.mpr ⟨hlength.symm, ?_⟩⟩
    intro i hi₀ hi
    obtain ⟨hpos, -, hle⟩ := hwhole.bounds name table₀ h₀
    obtain ⟨-, hmaster, hslaves⟩ := hwhole.placed name table₀ h₀ i _ (getElem?_eq_getElem hi₀)
    have hd : 0 < table₀.duplicateNum.toNat := by omega
    have hperm := replicas_perm_rule hd hmaster hslaves
    have hfollows := htracked.tracks.follows name table htable i _ (getElem?_eq_getElem hi)
    rw [hdup] at hfollows
    refine hfollows.restored hperm (hmaster.trans (master_buildPartition hd)) ?_ ?_
    · intro hall
      have hup : ∀ n ∈ ruleReplicas (nodeArray s₀.nodes)
          ((Butil.hash name).toNat % (nodeArray s₀.nodes).length + i) table₀.duplicateNum.toNat,
          Up s n := by
        intro n hn
        -- the members are still the same, and all of them are up now
        have hkey := registered_of_mem_rule hread (by omega) hn
        exact up_of_mem_keys hall (htracked.keys_eq ▸ hkey)
      exact ⟨hup _ (mem_map_of_mem (mem_range.mpr hd)), hup⟩
    · exact hperm.nodup_iff.mpr (nodup_ruleReplicas _ hread.nodup_nodeArray (by omega))

/-! ## Two nodes -/

/-- A table `t` of one partition with two replicas, on the node `h:1` and a second one. -/
def pairCluster (second : Node) : List Event :=
  let pings := [ping 1, ⟨env, .updateNode second⟩]
  pings ++ [create 2 0 (buildTable (nodeArray (after pings).nodes) ⟨bytes "t", 1, 2, 0⟩)]

/-- The node `h:2` goes down and comes back. -/
theorem replicas_follow_nodes_pair : ∃ table₀ table,
      (after (pairCluster (node 2))).tableInfo.lookup (bytes "t") = some table₀ ∧
      (after (pairCluster (node 2) ++
        [down 2 [2], ping 2])).tableInfo.lookup (bytes "t") = some table ∧
      List.Forall₂ (Restored (after (pairCluster (node 2) ++
        [down 2 [2], ping 2]))) table₀.partitions table.partitions := by
  have hwhole : (after (pairCluster (node 2))).Whole :=
    whole_of_entries (by decide) (by decide) (by decide)
  have hrun : (metaSystem.restrict Outage).Run _ _ :=
    run_restrict_after (pairCluster (node 2)) [down 2 [2], ping 2] rfl
      (.cons ⟨rfl, by decide⟩ rfl (.cons rfl rfl trivial))
  obtain ⟨table, htable, hrestored⟩ := (replicas_follow_nodes hwhole ⟨by decide, by decide⟩
    (indexed_of_entries (by decide)) hrun (bytes "t")).2 _ rfl
  exact ⟨_, table, rfl, htable, hrestored⟩

/-- Both nodes go down, the empty node comes back as a slave without master, and goes down
again. -/
def emptyNodeOutage : List Event :=
  [⟨env, .downNodes 2 [node 1, default]⟩, ⟨env, .updateNode default⟩, ⟨env, .downNodes 4 [default]⟩]

/-- The empty node is down, and the master of the partition. -/
theorem emptyNode_promoted : metaSystem.Reachable (after (pairCluster default)) ∧
      (after (pairCluster default)).Whole ∧
      (after (pairCluster default)).Indexed ∧
      ∃ s table p, (metaSystem.restrict Outage).Run (after (pairCluster default)) s ∧
        s.tableInfo.lookup (bytes "t") = some table ∧ p ∈ table.partitions ∧
        default ∈ p.replicas ∧ ¬Up s default := by
  refine ⟨reachable_after _ rfl, whole_of_entries (by decide) (by decide) (by decide),
    indexed_of_entries (by decide),
    after (pairCluster default ++ emptyNodeOutage), _,
    ⟨0, .slowdown, some default, []⟩,
    run_restrict_after _ _ rfl ?_, rfl, by decide, by decide, ?_⟩
  · exact .cons ⟨rfl, by decide⟩ rfl (.cons rfl rfl (.cons ⟨rfl, by decide⟩ rfl trivial))
  · rintro ⟨info, hinfo, hup⟩
    cases hinfo
    exact hup rfl

end Noah
