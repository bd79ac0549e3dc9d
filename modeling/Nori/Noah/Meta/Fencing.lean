import Nori.Noah.Meta.Run

/-!
# The fencing token

A node compares the epoch of a request, and the version of the table it names, with its own. Both
numbers come from `MetaInfo`, and together they determine the placement of the table: along a run
the counters never fall, and as long as the epoch stands still a table is only ever edited under a
version that no table had before.
-/

namespace Noah

open Butil Container Transition

variable {s s' : MetaInfo}

/-- No table is newer than the global version. -/
def MetaInfo.VersionBounded (s : MetaInfo) : Prop :=
  ∀ name table, s.tableInfo.lookup name = some table → table.version ≤ s.version.version

/-- A later state, as a holder of version numbers sees it: the counters are no smaller, and at the
same epoch a table whose version the earlier state had reached is still what it was there. -/
structure Fence (s s' : MetaInfo) : Prop where
  epoch_le : s.version.epoch ≤ s'.version.epoch
  version_le : s.version.version ≤ s'.version.version
  placement : s.version.epoch = s'.version.epoch → ∀ name table,
    s'.tableInfo.lookup name = some table → table.version ≤ s.version.version →
      s.tableInfo.lookup name = some table

namespace Fence

theorem refl (s : MetaInfo) : Fence s s := ⟨le_rfl, le_rfl, fun _ _ _ h _ => h⟩

theorem trans {t : MetaInfo} (h : Fence s t) (h' : Fence t s') : Fence s s' where
  epoch_le := h.epoch_le.trans h'.epoch_le
  version_le := h.version_le.trans h'.version_le
  placement hepoch name table htable hversion := by
    -- the epochs of the ends agree, so the one in between is squeezed
    have hst : s.version.epoch = t.version.epoch := le_antisymm h.epoch_le (hepoch ▸ h'.epoch_le)
    have ht := h'.placement (hst ▸ hepoch) name table htable (hversion.trans h.version_le)
    exact h.placement hst name table ht hversion

theorem table_eq (h : Fence s s') (hbound : s.VersionBounded)
    (hepoch : s.version.epoch = s'.version.epoch) {name : Bytes} {table table' : Table}
    (htable : s.tableInfo.lookup name = some table)
    (htable' : s'.tableInfo.lookup name = some table') (hversion : table.version = table'.version) :
    table = table' := by
  have hle : table'.version ≤ s.version.version := hversion ▸ hbound name table htable
  have hsame := h.placement hepoch name table' htable' hle
  rwa [htable, Option.some.injEq] at hsame

theorem of_epoch_succ (hepoch : s'.version.epoch = s.version.epoch + 1)
    (hversion : s'.version.version = s.version.version) : Fence s s' where
  epoch_le := by omega
  version_le := hversion.ge
  placement h := by omega

theorem of_edit (hepoch : s'.version.epoch = s.version.epoch)
    (hversion : s.version.version ≤ s'.version.version)
    (hedit : ∀ name table, s'.tableInfo.lookup name = some table →
      s.tableInfo.lookup name = some table ∨ table.version = s.version.version + 1) :
    Fence s s' where
  epoch_le := hepoch.ge
  version_le := hversion
  placement _ name table htable hle := by
    rcases hedit name table htable with h | h
    · exact h
    · omega

end Fence

/-! ## One step -/

theorem migrateFromTable_version (nodes : NodeInfoMap) (version : ℤ) (node : Node) (table : Table) :
    (migrateFromTable nodes version node table).version = table.version ∨
      (migrateFromTable nodes version node table).version = version := by
  simp only [migrateFromTable]
  split
  · exact .inr rfl
  · exact .inl rfl

namespace MetaInfo

theorem version_le_bumpVersion : s.version.version ≤ s.bumpVersion.version.version := by
  simp only [bumpVersion]
  omega

end MetaInfo

open MetaInfo

open Fence

theorem Fence.effect {env : Env} {op : Op} (heffect : Effect env s op s') : Fence s s' := by
  cases heffect with
  | unchanged => exact refl s
  | stamped node info known up => exact of_edit rfl le_rfl fun _ _ h => .inl h
  -- a failback writes the current version into the tables it edits: only the epoch fences it
  | failedBack node info known down | registered node unknown => exact of_epoch_succ rfl rfl
  | created table absent =>
    refine of_edit rfl version_le_bumpVersion ?_
    intro name table' htable
    rw [lookup_addTable] at htable
    split at htable
    · cases htable
      exact .inr rfl
    · exact .inl htable
  | downed nodes member => refine of_epoch_succ ?_ ?_ <;> rw [generateMigrateTasks_version] <;> rfl
  | dropped tables changed =>
    have hframe := (foldl_dropOne_frame tables (false, s)).1
    refine of_edit ?_ ?_ ?_
    · rw [bumpVersion, hframe]
    · rw [← show _ = s.version from hframe]
      exact version_le_bumpVersion
    · -- tables only disappear, so a table that is still there is untouched
      intro name table htable
      change (tables.foldl dropOne (false, s)).2.tableInfo.lookup name = some table at htable
      rw [lookup_foldl_dropOne] at htable
      split at htable
      · cases htable
      · exact .inl htable
  | migrated processor table p listed partition fresh =>
    refine of_edit rfl version_le_bumpVersion ?_
    intro name table' htable
    rw [lookup_addReplica listed] at htable
    split at htable
    · cases htable
      exact .inr rfl
    · exact .inl htable

theorem MetaInfo.VersionBounded.effect {env : Env} {op : Op} (h : s.VersionBounded)
    (heffect : Effect env s op s') : s'.VersionBounded := by
  -- failovers and failbacks reuse a version, creations and migrations take the next one
  have hle := (Fence.effect heffect).version_le
  refine heffect.forall_tables (P := fun _ table => table.version ≤ s'.version.version)
    ?_ ?_ ?_ ?_ ?_
  · intro node info _ _ _ name table table' htable htaken
    have hbound := h name table htable
    rcases htaken.version_eq with hv | hv <;> omega
  · rintro table - rfl
    exact le_rfl
  · intro nodes node name table hbound
    rcases migrateFromTable_version nodes s.version.version node table with hv | hv <;> omega
  · rintro processor table p - - - - rfl
    exact le_rfl
  · intro name table htable
    exact (h name table htable).trans hle

/-! ## Runs -/

theorem fence_of_run (h : s.VersionBounded) (hrun : metaSystem.Run s s') :
    s'.VersionBounded ∧ Fence s s' := by
  refine hrun.preorder refl (fun _ _ _ => trans) ?_ h
  intro s event s' hstep hs
  have heffect := effect_of_apply hstep
  exact ⟨hs.effect heffect, effect heffect⟩

theorem versionBounded_of_reachable (h : metaSystem.Reachable s) : s.VersionBounded := by
  obtain ⟨s₀, rfl, hrun⟩ := h
  refine (fence_of_run ?_ hrun).1
  intro name table htable
  simp [start] at htable

/-- **The fencing token.** Along a run neither counter falls, and two states at the same epoch
that hold a table at the same version hold it with the same partitions. -/
theorem placement_of_epoch_version (hreach : metaSystem.Reachable s) (hrun : metaSystem.Run s s') :
    s.version.epoch ≤ s'.version.epoch ∧ s.version.version ≤ s'.version.version ∧
      (s.version.epoch = s'.version.epoch → ∀ name table table',
        s.tableInfo.lookup name = some table → s'.tableInfo.lookup name = some table' →
        table.version = table'.version → table.partitions = table'.partitions) := by
  have hbound := versionBounded_of_reachable hreach
  have hfence := (fence_of_run hbound hrun).2
  refine ⟨hfence.epoch_le, hfence.version_le, ?_⟩
  intro hepoch name table table' htable htable' hversion
  rw [hfence.table_eq hbound hepoch htable htable' hversion]

open Sample

/-- A table of one partition, created and left alone by a ping. -/
def oneTable : List Event := [ping 1, create 1 0 (table 1 [⟨0, .active, some (node 1), []⟩])]

theorem placement_of_epoch_version_ping : ∃ table table',
      (after oneTable).tableInfo.lookup (bytes "t") = some table ∧
      (after (oneTable ++ [ping 1])).tableInfo.lookup (bytes "t") = some table' ∧
      table.partitions = table'.partitions :=
  ⟨_, _, rfl, rfl, (placement_of_epoch_version (reachable_after oneTable rfl)
    (run_after oneTable [ping 1] rfl)).2.2 rfl (bytes "t") _ _ rfl rfl rfl⟩

end Noah
