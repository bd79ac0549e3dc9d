import Nori.Transition.DoubleChecked
import Nori.Noah.Meta.Fencing
import Nori.Noah.Meta.Server

/-!
# The cached snapshot

`GetMetaInfoSnapshot` hands out one shared copy of `MetaInfo` for as long as neither counter has
grown. Every operation that changes what a read can see moves a counter, a stamp alone never shows,
and a snapshot that is loaded from a later state is newer. So a copy that passes `Changed` answers
as the state of that moment, although pulls by node leave empty entries behind in it.
-/

namespace Noah

open Butil Container Transition DoubleChecked.State DoubleChecked.Cache DoubleChecked MetaInfo
  Relation

variable {s s' t g : MetaInfo}

/-! ## Answers -/

/-- What reads see of a state. -/
structure Mirrors (snapshot s : MetaInfo) : Prop where
  version_eq : snapshot.version = s.version
  tableInfo_eq : snapshot.tableInfo = s.tableInfo
  tablesOf_eq : ∀ node, tablesOf snapshot.nodeTable node = tablesOf s.nodeTable node
  nodes_eq : nodeStatuses snapshot.nodes = nodeStatuses s.nodes

namespace Mirrors

theorem refl (s : MetaInfo) : Mirrors s s := ⟨rfl, rfl, fun _ => rfl, rfl⟩

theorem trans (h : Mirrors s t) (h' : Mirrors t s') : Mirrors s s' where
  version_eq := h.version_eq.trans h'.version_eq
  tableInfo_eq := h.tableInfo_eq.trans h'.tableInfo_eq
  tablesOf_eq node := (h.tablesOf_eq node).trans (h'.tablesOf_eq node)
  nodes_eq := h.nodes_eq.trans h'.nodes_eq

theorem pullResponse_eq (h : Mirrors s s') (node : Option Node) (names : List Bytes)
    (all : Bool) : pullResponse s node names all = pullResponse s' node names all := by
  have htables : pullTables s node names all = pullTables s' node names all := by
    cases node with
    | some node => simp only [pullTables, h.tablesOf_eq, h.tableInfo_eq]
    | none => simp only [pullTables, h.tableInfo_eq]
  simp only [pullResponse, h.version_eq, h.nodes_eq, htables]

theorem listTableResponse_eq (h : Mirrors s s') (request : MetaCmdRequest) :
    listTableResponse s request = listTableResponse s' request := by
  simp only [listTableResponse, h.version_eq, h.tableInfo_eq]

theorem listNodeResponse_eq (h : Mirrors s s') (request : MetaCmdRequest) :
    listNodeResponse s request = listNodeResponse s' request := by
  simp only [listNodeResponse, h.version_eq, h.nodes_eq]

theorem pullSnapshot (node : Option Node) (h : Mirrors s s') :
    Mirrors (pullSnapshot s node) s' := by
  refine trans ?_ h
  unfold Noah.pullSnapshot
  split
  · exact refl s
  · rename_i node
    split
    · exact refl s
    · rename_i habsent
      refine ⟨rfl, rfl, fun other => ?_, rfl⟩
      unfold tablesOf
      by_cases hother : other = node
      · subst hother
        rw [AList.lookup_insert, habsent]
        rfl
      · have hkey : node2String other ≠ node2String node := fun h => hother (node2String_inj.mp h)
        rw [AList.lookup_insert_ne hkey]

theorem stamp (clock : Clock) {node : Node} {info : NodeInfo}
    (known : s.nodes.lookup (node2String node) = some info) (up : info.lastAliveTime ≠ 0) :
    Mirrors s (s.stamp clock node) := by
  refine ⟨rfl, rfl, fun _ => rfl, ?_⟩
  refine (UnorderedMap.map_entries_replace _ known ?_).symm
  -- up before, and up after since a clock reading is never zero
  simp [NodeInfo.state, up, clock.pos.ne']

theorem refreshNodes (clock : Clock) (s : MetaInfo) : Mirrors s (s.refreshNodes clock) := by
  refine ⟨rfl, rfl, fun _ => rfl, ?_⟩
  refine (UnorderedMap.map_entries_traverse _ ?_ () s.nodes).symm
  intro _ key info
  by_cases hdown : info.lastAliveTime = 0
  · simp [hdown]
  · simp [hdown, NodeInfo.state, clock.pos.ne']

end Mirrors

/-! ## Counters -/

/-- A version is older than another: the epoch decides first. -/
def VersionInfo.Older (v w : VersionInfo) : Prop :=
  v.epoch < w.epoch ∨ v.epoch = w.epoch ∧ v.version < w.version

theorem VersionInfo.Older.trans {u v w : VersionInfo} (h : u.Older v) (h' : v.Older w) :
    u.Older w := by
  unfold VersionInfo.Older at *
  omega

/-- A state a state came to: it is newer, or gives the same answers. -/
def Succeeds (g s : MetaInfo) : Prop := g.version.Older s.version ∨ Mirrors g s

namespace Succeeds

theorem trans (h : Succeeds g s) (h' : Succeeds s s') : Succeeds g s' := by
  -- a newer state stays newer whatever follows; only two equal answers make an equal answer
  rcases h with h | h <;> rcases h' with h' | h'
  · exact .inl (h.trans h')
  · exact .inl (h'.version_eq ▸ h)
  · exact .inl (h.version_eq ▸ h')
  · exact .inr (h.trans h')

theorem of_epoch_succ (h : s'.version.epoch = s.version.epoch + 1) : Succeeds s s' :=
  .inl (.inl (by omega))

theorem of_version_succ (h : s'.version.epoch = s.version.epoch)
    (h' : s'.version.version = s.version.version + 1) : Succeeds s s' :=
  .inl (.inr ⟨h.symm, by omega⟩)

/-- What changes an answer moves a counter. -/
theorem effect {env : Env} {op : Op} (h : Effect env s op s') : Succeeds s s' := by
  cases h with
  | unchanged => exact .inr (.refl s)
  | stamped node info known up => exact .inr (.stamp env.clock known up)
  | failedBack node info known down => exact of_epoch_succ rfl
  | registered node unknown => exact of_epoch_succ rfl
  | created table absent => exact of_version_succ rfl rfl
  | downed nodes member =>
    refine of_epoch_succ ?_
    rw [generateMigrateTasks_version]
    rfl
  | dropped tables changed =>
    have hframe := (foldl_dropOne_frame tables (false, s)).1
    refine of_version_succ ?_ ?_ <;> simp only [bumpVersion, hframe]
  | migrated processor table p listed partition fresh => exact of_version_succ rfl rfl

theorem mirrors_of_unchanged (h : Succeeds g s) (hfresh : s.changed g.version = false) :
    Mirrors g s := by
  rcases h with h | h
  -- `Changed` compares the counters one by one, so an older version is always noticed
  · simp only [changed, Bool.or_eq_false_iff, decide_eq_false_iff_not] at hfresh
    unfold VersionInfo.Older at h
    omega
  · exact h

end Succeeds

/-! ## Loading a later state -/

/-- A later state of the same log: a replica that had the version of `s` at some time applied
further operations, refreshed its stamps and restarted from its own snapshots on the way to it. -/
inductive Later (s : MetaInfo) : MetaInfo → Prop
  | same {t : MetaInfo} (h : t.version = s.version) : Later s t
  | op {t t' : MetaInfo} (event : Event) (ht : Later s t) (h : t.apply event = some t') : Later s t'
  | refresh {t : MetaInfo} (clock : Clock) (ht : Later s t) : Later s (t.refreshNodes clock)
  | restart {t : MetaInfo} (load : LoadEnv) (ht : Later s t) :
      Later s (setMetaInfoSnapshot load (saveSnapshot t))

theorem Later.version (h : Later s t) : t.version = s.version ∨ s.version.Older t.version := by
  induction h with
  | same h => exact .inl h
  | op event _ happly ih =>
    rcases Succeeds.effect (effect_of_apply happly) with holder | hmirrors
    · exact .inr (ih.elim (fun h => h ▸ holder) fun h => h.trans holder)
    · rwa [← hmirrors.version_eq]
  | refresh clock _ ih => exact ih
  | restart load _ ih => exact ih

theorem Succeeds.load (load : LoadEnv) (h : Later s t) :
    Succeeds s (s.onSnapshotLoad load (saveSnapshot t)) := by
  unfold onSnapshotLoad loadFromSnapshot
  split
  · exact .inr (.refl s)
  · rename_i hnewer
    rw [setMetaInfoSnapshot_version] at hnewer
    refine .inl ?_
    -- `LoadFromSnapshot` refuses an equal version, and a later state has no smaller one
    rcases h.version with heq | holder
    · exact absurd ⟨by rw [heq], by rw [heq]⟩ hnewer
    · exact holder

/-! ## Interleavings -/

/-- What happens to `MetaInfo` while it is read. -/
inductive MetaStep
  | operate (event : Event)
  | refresh (clock : Clock)
  | load (load : LoadEnv) (peer : MetaInfo)

/-- `MetaInfo` from any state on. -/
def loadingSystem : System MetaInfo MetaStep where
  init _ := True
  step s e s' :=
    match e with
    | .operate event => s.apply event = some s'
    | .refresh clock => s' = s.refreshNodes clock
    | .load load peer => Later s peer ∧ s' = s.onSnapshotLoad load (saveSnapshot peer)

/-- `snapshot_`: copies of `MetaInfo` that `Changed` judges by their version, and that pulls by
node touch. A new object is an empty one. -/
def snapshotCache : DoubleChecked.Cache MetaInfo MetaInfoSnapshot Node where
  blank := MetaInfo.start
  copy := MetaInfo.getSnapshot
  stale snapshot s := s.changed snapshot.version
  touch node snapshot := pullSnapshot snapshot (some node)

/-- The calls of `GetMetaInfoSnapshot` by the threads `τ`, with the lookups of `DealPull` in what
they return, interleaved with what happens to `MetaInfo`. -/
def snapshotSystem (τ : Type) [DecidableEq τ] :
    System (DoubleChecked.State τ MetaInfo MetaInfoSnapshot)
      (DoubleChecked.Label τ MetaStep Node) :=
  DoubleChecked.system loadingSystem snapshotCache

theorem Succeeds.step {e : MetaStep} (h : loadingSystem.step s e s') : Succeeds s s' := by
  cases e with
  | operate event => exact .effect (effect_of_apply h)
  | refresh clock =>
    cases h
    exact .inr (.refreshNodes clock s)
  | load load peer =>
    obtain ⟨hlater, rfl⟩ := h
    exact .load load hlater

theorem snapshotCache_coherent :
    DoubleChecked.Coherent loadingSystem snapshotCache Mirrors Succeeds where
  agrees_copy s := .refl s
  agrees_touch node _ _ h := h.pullSnapshot (some node)
  stale_touch node snapshot s := by
    simp only [snapshotCache, (Mirrors.pullSnapshot node (.refl snapshot)).version_eq]
  follows_refl s := .inr (.refl s)
  follows_step _ _ _ _ h hstep := h.trans (.step hstep)
  agrees_of_fresh _ _ _ hfollows hfresh hmirrors :=
    hmirrors.trans (hfollows.mirrors_of_unchanged hfresh)

open Sample

/-- A ping arrived between the allocation of a snapshot and its copy. -/
def pingedBeforeCopy : DoubleChecked.State Unit MetaInfo MetaInfoSnapshot :=
  ⟨after [ping 1], [after [ping 1]], some 0, none,
    Function.update (Function.update (fun _ => .idle) () .missed) () (.returned 0 (after [ping 1]))⟩

end Noah
