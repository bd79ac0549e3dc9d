import Nori.Noah.Meta.Index

/-!
# The placement after `DownNodes`

What an accepted `DownNodes` leaves behind. The listed nodes should be gone from every partition,
the other replicas should still be there, and a partition that has slaves should have a master. The
nodes are taken out in turn, and this comes out exactly where every listed replica has a turn, where
none is both master and slave when its turn comes, and where the slaves that are left have a master.
-/

namespace Noah

open Butil Container Transition List Sample Option

/-! ## Partitions -/

namespace Partition

variable {p q : Partition} {node n : Node} {nodes gone turns : List Node} {registered : Node → Bool}

/-- None of the listed nodes is a replica, every other one is as before, and slaves have a
master. -/
structure TakenDown (nodes : List Node) (p p' : Partition) : Prop where
  absent : ∀ n ∈ nodes, n ∉ p'.replicas
  kept : ∀ n ∉ nodes, p'.replicas.count n = p.replicas.count n
  led : p'.slaves ≠ [] → p'.master.isSome = true

/-- The first registered slave becomes the master. -/
def promote (registered : Node → Bool) (slaves : List Node) : Option Node × List Node :=
  (slaves.find? registered, slaves.eraseP registered)

/-- The master and the slaves that are left when some nodes have given up their places. A master
that is gone is replaced by a slave that is left, and one that was missing once a slave is gone. -/
def left (registered : Node → Bool) (gone : List Node) (p : Partition) : Option Node × List Node :=
  if p.getMaster ∈ gone ∨ p.master = none ∧ ∃ n ∈ gone, n ∈ p.slaves then
    promote registered (p.slaves.filter (· ∉ gone))
  else (p.master, p.slaves.filter (· ∉ gone))

/-- The listed nodes can be taken out of a partition: each one that is a replica has a turn, none is
master and slave at once when its turn comes, and a slave that is left at the end has a master. -/
structure Downable (registered : Node → Bool) (turns nodes : List Node) (p : Partition) : Prop where
  visited : ∀ n ∈ nodes, n ∈ p.replicas → n ∈ turns
  single : ∀ gone n, gone ++ [n] <+: turns → n = (p.left registered gone).1.getD default →
    n ∉ (p.left registered gone).2
  led : (p.left registered turns).2 ≠ [] → (p.left registered turns).1.isSome = true

/-! ### One node -/

/-- What a node leaves behind in a partition with the given master and slaves. -/
def giveUp (registered : Node → Bool) (node : Node) (places : Option Node × List Node) :
    Option Node × List Node :=
  if node = places.1.getD default then promote registered places.2
  else if places.1 = none ∧ node ∈ places.2 then
    promote registered (places.2.filter (· ≠ node))
  else (places.1, places.2.filter (· ≠ node))

theorem places_settle (h : p.master = none) :
    ((p.settle registered).master, (p.settle registered).slaves) = promote registered p.slaves := by
  rw [settle_of_none registered h]
  rfl

theorem places_migrateFrom (registered : Node → Bool) (node : Node) (p : Partition) :
    ((p.migrateFrom registered node).master, (p.migrateFrom registered node).slaves) =
      giveUp registered node (p.master, p.slaves) := by
  unfold migrateFrom release giveUp
  by_cases hget : node = p.getMaster
  · rw [if_pos hget, if_pos rfl, if_pos (show node = p.master.getD default from hget)]
    exact places_settle rfl
  rw [if_neg hget, if_neg (show node ≠ p.master.getD default from hget)]
  by_cases hslave : node ∈ p.slaves
  · rw [if_pos (decide_eq_true hslave)]
    cases hm : p.master with
    | none =>
      rw [if_pos ⟨rfl, hslave⟩]
      exact places_settle rfl
    | some m =>
      rw [settle_of_some registered rfl, if_neg (by simp)]
  · rw [if_neg (by simpa using hslave), if_neg (by simp [hslave])]

theorem filter_ne_of_notMem {slaves : List Node} (h : n ∉ slaves) :
    slaves.filter (· ≠ n) = slaves :=
  filter_eq_self.mpr fun _ hm => decide_eq_true (ne_of_mem_of_not_mem hm h)

/-- A promotion and the removal of another node can be exchanged. -/
theorem giveUp_promote {slaves : List Node}
    (hsingle : n = (promote registered slaves).1.getD default →
      n ∉ (promote registered slaves).2) :
    giveUp registered n (promote registered slaves) =
      promote registered (slaves.filter (· ≠ n)) := by
  unfold promote at hsingle ⊢
  cases hfind : slaves.find? registered with
  | none =>
    have hunregistered := find?_eq_none.mp hfind
    rw [hfind, eraseP_of_forall_not hunregistered] at hsingle
    rw [eraseP_of_forall_not hunregistered]
    unfold giveUp promote
    split
    · rename_i hempty
      rw [filter_ne_of_notMem (hsingle hempty), hfind]
    · have hrest : ∀ m ∈ slaves.filter (· ≠ n), ¬ registered m = true := fun m hm =>
        hunregistered m (mem_of_mem_filter hm)
      rw [find?_eq_none.mpr hrest, eraseP_of_forall_not hrest, ite_self]
  | some m =>
    obtain ⟨hm, before, after, rfl, hbefore⟩ := find?_eq_some_iff_append.mp hfind
    have hbefore' : ∀ b ∈ before, ¬ registered b = true := by simpa using hbefore
    have herase : (before ++ m :: after).eraseP registered = before ++ after := by
      rw [eraseP_append_right _ hbefore', eraseP_cons_of_pos hm]
    rw [hfind, herase] at hsingle
    rw [herase]
    unfold giveUp promote
    by_cases heq : n = m
    · subst heq
      rw [if_pos (show n = (some n).getD default from rfl)]
      have hother : (before ++ n :: after).filter (· ≠ n) = before ++ after := by
        rw [filter_append, filter_cons_of_neg (by simp), ← filter_append]
        exact filter_ne_of_notMem (hsingle rfl)
      rw [hother]
    · rw [if_neg (by simpa using heq), if_neg (by simp)]
      have hrest : ∀ b ∈ before.filter (· ≠ n), ¬ registered b = true := fun b hb =>
        hbefore' b (mem_of_mem_filter hb)
      rw [filter_append, filter_append, filter_cons_of_pos (by simpa using Ne.symm heq),
        eraseP_append_right _ hrest, eraseP_cons_of_pos hm, find?_append,
        find?_eq_none.mpr hrest, find?_cons_of_pos hm]
      rfl

theorem left_concat (hnew : n ∉ gone)
    (hsingle : n = (p.left registered gone).1.getD default → n ∉ (p.left registered gone).2) :
    p.left registered (gone ++ [n]) = giveUp registered n (p.left registered gone) := by
  have hfilter : p.slaves.filter (· ∉ gone ++ [n]) =
      (p.slaves.filter (· ∉ gone)).filter (· ≠ n) := by
    rw [List.filter_filter]
    exact filter_congr fun m _ => by simp [and_comm]
  unfold left at hsingle ⊢
  rw [hfilter]
  by_cases hgone : p.getMaster ∈ gone ∨ p.master = none ∧ ∃ n ∈ gone, n ∈ p.slaves
  · rw [if_pos hgone] at hsingle ⊢
    rw [giveUp_promote hsingle, if_pos]
    exact hgone.imp (mem_append_left _) (And.imp_right fun ⟨m, hm, hslave⟩ =>
      ⟨m, mem_append_left _ hm, hslave⟩)
  · rw [if_neg hgone] at hsingle ⊢
    rw [not_or, not_and] at hgone
    unfold giveUp
    by_cases hmaster : n = p.getMaster
    · rw [if_pos (.inl (by simp [hmaster])), if_pos (show n = p.master.getD default from hmaster)]
      rw [filter_ne_of_notMem (hsingle hmaster)]
    · have hstays : p.getMaster ∉ gone ++ [n] := by simp [hgone.1, Ne.symm hmaster]
      rw [if_neg (show n ≠ p.master.getD default from hmaster)]
      refine if_congr ⟨fun h => ?_, fun ⟨hnone, hslave⟩ => .inr ⟨hnone, n, by simp,
        mem_of_mem_filter hslave⟩⟩ rfl rfl
      obtain ⟨hnone, m, hm, hslave⟩ := h.resolve_left hstays
      -- no slave was gone before, so that it is this node that is one
      rcases mem_append.mp hm with hm | hm
      · exact absurd ⟨m, hm, hslave⟩ (hgone.2 hnone)
      · obtain rfl := mem_singleton.mp hm
        exact ⟨hnone, mem_filter.mpr ⟨hslave, decide_eq_true hnew⟩⟩

theorem count_release_of_ne (h : n ≠ node) :
    (p.release node).1.replicas.count n = p.replicas.count n := by
  unfold release
  split
  · rename_i hmaster
    rw [replicas_of_none rfl, replicas, count_append]
    cases hm : p.master with
    | none => simp
    | some m =>
      have hne : m ≠ n := by
        rintro rfl
        exact h (by rw [hmaster, getMaster, hm]; rfl)
      simp [hne]
  · simp only [replicas, count_append, count_filter (p := fun m => decide (m ≠ node))
      (decide_eq_true h)]

theorem count_migrateFrom_of_ne (registered : Node → Bool) (h : n ≠ node) :
    (p.migrateFrom registered node).replicas.count n = p.replicas.count n := by
  unfold migrateFrom
  split
  · rw [(replicas_settle_perm registered _).count_eq, count_release_of_ne h]
  · exact count_release_of_ne h

/-- A node that is master and slave at its turn keeps a place. -/
theorem mem_migrateFrom_of_both (hmaster : n = p.getMaster) (hslave : n ∈ p.slaves) :
    n ∈ (p.migrateFrom registered n).replicas := by
  unfold migrateFrom release
  rw [if_pos hmaster, if_pos rfl, (replicas_settle_perm registered _).mem_iff, replicas_of_none rfl]
  exact hslave

/-! ### The nodes in turn -/

/-- The partition after the turns of some nodes. -/
def migrateAll (registered : Node → Bool) (turns : List Node) (p : Partition) : Partition :=
  turns.foldl (fun p node => p.migrateFrom registered node) p

theorem migrateAll_concat : p.migrateAll registered (turns ++ [node]) =
    (p.migrateAll registered turns).migrateFrom registered node := foldl_concat ..

theorem count_migrateAll_of_notMem (h : n ∉ turns) :
    (p.migrateAll registered turns).replicas.count n = p.replicas.count n := by
  induction turns using List.reverseRecOn with
  | nil => rfl
  | append_singleton turns node ih =>
    rw [mem_append, not_or, mem_singleton] at h
    rw [migrateAll_concat, count_migrateFrom_of_ne registered h.2, ih h.1]

/-- Either nobody is master and slave at once at its turn, and the outcome is what is left without
the nodes, or one of the nodes stays. -/
theorem migrateAll_cases (registered : Node → Bool) (p : Partition) (hnodup : turns.Nodup) :
    (∀ gone n, gone ++ [n] <+: turns → n = (p.left registered gone).1.getD default →
      n ∉ (p.left registered gone).2) ∧
      ((p.migrateAll registered turns).master, (p.migrateAll registered turns).slaves) =
        p.left registered turns ∨
    ∃ n gone, gone ++ [n] <+: turns ∧ n = (p.left registered gone).1.getD default ∧
      n ∈ (p.left registered gone).2 ∧ n ∈ (p.migrateAll registered turns).replicas := by
  induction turns using List.reverseRecOn with
  | nil =>
    refine .inl ⟨fun gone n h => absurd (prefix_nil.mp h) (by simp), ?_⟩
    simp [left, migrateAll]
  | append_singleton turns node ih =>
    obtain ⟨hturns, -, hnew⟩ := nodup_append.mp hnodup
    have hnew : node ∉ turns := fun hmem => hnew node hmem node mem_cons_self rfl
    rw [migrateAll_concat]
    rcases ih hturns with ⟨hsingle, hplaces⟩ | ⟨n, gone, hpre, hmaster, hslave, hmem⟩
    · by_cases hboth : node = (p.left registered turns).1.getD default ∧
          node ∈ (p.left registered turns).2
      · have hboth' := hboth
        rw [← hplaces] at hboth'
        exact .inr ⟨node, turns, prefix_rfl, hboth.1, hboth.2,
          mem_migrateFrom_of_both hboth'.1 hboth'.2⟩
      · rw [not_and] at hboth
        refine .inl ⟨fun gone n hpre => ?_, ?_⟩
        · rcases prefix_concat_iff.mp hpre with heq | hpre
          · obtain ⟨rfl, hn⟩ := append_inj' heq rfl
            obtain rfl := singleton_inj.mp hn
            exact hboth
          · exact hsingle gone n hpre
        · rw [places_migrateFrom, hplaces, left_concat hnew hboth]
    · refine .inr ⟨n, gone, hpre.trans (prefix_append _ _), hmaster, hslave, ?_⟩
      have hne : n ≠ node := by
        rintro rfl
        exact hnew (hpre.subset (by simp))
      rw [← count_pos_iff, count_migrateFrom_of_ne registered hne]
      exact count_pos_iff.mpr hmem

/-- Nobody who is gone has a place in what is left. -/
theorem notMem_left (hn : n ∈ gone) : (p.left registered gone).1 ≠ some n ∧
    n ∉ (p.left registered gone).2 := by
  have hrest : n ∉ p.slaves.filter (· ∉ gone) := fun h => by simp [hn] at h
  unfold left promote
  split
  · exact ⟨fun h => hrest (mem_of_find?_eq_some h), fun h => hrest (mem_of_mem_eraseP h)⟩
  · rename_i hkept
    refine ⟨fun h => hkept (.inl ?_), hrest⟩
    rwa [getMaster, show p.master = some n from h]

/-- The turns take exactly the listed nodes out of a partition if and only if it can give them
up. -/
theorem takenDown_migrateAll_iff (hnodup : turns.Nodup) (hturns : ∀ n ∈ turns, n ∈ nodes) :
    TakenDown nodes p (p.migrateAll registered turns) ↔ p.Downable registered turns nodes := by
  constructor
  · intro h
    rcases migrateAll_cases registered p hnodup with
      ⟨hsingle, hplaces⟩ | ⟨n, gone, hpre, -, -, hmem⟩
    · refine ⟨fun n hn hmem => ?_, hsingle, ?_⟩
      · by_contra hnot
        refine h.absent n hn ?_
        rw [← count_pos_iff, count_migrateAll_of_notMem hnot]
        exact count_pos_iff.mpr hmem
      · rw [← hplaces]
        exact h.led
    · exact absurd hmem (h.absent n (hturns n (hpre.subset (by simp))))
  · intro h
    rcases migrateAll_cases registered p hnodup with
      ⟨-, hplaces⟩ | ⟨n, gone, hpre, hmaster, hslave, -⟩
    · have hled := h.led
      rw [← hplaces] at hled
      refine ⟨fun n hn hmem => ?_, fun n hn =>
        count_migrateAll_of_notMem fun hmem => hn (hturns n hmem), hled⟩
      by_cases hturn : n ∈ turns
      · have hout : (p.left registered turns).1 ≠ some n ∧ _ := notMem_left hturn
        rw [← hplaces] at hout
        exact (mem_replicas.mp hmem).elim hout.1 hout.2
      · rw [← count_pos_iff, count_migrateAll_of_notMem hturn, count_pos_iff] at hmem
        exact hturn (h.visited n hn hmem)
    · exact absurd hslave (h.single gone n hpre hmaster)

end Partition

/-! ## States -/

/-- The nodes of a list that get a turn at a table: those that the index lists for it, each one
once, because its entry is gone afterwards. -/
def turnsAt (listed : Node → Bool) : List Node → List Node
  | [] => []
  | node :: rest =>
    if listed node then node :: turnsAt (fun n => listed n && n ≠ node) rest
    else turnsAt listed rest

theorem mem_turnsAt {listed : Node → Bool} {nodes : List Node} {n : Node}
    (h : n ∈ turnsAt listed nodes) :
    listed n = true ∧ n ∈ nodes := by
  induction nodes generalizing listed with
  | nil => exact absurd h not_mem_nil
  | cons node rest ih =>
    rw [turnsAt] at h
    split at h
    · rename_i hlisted
      rcases mem_cons.mp h with rfl | hrest
      · exact ⟨hlisted, mem_cons_self⟩
      · obtain ⟨hn, hmem⟩ := ih hrest
        exact ⟨(Bool.and_eq_true_iff.mp hn).1, mem_cons_of_mem _ hmem⟩
    · exact ⟨(ih h).1, mem_cons_of_mem _ (ih h).2⟩

theorem nodup_turnsAt (listed : Node → Bool) (nodes : List Node) :
    (turnsAt listed nodes).Nodup := by
  induction nodes generalizing listed with
  | nil => exact nodup_nil
  | cons node rest ih =>
    rw [turnsAt]
    split
    · refine nodup_cons.mpr ⟨fun h => ?_, ih _⟩
      simpa using (mem_turnsAt h).1
    · exact ih _

namespace MetaInfo

variable {s : MetaInfo} {name : Bytes} {nodes : List Node}

/-- The nodes that get a turn at the table. -/
def turns (nodes : List Node) (s : MetaInfo) (name : Bytes) : List Node :=
  turnsAt (fun node => decide (name ∈ tablesOf s.nodeTable node)) nodes

/-- Every partition can give the listed nodes up. -/
def Downable (nodes : List Node) (s : MetaInfo) : Prop :=
  ∀ name table, s.tableInfo.lookup name = some table → ∀ p ∈ table.partitions,
    p.Downable (registeredIn s.nodes) (s.turns nodes name) nodes

theorem lookup_generateMigrateTasks :
    ((s.generateMigrateTasks nodes).tableInfo.lookup name).map Table.partitions =
      (s.tableInfo.lookup name).map fun table =>
        table.partitions.map (Partition.migrateAll (registeredIn s.nodes)
          (s.turns nodes name)) := by
  induction nodes generalizing s with
  | nil =>
    have hid : Partition.migrateAll (registeredIn s.nodes) (s.turns [] name) = id := rfl
    simp only [hid, List.map_id]
    rfl
  | cons node rest ih =>
    have hlisted : (fun n => decide (name ∈ tablesOf (s.migrateFromNode node).nodeTable n)) =
        fun n => decide (name ∈ tablesOf s.nodeTable n) && decide (n ≠ node) := by
      funext n
      rw [tablesOf_migrateFromNode]
      split <;> simp_all
    rw [generateMigrateTasks_cons, ih, lookup_migrateFromNode, migrateFromNode_nodes]
    simp only [turns, hlisted, turnsAt, decide_eq_true_eq]
    split
    · rw [Option.map_map]
      refine congrArg (Option.map · _) (funext fun table => ?_)
      exact map_map ..
    · rename_i hunlisted
      have hsame : (fun n => decide (name ∈ tablesOf s.nodeTable n) && decide (n ≠ node)) =
          fun n => decide (name ∈ tablesOf s.nodeTable n) := by
        funext n
        by_cases h : n = node <;> simp_all
      rw [hsame]

theorem registeredIn_markDown (nodes : List Node) (nodeMap : NodeInfoMap) :
    registeredIn (markDown nodes nodeMap).2 = registeredIn nodeMap := by
  funext n
  rw [registeredIn, registeredIn, lookup_markDown]
  split
  · rw [isSome_map]
  · rfl

end MetaInfo

/-- The tables of two states, partition by partition. -/
def TablesRel (R : Partition → Partition → Prop) (s s' : MetaInfo) : Prop :=
  ∀ name, Rel (fun table table' : Table => List.Forall₂ R table.partitions table'.partitions)
    (s.tableInfo.lookup name) (s'.tableInfo.lookup name)

theorem tablesRel_iff {R : Partition → Partition → Prop} {s s' : MetaInfo}
    {f : Bytes → Partition → Partition}
    (hs' : ∀ name, (s'.tableInfo.lookup name).map Table.partitions =
      (s.tableInfo.lookup name).map fun table => table.partitions.map (f name)) :
    TablesRel R s s' ↔ ∀ name table, s.tableInfo.lookup name = some table →
      ∀ p ∈ table.partitions, R p (f name p) := by
  refine forall_congr' fun name => ?_
  have hname := hs' name
  cases hbefore : s.tableInfo.lookup name with
  | none =>
    rw [hbefore, map_none, map_eq_none_iff] at hname
    simp [hname]
  | some table =>
    rw [hbefore, map_some, map_eq_some_iff] at hname
    obtain ⟨table', hafter, hpartitions⟩ := hname
    simp [hafter, hpartitions, forall₂_map_right_iff, forall₂_same]

/-- A table of two replicas, of which the master goes down. -/
def masterDown : List Event :=
  [ping 1, ping 2, create 2 0 (table 2 [⟨0, .active, some (node 1), [node 2]⟩])]

/-- A node comes back into a place that it already has, and then becomes master over itself. -/
def twicePlaced : List Event := createdOverDown ++ [ping 3, down 6 [1]]

/-- A table `t` of one partition with two replicas, built over the nodes of two pings. -/
def twoReplicas : Table :=
  buildTable (nodeArray (after [ping 1, ping 2]).nodes) ⟨bytes "t", 1, 2, 0⟩

/-- Both replicas go down, and the slave comes back alone. -/
def slaveAlone : List Event :=
  [ping 1, ping 2, create 2 0 twoReplicas, down 2 [1, 2], ping 2, ping 3]

theorem builtByNode_twicePlaced :
    System.Admits BuiltByNode MetaInfo.apply MetaInfo.start twicePlaced := by
  refine .cons trivial rfl (.cons trivial rfl (.cons trivial rfl (.cons trivial rfl
    (.cons ?_ rfl (.cons trivial rfl (.cons trivial rfl (.cons trivial rfl trivial)))))))
  intro _
  exact ⟨_, ⟨bytes "t", 1, 3, 0⟩, 3, by decide, by decide, by decide, rfl⟩

theorem builtByNode_slaveAlone :
    System.Admits BuiltByNode MetaInfo.apply MetaInfo.start slaveAlone := by
  refine .cons trivial rfl (.cons trivial rfl (.cons ?_ rfl (.cons trivial rfl
    (.cons trivial rfl (.cons trivial rfl trivial)))))
  intro _
  exact ⟨_, ⟨bytes "t", 1, 2, 0⟩, 2, by decide, by decide, by decide, rfl⟩

/-- The test of `CheckExpiredNodes`: an `int64_t` less a `uint64_t` is a `uint64_t`. -/
def NodeInfo.Expired (nodeTimeoutMs : Int32) (now : Int64) (info : NodeInfo) : Prop :=
  0 < info.lastAliveTime ∧
    nodeTimeoutMs.toInt * 1000 % 2 ^ 64 < (now.toInt - info.lastAliveTime) % 2 ^ 64

instance (nodeTimeoutMs : Int32) (now : Int64) (info : NodeInfo) :
    Decidable (info.Expired nodeTimeoutMs now) := inferInstanceAs (Decidable (_ ∧ _))

/-- `CheckExpiredNodes`, which reads the clock for each node: the nodes it reports, and the snapshot
with their times taken out. -/
def MetaInfo.checkExpiredNodes (nodeTimeoutMs : Int32) (now : Bytes → Int64)
    (snapshot : MetaInfoSnapshot) : List Bytes × MetaInfoSnapshot :=
  let r := snapshot.nodes.traverse (fun expiredNodes key info =>
    if info.Expired nodeTimeoutMs (now key) then (expiredNodes ++ [key], ⟨0⟩)
    else (expiredNodes, info)) []
  (r.1, { snapshot with nodes := r.2 })

/-- The clock is not behind the last sign of life and the timeout is not negative, or the clock is
behind and the difference, taken modulo `2 ^ 64`, still gives the right answer. -/
def NodeInfo.Judged (nodeTimeoutMs : Int32) (now : Int64) (info : NodeInfo) : Prop :=
  info.lastAliveTime ≤ now.toInt ∧ 0 ≤ nodeTimeoutMs.toInt ∨
  now.toInt < info.lastAliveTime ∧
    (nodeTimeoutMs.toInt * 1000 < now.toInt - info.lastAliveTime ∨
      (now.toInt - info.lastAliveTime) % 2 ^ 64 ≤ nodeTimeoutMs.toInt * 1000 % 2 ^ 64)

section Expired

variable {nodeTimeoutMs : Int32} {now : Bytes → Int64} {snapshot : MetaInfoSnapshot}

/-- The unsigned comparison is the comparison of integers exactly for the nodes that are judged. -/
theorem NodeInfo.judged_iff {clock : Int64} {info : NodeInfo} (halive : 0 < info.lastAliveTime) :
    info.Judged nodeTimeoutMs clock ↔ (info.Expired nodeTimeoutMs clock ↔
      nodeTimeoutMs.toInt * 1000 < clock.toInt - info.lastAliveTime) := by
  have := nodeTimeoutMs.toInt_lt
  have := nodeTimeoutMs.le_toInt
  have := clock.toInt_lt
  have htimeout : nodeTimeoutMs.toInt * 1000 % 2 ^ 64 =
      if 0 ≤ nodeTimeoutMs.toInt then nodeTimeoutMs.toInt * 1000
      else nodeTimeoutMs.toInt * 1000 + 2 ^ 64 := by
    split <;> omega
  have hnonneg := Int.emod_nonneg (clock.toInt - info.lastAliveTime) (b := 2 ^ 64) (by decide)
  unfold Judged Expired
  rw [and_iff_right halive, htimeout]
  by_cases hbehind : clock.toInt < info.lastAliveTime
  · by_cases hlate : nodeTimeoutMs.toInt * 1000 < clock.toInt - info.lastAliveTime
    · have hwrapped : (clock.toInt - info.lastAliveTime) % 2 ^ 64 =
          clock.toInt - info.lastAliveTime + 2 ^ 64 := by omega
      omega
    · omega
  · rw [Int.emod_eq_of_lt (by omega) (by omega)]
    omega

theorem mem_checkExpiredNodes {key : Bytes} :
    key ∈ (snapshot.checkExpiredNodes nodeTimeoutMs now).1 ↔
      ∃ info, snapshot.nodes.lookup key = some info ∧ info.Expired nodeTimeoutMs (now key) := by
  refine (UnorderedMap.traverse_state_iff (P := (key ∈ ·))
    (R := fun key' info => key' = key ∧ info.Expired nodeTimeoutMs (now key')) ?_ [] _).trans ?_
  · intro expiredNodes key' info
    split <;> simp_all [eq_comm]
  · simp only [not_mem_nil, false_or]
    exact ⟨fun ⟨_, info, hinfo, heq, h⟩ => ⟨info, heq ▸ hinfo, heq ▸ h⟩,
      fun ⟨info, hinfo, h⟩ => ⟨key, info, hinfo, rfl, h⟩⟩

end Expired

/-- A node that was alive at the fifth microsecond. -/
def Sample.alive : MetaInfoSnapshot := { MetaInfo.start with nodes := .assign ∅ [1] ⟨5⟩ }

end Noah
