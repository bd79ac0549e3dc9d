import Nori.Noah.Client.Cluster
import Nori.Noah.Meta.Index

/-!
# The books of `MetaMigrate`

A task waits in `migrate_tasks_` until the master of its partition asks for it, then its copy is
registered in `processor_info_` and counted in `migrating_info_`, and a commit takes it out again.
`CommitMigrate` counts down for whatever processor it is called with. A commit that arrives a second
time therefore takes away the count of another copy to the same node.

A table or a master that is gone is noticed only by `GetMigrateTask`, which has no result then. A
task that is added again while its copy is running waits and runs at the same time.
-/

namespace Noah

open Butil Container Transition MetaMigrate List Option OrderedMap

namespace MetaMigrate

/-- The number of copies of a table that are running to a node. -/
def running (m : MetaMigrate) (tableName : Bytes) (node : Node) : ℕ :=
  m.processorInfo.entries.countP fun e => e.2.task.tableName = tableName ∧ e.2.dst = node

/-- The key of a processor. -/
def processorKey (processor : Processor) : Bytes :=
  processorString processor.task.tableName processor.task.partitionId processor.dst

variable {m : MetaMigrate}

/-! ## Candidates -/

/-- An alive node that holds no replica of the partition and that no copy of it is running to. A
partition without a master is taken to be held by the node without an address. -/
def Candidate (m : MetaMigrate) (table : Table) (partition : Partition)
    (aliveNodes : OrderedSet Node) (node : Node) : Prop :=
  node ∈ aliveNodes ∧ node ∉ partition.visited ∧
    m.processorInfo.find? (processorString table.name partition.id node) = none

/-- The replicas of the table a node holds, absent masters as above, and the copies of the table on
their way to it. -/
def load (m : MetaMigrate) (table : Table) (node : Node) : ℤ :=
  table.visited.count node + m.getMigratingNumber table.name node

/-- No count is above the largest `int`; nothing is counted for a single candidate. -/
def CountsFit (m : MetaMigrate) (table : Table) (partition : Partition)
    (aliveNodes : OrderedSet Node) : Prop :=
  let candidate := m.freeCandidates table partition aliveNodes
  candidate.length ≤ 1 ∨ ∀ node ∈ candidate, m.load table node < 2 ^ 31

instance (m : MetaMigrate) (table : Table) (partition : Partition) (aliveNodes : OrderedSet Node) :
    Decidable (m.CountsFit table partition aliveNodes) :=
  inferInstanceAs (Decidable (_ ∨ ∀ node ∈ _, _))

/-- `FindCandidateNode`, which counts in `int`; nothing is said of a count that overflows. -/
def countedCandidate (m : MetaMigrate) (table : Table) (partition : Partition)
    (aliveNodes : OrderedSet Node) (faultNode : Node) : Option (Option Node) :=
  if m.CountsFit table partition aliveNodes then
    some (m.findCandidateNode table partition aliveNodes faultNode)
  else none

/-- The node has the least load of the list. Among equals the failed node comes first, then the
smallest. -/
structure Least (candidate : List Node) (f : Node → ℤ) (faultNode node : Node) : Prop where
  mem : node ∈ candidate
  le : ∀ n ∈ candidate, f node ≤ f n
  tie : node = faultNode ∨ ∀ n ∈ candidate, f n = f node → n ≠ faultNode ∧ node ≤ n

section

variable {table : Table} {partition : Partition} {aliveNodes : OrderedSet Node}
  {faultNode node : Node} {candidate : List Node} {f : Node → ℤ}

theorem mem_freeCandidates : node ∈ m.freeCandidates table partition aliveNodes ↔
      m.Candidate table partition aliveNodes node := by
  have herase (nodes : List Node) (s : OrderedSet Node) :
      node ∈ nodes.foldl OrderedSet.erase s ↔ node ∈ s ∧ node ∉ nodes := by
    induction nodes generalizing s with
    | nil => simp
    | cons n nodes ih => simp [ih, and_assoc]
  simp [freeCandidates, Candidate, Partition.visited, herase, and_assoc]

theorem find?_foldl_countReplica (nodes : List Node) {counts : OrderedMap Node ℤ}
    (h : ∀ n, counts.find? n = if n ∈ candidate then some (f n) else none) (n : Node) :
    (nodes.foldl (countReplica candidate) counts).find? n =
      if n ∈ candidate then some (nodes.count n + f n) else none := by
  induction nodes generalizing counts f with
  | nil => simp [h]
  | cons node nodes ih =>
    have hstep : ∀ n, (countReplica candidate counts node).find? n =
        if n ∈ candidate then some (f n + if n = node then 1 else 0) else none := by
      intro n
      unfold countReplica
      split_ifs <;> grind [find?_assign]
    rw [foldl_cons, ih hstep]
    grind

theorem least_singleton (node : Node) : Least [node] f faultNode node where
  mem := mem_singleton_self _
  le := by simp
  tie := by
    rw [forall_mem_singleton]
    exact (eq_or_ne node faultNode).imp id fun hne _ => ⟨hne, le_rfl⟩

theorem pickCandidate_least {first : Node × ℤ} {rest : List (Node × ℤ)}
    (hsorted : (first :: rest).Pairwise (fun a b => a.1 < b.1))
    (hf : ∀ e ∈ first :: rest, e.2 = f e.1) :
    Least ((first :: rest).map Prod.fst) f faultNode (pickCandidate faultNode first rest).1 := by
  induction rest generalizing first with
  | nil => exact least_singleton first.1
  | cons e rest ih =>
    obtain ⟨hfirst, htail⟩ := pairwise_cons.mp hsorted
    obtain ⟨he, hrest⟩ := pairwise_cons.mp htail
    have hlt := hfirst e mem_cons_self
    have hf₁ := hf first mem_cons_self
    have hf₂ := hf e (mem_cons_of_mem _ mem_cons_self)
    have hbest : ∀ best ∈ [first, e],
        Least ((best :: rest).map Prod.fst) f faultNode (pickCandidate faultNode best rest).1 := by
      intro best hbest
      refine ih (pairwise_cons.mpr ⟨?_, hrest⟩) ?_ <;> grind
    have hcons : pickCandidate faultNode first (e :: rest) = pickCandidate faultNode
        (if first.2 > e.2 then e
          else if first.2 = e.2 ∧ faultNode = e.1 then (e.1, first.2) else first) rest := rfl
    rw [hcons]
    split_ifs with hless htie
    · obtain ⟨hmem, hle, htie⟩ := hbest e (by simp)
      refine ⟨?_, ?_, ?_⟩ <;> grind
    · rw [show (e.1, first.2) = e from Prod.ext rfl htie.1]
      obtain ⟨hmem, hle, htie⟩ := hbest e (by simp)
      refine ⟨?_, ?_, ?_⟩ <;> grind
    · obtain ⟨hmem, hle, htie⟩ := hbest first (by simp)
      refine ⟨?_, ?_, ?_⟩ <;> grind

variable (m table partition aliveNodes faultNode) in
theorem findCandidateNode_cases : (m.findCandidateNode table partition aliveNodes faultNode = none ∧
      m.freeCandidates table partition aliveNodes = []) ∨
    ∃ node, m.findCandidateNode table partition aliveNodes faultNode = some node ∧
      Least (m.freeCandidates table partition aliveNodes) (m.load table) faultNode node := by
  unfold findCandidateNode
  generalize m.freeCandidates table partition aliveNodes = candidate
  simp only
  split
  · exact .inl ⟨rfl, rfl⟩
  · exact .inr ⟨_, rfl, least_singleton _⟩
  · rename_i hnil _
    have hcounted := find?_foldl_countReplica table.visited (fun n =>
      (find?_foldl_emplace (m.getMigratingNumber table.name) candidate ∅ n).trans (none_or ..))
    rw [Table.visited, foldl_flatMap] at hcounted
    generalize table.partitions.foldl _ _ = counts at hcounted ⊢
    have hmem : ∀ e, e ∈ counts.entries ↔ e.1 ∈ candidate ∧ e.2 = m.load table e.1 := by
      intro e
      rw [← find?_eq_some_iff, hcounted]
      simp [load, Table.visited, eq_comm]
    have hkeys : ∀ n, n ∈ counts.entries.map Prod.fst ↔ n ∈ candidate := by
      intro n
      simp [hmem]
    have hsorted := counts.sorted
    generalize counts.entries = entries at hmem hkeys hsorted ⊢
    cases entries with
    | nil => exact absurd (eq_nil_iff_forall_not_mem.mpr fun n => by simp [← hkeys]) hnil
    | cons first rest =>
      obtain ⟨hin, hle, htie⟩ := pickCandidate_least hsorted fun e he => ((hmem e).mp he).2
      simp only [hkeys] at hin hle htie
      exact .inr ⟨_, rfl, hin, hle, htie⟩

theorem findCandidateNode_candidate
    (h : m.findCandidateNode table partition aliveNodes faultNode = some node) :
    m.Candidate table partition aliveNodes node := by
  obtain ⟨hnone, -⟩ | ⟨_, hsome, hleast⟩ :=
    m.findCandidateNode_cases table partition aliveNodes faultNode
  · cases hnone.symm.trans h
  · cases hsome.symm.trans h
    exact mem_freeCandidates.mp hleast.mem

end

/-- A partition on one of three nodes, another one on the second of them. -/
def Sample.spread : Table :=
  ⟨bytes "t", [⟨0, .active, some ⟨[1], 0⟩, []⟩, ⟨1, .active, some ⟨[2], 0⟩, []⟩], 1, 0, 0⟩

/-- What `GetMigrateTask` does: nothing, or it hands out a waiting task of a partition whose master
asks, to a node that no copy of the partition is running to. -/
theorem getMigrateTask_cases {node : Node} {snapshot : MetaInfoSnapshot} {r : Option Processor}
    {m' : MetaMigrate} {es : List (Bytes × MigrateTask)} (hsub : es ⊆ m.migrateTasks.entries)
    (h : m.getMigrateTaskLoop node snapshot es = some (r, m')) :
    (r = none ∧ m' = m) ∨ ∃ key task table p candidate, m.migrateTasks.find? key = some task ∧
      snapshot.tableInfo.lookup task.tableName = some table ∧
      table.partitionAt task.partitionId = some p ∧
      m.processorInfo.find? (processorString table.name p.id candidate) = none ∧
      r = some ⟨task, node, candidate⟩ ∧ m' = m.assignProcessor key ⟨task, node, candidate⟩ := by
  induction es with
  | nil =>
    cases h
    exact .inl ⟨rfl, rfl⟩
  | cons e es ih =>
    obtain ⟨key, task⟩ := e
    obtain ⟨he, hes⟩ := cons_subset.mp hsub
    unfold getMigrateTaskLoop at h
    split at h
    · cases h
    rename_i table htable
    split at h
    · cases h
    rename_i p hp
    split at h
    · cases h
    split at h
    · exact ih hes h
    rename_i master _ hmaster
    split at h
    · exact ih hes h
    · rename_i candidate hcandidate
      cases h
      have hfree := findCandidateNode_candidate hcandidate
      obtain rfl : master = node := not_not.mp hmaster
      exact .inr ⟨key, task, table, p, candidate, find?_eq_some_iff.mpr he, htable, hp,
        hfree.2.2, rfl, rfl⟩

/-- Every waiting task has its table, its partition and a master there. -/
def Attended (m : MetaMigrate) (snapshot : MetaInfoSnapshot) : Prop :=
  ∀ e ∈ m.migrateTasks.entries, ∃ table p, snapshot.tableInfo.lookup e.2.tableName = some table ∧
    table.partitionAt e.2.partitionId = some p ∧ p.master.isSome

theorem getMigratingNumber_assignProcessor (key : Bytes) (processor : Processor)
    (tableName : Bytes) (node : Node) :
    (m.assignProcessor key processor).getMigratingNumber tableName node =
      m.getMigratingNumber tableName node +
        if processor.task.tableName = tableName ∧ processor.dst = node then 1 else 0 := by
  unfold getMigratingNumber assignProcessor
  simp only [find?_assign]
  by_cases htable : tableName = processor.task.tableName
  · subst htable
    rw [if_pos rfl, bind_some, find?_assign]
    by_cases hnode : node = processor.dst
    · subst hnode
      cases m.migratingInfo.find? processor.task.tableName <;> simp
    · cases m.migratingInfo.find? processor.task.tableName <;> simp [hnode, Ne.symm hnode]
  · simp [htable, Ne.symm htable]

theorem getMigratingNumber_commitMigrate {processor : Processor}
    (h : m.getMigratingNumber processor.task.tableName processor.dst ≠ 0) (tableName : Bytes)
    (node : Node) :
    (m.commitMigrate processor).getMigratingNumber tableName node =
      m.getMigratingNumber tableName node -
        if processor.task.tableName = tableName ∧ processor.dst = node then 1 else 0 := by
  unfold getMigratingNumber at h ⊢
  unfold commitMigrate
  cases hinfo : m.migratingInfo.find? processor.task.tableName with
  | none => simp [hinfo] at h
  | some info =>
    cases hnumber : info.find? processor.dst with
    | none => simp [hinfo, hnumber] at h
    | some number =>
      simp only [hnumber, find?_assign]
      by_cases htable : tableName = processor.task.tableName
      · subst htable
        rw [if_pos rfl, bind_some, hinfo, bind_some]
        by_cases hnode : node = processor.dst
        · subst hnode
          simp only [true_and, if_true, hnumber, getD_some]
          -- a count of one is taken out
          split
          · rw [find?_erase, if_pos rfl, getD_none]
            omega
          · rw [find?_assign, if_pos rfl, getD_some]
        · simp only [true_and, if_neg (Ne.symm hnode), sub_zero]
          split
          · rw [find?_erase, if_neg hnode]
          · rw [find?_assign, if_neg hnode]
      · simp [htable, Ne.symm htable]

theorem running_assignProcessor {processor : Processor} (key : Bytes)
    (h : m.processorInfo.find? (processorKey processor) = none) (tableName : Bytes) (node : Node) :
    (m.assignProcessor key processor).running tableName node = m.running tableName node +
      if processor.task.tableName = tableName ∧ processor.dst = node then 1 else 0 := by
  have hperm : (m.assignProcessor key processor).processorInfo.entries.Perm
      ((processorKey processor, processor) :: m.processorInfo.entries) :=
    entries_assign_perm processor h
  rw [running, hperm.countP_eq, countP_cons]
  simp [running]

theorem running_commitMigrate {processor : Processor}
    (h : m.processorInfo.find? (processorKey processor) = some processor) (tableName : Bytes)
    (node : Node) :
    (m.commitMigrate processor).running tableName node +
      (if processor.task.tableName = tableName ∧ processor.dst = node then 1 else 0) =
      m.running tableName node := by
  have hperm : m.processorInfo.entries.Perm
      ((processorKey processor, processor) :: (m.commitMigrate processor).processorInfo.entries) :=
    entries_perm_of_find? h
  rw [running, running, hperm.countP_eq, countP_cons]
  simp

end MetaMigrate

/-! ## The ledger -/

/-- The books, with the tasks that were added and those that were committed since. -/
structure Ledger where
  books : MetaMigrate
  added : List MigrateTask
  committed : List MigrateTask

namespace Ledger

inductive Action
  | add (tasks : List MigrateTask)
  | get (node : Node) (snapshot : MetaInfoSnapshot)
  | commit (processor : Processor)

def act (l : Ledger) : Action → Option Ledger
  | .add tasks => some
    { books := l.books.addMigrateTasks tasks
      added := l.added ++ tasks
      -- a task that is added again starts anew
      committed := l.committed.filter (· ∉ tasks) }
  | .get node snapshot => (l.books.getMigrateTask node snapshot).map fun r =>
    { l with books := r.2 }
  | .commit processor => some { l with
      books := l.books.commitMigrate processor
      committed := processor.task :: l.committed }

def start : Ledger := ⟨.empty, [], []⟩

def Pending (l : Ledger) (task : MigrateTask) : Prop :=
  l.books.migrateTasks.find? (task2String task) = some task

def InFlight (l : Ledger) (task : MigrateTask) : Prop :=
  ∃ key processor, l.books.processorInfo.find? key = some processor ∧ processor.task = task

/-- A commit is for a running copy, or is repeated when the books have nothing more for it, not even
a count of other copies. `GetMigrateTask` finds every waiting task attended, in a snapshot of tables
under their names with numbered partitions. A task is not added while a copy for its key is running,
and no other task waits under its key. -/
def InStep (l : Ledger) : Action → Prop
  | .add tasks => ∀ task ∈ tasks,
    (∀ key processor, l.books.processorInfo.find? key = some processor →
      task2String processor.task ≠ task2String task) ∧
    (∀ other, l.books.migrateTasks.find? (task2String task) = some other → other = task) ∧
    ∀ other ∈ tasks, task2String other = task2String task → other = task
  | .get _ snapshot => snapshot.Keyed ∧ snapshot.Numbered ∧ l.books.Attended snapshot
  | .commit processor => l.books.processorInfo.find? (processorKey processor) = some processor ∨
    processor.task ∈ l.committed ∧ l.books.commitMigrate processor = l.books

end Ledger

open Ledger

def ledger : System Ledger Action := .ofStep start act

namespace Ledger

variable {l l' : Ledger}

/-- The invariant of the books. -/
structure Balanced (l : Ledger) : Prop where
  taskKey : ∀ key task, l.books.migrateTasks.find? key = some task → key = task2String task
  processorKey : ∀ key processor, l.books.processorInfo.find? key = some processor →
    key = processorKey processor
  /-- A task does not wait while it runs. -/
  apart : ∀ key processor, l.books.processorInfo.find? key = some processor →
    l.books.migrateTasks.find? (task2String processor.task) = none
  /-- A task runs once. -/
  once : ∀ key key' processor processor', l.books.processorInfo.find? key = some processor →
    l.books.processorInfo.find? key' = some processor' →
    task2String processor.task = task2String processor'.task → key = key'
  committed : ∀ task ∈ l.committed, ¬ l.Pending task ∧ ¬ l.InFlight task
  added : ∀ task ∈ l.added, l.Pending task ∨ l.InFlight task ∨ task ∈ l.committed
  count : ∀ tableName node,
    l.books.getMigratingNumber tableName node = l.books.running tableName node

theorem Balanced.start : Balanced start where
  taskKey key task h := by cases h
  processorKey key processor h := by cases h
  apart key processor h := by cases h
  once key key' processor processor' h := by cases h
  committed task h := by cases h
  added task h := by cases h
  count tableName node := rfl

theorem Balanced.add {tasks : List MigrateTask} (h : l.Balanced) (hstep : l.InStep (.add tasks)) :
    Balanced
      { books := l.books.addMigrateTasks tasks
        added := l.added ++ tasks
        committed := l.committed.filter (· ∉ tasks) } := by
  have hfind := find?_foldl_assign task2String (fun task => task) tasks l.books.migrateTasks
  -- what is added waits under its own key
  have hpending : ∀ task ∈ tasks, (l.books.addMigrateTasks tasks).migrateTasks.find?
      (task2String task) = some task := by
    intro task htask
    rcases hfind (task2String task) with ⟨other, hother, hkey, hfound⟩ | ⟨hnone, -⟩
    · exact hfound.trans (congrArg some ((hstep task htask).2.2 other hother hkey))
    · exact absurd rfl (hnone task htask)
  constructor
  case taskKey =>
    intro key task hfound
    rcases hfind key with ⟨other, -, hkey, hother⟩ | ⟨-, hold⟩
    · cases hfound.symm.trans hother
      exact hkey.symm
    · exact h.taskKey key task (hold.symm.trans hfound)
  case processorKey => exact h.processorKey
  case apart =>
    intro key processor hprocessor
    rcases hfind (task2String processor.task) with ⟨task, htask, hkey, -⟩ | ⟨-, hold⟩
    · exact absurd hkey.symm ((hstep task htask).1 key processor hprocessor)
    · exact hold.trans (h.apart key processor hprocessor)
  case once => exact h.once
  case committed =>
    intro task htask
    obtain ⟨hcommitted, hnew⟩ := mem_filter.mp htask
    obtain ⟨hpend, hflight⟩ := h.committed task hcommitted
    refine ⟨fun hwaits => ?_, hflight⟩
    rcases hfind (task2String task) with ⟨other, hother, -, hfound⟩ | ⟨-, hold⟩
    · cases hwaits.symm.trans hfound
      exact absurd hother (by simpa using hnew)
    · exact hpend (hold.symm.trans hwaits)
  case added =>
    intro task htask
    by_cases hnew : task ∈ tasks
    · exact .inl (hpending task hnew)
    have hold := (mem_append.mp htask).resolve_right hnew
    rcases h.added task hold with hwaits | hflight | hcommitted
    · rcases hfind (task2String task) with ⟨other, hother, hkey, -⟩ | ⟨-, hkept⟩
      · have hsame : task = other := (hstep other hother).2.1 task (hkey ▸ hwaits)
        exact absurd (hsame ▸ hother) hnew
      · exact .inl (hkept.trans hwaits)
    · exact .inr (.inl hflight)
    · exact .inr (.inr (mem_filter.mpr ⟨hcommitted, by simpa using hnew⟩))
  case count => exact h.count

theorem Balanced.handOut {key : Bytes} {processor : Processor} (h : l.Balanced)
    (htask : l.books.migrateTasks.find? key = some processor.task)
    (hfresh : l.books.processorInfo.find? (MetaMigrate.processorKey processor) = none) :
    Balanced { l with books := l.books.assignProcessor key processor } := by
  have hkey : key = task2String processor.task := h.taskKey key _ htask
  have hwaiting : ∀ k task,
      (l.books.assignProcessor key processor).migrateTasks.find? k = some task ↔
        l.books.migrateTasks.find? k = some task ∧ k ≠ key := fun k task => find?_erase_eq_some
  have hrunning : ∀ k other,
      (l.books.assignProcessor key processor).processorInfo.find? k = some other ↔
        (k = MetaMigrate.processorKey processor ∧ other = processor) ∨
          l.books.processorInfo.find? k = some other := fun k other => find?_assign_eq_some hfresh
  -- no copy was running for the task
  have hnew : ∀ k other, l.books.processorInfo.find? k = some other →
      task2String other.task ≠ task2String processor.task := by
    intro k other hother heq
    have hnone := h.apart k other hother
    rw [heq, ← hkey, htask] at hnone
    cases hnone
  constructor
  case taskKey => exact fun k task hfound => h.taskKey k task ((hwaiting k task).mp hfound).1
  case processorKey =>
    intro k other hfound
    rcases (hrunning k other).mp hfound with ⟨hk, rfl⟩ | hold
    · exact hk
    · exact h.processorKey k other hold
  case apart =>
    intro k other hfound
    refine eq_none_iff_forall_ne_some.mpr fun task hwaits => ?_
    obtain ⟨hbefore, hne⟩ := (hwaiting _ task).mp hwaits
    rcases (hrunning k other).mp hfound with ⟨-, rfl⟩ | hold
    · exact hne hkey.symm
    · cases (h.apart k other hold).symm.trans hbefore
  case once =>
    intro k k' other other' hfound hfound' heq
    rcases (hrunning k other).mp hfound with ⟨rfl, rfl⟩ | hold <;>
      rcases (hrunning k' other').mp hfound' with ⟨rfl, rfl⟩ | hold'
    · rfl
    · exact absurd heq.symm (hnew k' other' hold')
    · exact absurd heq (hnew k other hold)
    · exact h.once k k' other other' hold hold' heq
  case committed =>
    intro task hcommitted
    obtain ⟨hpend, hflight⟩ := h.committed task hcommitted
    refine ⟨fun hwaits => hpend ((hwaiting _ task).mp hwaits).1, ?_⟩
    rintro ⟨k, other, hfound, rfl⟩
    rcases (hrunning k other).mp hfound with ⟨-, rfl⟩ | hold
    · exact hpend (hkey.symm ▸ htask : l.books.migrateTasks.find? _ = _)
    · exact hflight ⟨k, other, hold, rfl⟩
  case added =>
    intro task hadded
    rcases h.added task hadded with hwaits | ⟨k, other, hfound, rfl⟩ | hcommitted
    · by_cases hsame : task2String task = key
      · have heq : processor.task = task := Option.some.inj (htask.symm.trans (hsame ▸ hwaits))
        exact .inr (.inl ⟨_, processor, (hrunning _ _).mpr (.inl ⟨rfl, rfl⟩), heq⟩)
      · exact .inl ((hwaiting _ task).mpr ⟨hwaits, hsame⟩)
    · exact .inr (.inl ⟨k, other, (hrunning k other).mpr (.inr hfound), rfl⟩)
    · exact .inr (.inr hcommitted)
  case count =>
    intro tableName node
    rw [getMigratingNumber_assignProcessor, h.count, running_assignProcessor key hfresh]
    split_ifs <;> simp

theorem Balanced.commit {processor : Processor} (h : l.Balanced)
    (hstep : l.books.processorInfo.find? (MetaMigrate.processorKey processor) = some processor) :
    Balanced { l with
        books := l.books.commitMigrate processor
        committed := processor.task :: l.committed } := by
  have hwaiting : ∀ k, (l.books.commitMigrate processor).migrateTasks.find? k =
      l.books.migrateTasks.find? k := by
    intro k
    refine (find?_erase l.books.migrateTasks (task2String processor.task) k).trans ?_
    split_ifs with hk
    · rw [hk, h.apart _ processor hstep]
    · rfl
  -- what runs now was running before, and is another copy
  have hrest : ∀ k other, (l.books.commitMigrate processor).processorInfo.find? k = some other ↔
      l.books.processorInfo.find? k = some other ∧ k ≠ MetaMigrate.processorKey processor :=
    fun k other => find?_erase_eq_some
  constructor
  case taskKey =>
    intro k task hfound
    exact h.taskKey k task ((hwaiting k).symm.trans hfound)
  case processorKey =>
    exact fun k other hfound => h.processorKey k other ((hrest k other).mp hfound).1
  case apart =>
    intro k other hfound
    rw [hwaiting]
    exact h.apart k other ((hrest k other).mp hfound).1
  case once =>
    intro k k' other other' hfound hfound'
    exact h.once k k' other other' ((hrest k other).mp hfound).1 ((hrest k' other').mp hfound').1
  case committed =>
    intro task htask
    rcases mem_cons.mp htask with rfl | hold
    · constructor
      · intro hwaits
        cases (h.apart _ processor hstep).symm.trans ((hwaiting _).symm.trans hwaits)
      · rintro ⟨k, other, hfound, heq⟩
        obtain ⟨hbefore, hne⟩ := (hrest k other).mp hfound
        exact hne (h.once k _ other processor hbefore hstep (congrArg task2String heq))
    · obtain ⟨hpend, hflight⟩ := h.committed task hold
      refine ⟨fun hwaits => hpend ((hwaiting _).symm.trans hwaits), ?_⟩
      rintro ⟨k, other, hfound, heq⟩
      exact hflight ⟨k, other, ((hrest k other).mp hfound).1, heq⟩
  case added =>
    intro task hadded
    rcases h.added task hadded with hwaits | ⟨k, other, hfound, rfl⟩ | hcommitted
    · exact .inl ((hwaiting _).trans hwaits)
    · by_cases hk : k = MetaMigrate.processorKey processor
      · subst hk
        cases hfound.symm.trans hstep
        exact .inr (.inr mem_cons_self)
      · exact .inr (.inl ⟨k, other, (hrest k other).mpr ⟨hfound, hk⟩, rfl⟩)
    · exact .inr (.inr (mem_cons_of_mem _ hcommitted))
  case count =>
    intro tableName node
    have hcount := running_commitMigrate hstep
    have hone := hcount processor.task.tableName processor.dst
    rw [if_pos ⟨rfl, rfl⟩] at hone
    have hpos : l.books.getMigratingNumber processor.task.tableName processor.dst ≠ 0 := by
      rw [h.count]
      omega
    rw [getMigratingNumber_commitMigrate hpos, h.count, ← hcount tableName node]
    split_ifs <;> simp

theorem Balanced.step {a : Action} (hstep : l.InStep a) (hact : l.act a = some l')
    (h : l.Balanced) : l'.Balanced := by
  cases a with
  | add tasks =>
    cases hact
    exact h.add hstep
  | get node snapshot =>
    obtain ⟨⟨r, books⟩, hget, rfl⟩ := map_eq_some_iff.mp hact
    rcases getMigrateTask_cases (List.Subset.refl _) hget with
      ⟨-, rfl⟩ | ⟨key, task, table, p, candidate, htask, htable, hp, hfree, -, rfl⟩
    · exact h
    · -- the snapshot files the table under its name, and the partition under its id
      obtain ⟨hkeyed, hnumbered, -⟩ := hstep
      have hname : table.name = task.tableName := hkeyed _ table htable
      have hid : p.id = task.partitionId := by
        unfold Table.partitionAt at hp
        split at hp
        · obtain ⟨hlt, rfl⟩ := List.getElem?_eq_some_iff.mp hp
          rw [hnumbered _ table htable _ hlt]
          omega
        · cases hp
      rw [hname, hid] at hfree
      exact h.handOut htask hfree
  | commit processor =>
    cases hact
    rcases hstep with hrunning | ⟨hdone, hsame⟩
    · exact h.commit hrunning
    · rw [hsame]
      exact { h with
        committed task htask := h.committed task ((mem_cons.mp htask).elim (· ▸ hdone) fun h => h)
        added task htask := (h.added task htask).imp_right (.imp_right (mem_cons_of_mem _)) }

end Ledger

/-- **The books are balanced.** In every run whose steps are in step, the count of a table and a
node is the number of copies of the table that are running to the node, and every task that was
added either waits, or runs, or was committed. -/
theorem ledger_balanced {l : Ledger} (hreach : (ledger.restrict InStep).Reachable l) :
    (∀ tableName node, l.books.getMigratingNumber tableName node = l.books.running tableName node ∧
      0 ≤ l.books.getMigratingNumber tableName node) ∧
    ∀ task ∈ l.added, (l.Pending task ∧ ¬ l.InFlight task ∧ task ∉ l.committed) ∨
      (¬ l.Pending task ∧ l.InFlight task ∧ task ∉ l.committed) ∨
      (¬ l.Pending task ∧ ¬ l.InFlight task ∧ task ∈ l.committed) := by
  have h : l.Balanced := by
    refine hreach.invariant (P := Balanced) ?_ ?_
    · rintro l rfl
      exact .start
    · rintro l a l' ⟨hstep, hact⟩ h
      exact h.step hstep hact
  refine ⟨fun tableName node => ⟨h.count tableName node, ?_⟩, fun task hadded => ?_⟩
  · rw [h.count]
    exact Int.natCast_nonneg _
  · have hapart : l.InFlight task → ¬ l.Pending task := by
      rintro ⟨key, processor, hfound, rfl⟩ hwaits
      cases (h.apart key processor hfound).symm.trans hwaits
    have hcommitted := h.committed task
    have hfate := h.added task hadded
    tauto

namespace Sample

/-- Two partitions on one of two nodes. -/
def twoOnOne : Table := table 2 [⟨0, .active, some (node 1), []⟩, ⟨1, .active, some (node 1), []⟩]

def lopsided : MetaInfoSnapshot :=
  ⟨⟨2, 1⟩, (∅ : TableMap).assign (bytes "t") twoOnOne, ∅,
    ((∅ : NodeInfoMap).assign (bytes "h:1") ⟨1⟩).assign (bytes "h:2") ⟨1⟩⟩

/-- A replica of each partition was lost with a third node. -/
def lost (id : ℤ) : MigrateTask := ⟨bytes "t", id, node 3, .slave⟩

/-- Both partitions are copied to the second node. -/
def copying : List Action := [.add [lost 0, lost 1], .get (node 1) lopsided, .get (node 1) lopsided]

/-- The first copy is done. -/
def copied : Action := .commit ⟨lost 0, node 1, node 2⟩

def ledgerAfter (actions : List Action) : Ledger := (actions.foldlM act start).getD start

theorem inStep_get {l : Ledger}
    (h : ∀ e ∈ l.books.migrateTasks.entries, e.2 = lost 0 ∨ e.2 = lost 1) :
    l.InStep (.get (node 1) lopsided) := by
  have honly : ∀ name table, lopsided.tableInfo.lookup name = some table →
      name = bytes "t" ∧ table = twoOnOne := by
    intro name table htable
    rw [lopsided, UnorderedMap.lookup_assign] at htable
    split at htable
    · exact ⟨by assumption, (Option.some.inj htable).symm⟩
    · cases htable
  refine ⟨fun name table htable => ?_, fun name table htable => ?_, fun e he => ?_⟩
  · obtain ⟨rfl, rfl⟩ := honly name table htable
    rfl
  · obtain ⟨rfl, rfl⟩ := honly name table htable
    decide
  · rcases h e he with heq | heq <;> rw [heq] <;> exact ⟨twoOnOne, _, rfl, rfl, rfl⟩

end Sample

open Sample

theorem ledger_balanced_copied : (ledger.restrict InStep).Reachable
      (ledgerAfter (copying ++ [copied])) ∧
    (ledgerAfter (copying ++ [copied])).books.getMigratingNumber (bytes "t") (node 2) = 1 := by
  have hadmits : System.Admits InStep act start (copying ++ [copied]) := by
    refine .cons ?_ rfl (.cons (inStep_get (by decide)) rfl
      (.cons (inStep_get (by decide)) rfl (.cons (.inl rfl) rfl trivial)))
    intro task htask
    refine ⟨nofun, nofun, ?_⟩
    exact (show ∀ task ∈ [lost 0, lost 1], ∀ other ∈ [lost 0, lost 1],
      task2String other = task2String task → other = task by decide) task htask
  have hreach : (ledger.restrict InStep).Reachable (ledgerAfter (copying ++ [copied])) :=
    ⟨start, rfl, System.run_restrict_of_admits hadmits rfl⟩
  refine ⟨hreach, ?_⟩
  rw [((ledger_balanced hreach).1 (bytes "t") (node 2)).1]
  decide

/-- The second commit of the first copy takes the count of the second one away. -/
theorem repeated_commit_counts :
    ∃ l, ledger.Reachable l ∧ l.books.getMigratingNumber (bytes "t") (node 2) = 0 ∧
      l.books.running (bytes "t") (node 2) = 1 := by
  have hrun : (copying ++ [copied, copied]).foldlM act start =
      some (ledgerAfter (copying ++ [copied, copied])) := rfl
  exact ⟨_, ⟨start, rfl, System.run_of_foldlM hrun⟩, by decide, by decide⟩

end Noah
