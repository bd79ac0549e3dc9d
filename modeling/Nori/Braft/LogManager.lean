import Nori.Braft.Storage.LogManager
import Nori.Consensus.Log

/-!
# The log manager

A node's log: the log manager between memory and disk, and the log that it should have. Reads are
those of `Storage.LogManager`. The disk thread writes entries in order and then runs the closure
that waits for them. Whoever asks for the last log id that is flushed (`last_log_id(true)`) also
waits in that queue. When a snapshot is taken, what lies before the last one can no longer be read.

`logs` are all entries that the log should have, the compacted ones too; the entry at position `i`
has index `i + 1`. Of these the code has nothing but the last index. The storage is not compacted,
as nothing before `firstLogIndex` is read. `disk_thread` writes a batch at a time and runs its
closures in order, which is the same as one task after the other.
-/

namespace Braft

open List Option

/-- What an entry says: the (fixed) configuration, or data of the user. -/
inductive EntryData (D : Type)
  | configuration
  | data (d : D)
deriving DecidableEq

structure LogEntry (D : Type) where
  term : ℕ
  data : EntryData D
deriving DecidableEq

/-- The id of the last entry of a log. -/
def LogId.last {D : Type} (L : List (LogEntry D)) : LogId :=
  ⟨L.length, Consensus.lastTerm LogEntry.term L⟩

theorem LogId.last_le {D : Type} {K L : List (LogEntry D)} :
    (LogId.last K).le (LogId.last L) ↔ Consensus.UpToDate LogEntry.term L K := Iff.rfl

/-- The term of an entry of a log; `0` where there is none. -/
def termAt {D : Type} (L : List (LogEntry D)) (index : ℕ) : ℕ :=
  if index = 0 then 0 else (L[index - 1]?.map LogEntry.term).getD 0

theorem termAt_succ {D : Type} (L : List (LogEntry D)) (i : ℕ) :
    termAt L (i + 1) = (L[i]?.map LogEntry.term).getD 0 := by
  rw [termAt, if_neg (Nat.succ_ne_zero i), Nat.add_sub_cancel]

theorem termAt_take {D : Type} (L : List (LogEntry D)) {index kept : ℕ} (h : index ≤ kept) :
    termAt (L.take kept) index = termAt L index := by
  unfold termAt
  split_ifs with hzero
  · rfl
  · rw [getElem?_take_of_lt (by omega)]

theorem LogId.last_take {D : Type} {L : List (LogEntry D)} {k : ℕ} (hk : k ≤ L.length) :
    LogId.last (L.take k) = ⟨k, termAt L k⟩ := by
  have hlen : (L.take k).length = k := by rw [length_take, min_eq_left hk]
  cases k with
  | zero => rfl
  | succ k =>
    rw [LogId.last, hlen, termAt_succ, Consensus.lastTerm, getLast?_eq_getElem?, hlen,
      Nat.add_sub_cancel, getElem?_take_of_lt (Nat.lt_succ_self k)]

/-- What waits in the queue of the disk thread: entries with the closure that is run when they are
stable, a caller that waits for the last log id, or the end of the log to be cut off. -/
inductive DiskTask (D κ ι : Type)
  | stable (firstLogIndex : ℕ) (entries : List (LogEntry D)) (done : κ)
  | lastLogId (caller : ι)
  | truncateSuffix (lastIndexKept lastTermKept : ℕ)

/-- An entry with its index. -/
def LogEntry.numbered {D : Type} (e : LogEntry D × ℕ) : Storage.LogEntry (EntryData D) :=
  ⟨⟨e.2, e.1.term⟩, e.1.data⟩

def DiskTask.toClosure {D κ ι : Type} : DiskTask D κ ι → Storage.DiskClosure (EntryData D) ι
  | .stable first entries _ => .stable ((entries.zipIdx first).map LogEntry.numbered)
  | .lastLogId caller => .lastLogId caller
  | .truncateSuffix lastIndexKept lastTermKept => .truncateSuffix lastIndexKept lastTermKept

/-- A task leaves the entry at an index on disk. -/
def DiskTask.keeps {D κ ι : Type} (index : ℕ) : DiskTask D κ ι → Bool
  | .truncateSuffix lastIndexKept _ => index ≤ lastIndexKept
  | _ => true

/-- The log; its first index; the entries in memory, with their indexes; the last applied id; the
last id on disk; the ids of the last snapshot and of the entry before the first index; the queue of
the disk thread, the last id that it has written in its current batch, and the log on disk. -/
structure LogManager (D κ ι : Type) where
  logs : List (LogEntry D)
  firstLogIndex : ℕ
  logsInMemory : List (LogEntry D × ℕ)
  appliedId : LogId
  diskId : LogId
  lastSnapshotId : LogId
  virtualFirstLogId : LogId
  diskQueue : List (DiskTask D κ ι)
  lastId : Option LogId
  storage : List (LogEntry D)

namespace LogManager

open LogEntry

variable {D κ ι : Type}

/-- `init` on what the storage has, without a snapshot. -/
def init (storage : List (LogEntry D)) : LogManager D κ ι where
  logs := storage
  firstLogIndex := 1
  logsInMemory := []
  appliedId := ⟨0, 0⟩
  diskId := ⟨storage.length, (storage.getLast?.map LogEntry.term).getD 0⟩
  lastSnapshotId := ⟨0, 0⟩
  virtualFirstLogId := ⟨0, 0⟩
  diskQueue := []
  lastId := none
  storage := storage

def lastLogIndex (lm : LogManager D κ ι) : ℕ := lm.logs.length

/-! ## Reading -/

/-- The log manager between memory and disk: without the log that it should have, the closures and
the calls that clear the memory. -/
@[simps] def toStorage (lm : LogManager D κ ι) : Storage.LogManager (EntryData D) ι where
  storage := ⟨1, (lm.storage.zipIdx 1).map numbered⟩
  firstLogIndex := lm.firstLogIndex
  lastLogIndex := lm.lastLogIndex
  logsInMemory := lm.logsInMemory.map numbered
  appliedId := lm.appliedId
  diskId := lm.diskId
  lastSnapshotId := lm.lastSnapshotId
  virtualFirstLogId := lm.virtualFirstLogId
  diskQueue := lm.diskQueue.map DiskTask.toClosure
  batch := lm.lastId.map (·, .empty)
  clearing := []

/-- An entry, from memory or else from the storage. -/
def getEntry (index : ℕ) (lm : LogManager D κ ι) : Option (LogEntry D) :=
  (lm.toStorage.getEntry index).map fun e => ⟨e.id.term, e.data⟩

/-- The entries from an index on, as far as they can be read. -/
def getEntries (lm : LogManager D κ ι) : ℕ → ℕ → List (LogEntry D)
  | _, 0 => []
  | index, count + 1 =>
    match lm.getEntry index with
    | some e => e :: lm.getEntries (index + 1) count
    | none => []

/-- `unsafe_get_term` and `get_term`. -/
def unsafeGetTerm (index : ℕ) (lm : LogManager D κ ι) : ℕ := lm.toStorage.unsafeGetTerm index

theorem unsafeGetTerm_getEntry (index : ℕ) (lm : LogManager D κ ι) : lm.unsafeGetTerm index =
    if index = 0 then 0
    else if index = lm.virtualFirstLogId.index then lm.virtualFirstLogId.term
    else if index = lm.lastSnapshotId.index then lm.lastSnapshotId.term
    else ((lm.getEntry index).map LogEntry.term).getD 0 := by
  unfold unsafeGetTerm Storage.LogManager.unsafeGetTerm getEntry Storage.LogManager.getEntry
  rw [Option.map_map, toStorage_virtualFirstLogId, toStorage_lastSnapshotId]
  split_ifs
  · rfl
  · rfl
  · rfl
  · rfl
  · cases lm.toStorage.getEntryFromMemory index <;> rfl

/-! ## Appending -/

/-- Cuts the log off after an index; one that is applied already is not touched. -/
def unsafeTruncateSuffix (lastIndexKept : ℕ) (lm : LogManager D κ ι) : LogManager D κ ι :=
  if lastIndexKept < lm.appliedId.index then lm
  else
    let lm' := { lm with
      logs := lm.logs.take lastIndexKept
      logsInMemory := lm.logsInMemory.rdropWhile fun e => lastIndexKept < e.2 }
    { lm' with
      diskQueue := lm.diskQueue ++
        [.truncateSuffix lastIndexKept (lm'.unsafeGetTerm lastIndexKept)] }

/-- How many of the entries from an index on are in the log already, as far as it can be read. -/
def conflictingIndex (lm : LogManager D κ ι) : ℕ → List (LogEntry D) → ℕ
  | _, [] => 0
  | index, e :: es =>
    if lm.unsafeGetTerm index = e.term then lm.conflictingIndex (index + 1) es + 1 else 0

/-- The follower's half of `check_and_resolve_conflict`: the log once the conflicting entries are
gone; the argument of `unsafe_truncate_suffix`, if it is called; the new `_last_log_index`, which is
the last index of `entries` unless all of them are there; and those that are still to be
appended. -/
def checkAndResolveConflict (firstLogIndex : ℕ) (entries : List (LogEntry D))
    (lm : LogManager D κ ι) :
    Except AppendStop (LogManager D κ ι × Option ℕ × ℕ × List (LogEntry D)) :=
  let lastIndex := firstLogIndex + entries.length - 1
  if lm.lastLogIndex + 1 < firstLogIndex then .error .gap
  else if lastIndex ≤ lm.appliedId.index then .error .applied
  else if firstLogIndex = lm.lastLogIndex + 1 then .ok (lm, none, lastIndex, entries)
  else
    let conflicting := lm.conflictingIndex firstLogIndex entries
    if conflicting = entries.length then .ok (lm, none, lm.lastLogIndex, [])
    else
      let index := firstLogIndex + conflicting
      if index ≤ lm.lastLogIndex then
        .ok (lm.unsafeTruncateSuffix (index - 1), some (index - 1), lastIndex,
          entries.drop conflicting)
      else .ok (lm, none, lastIndex, entries.drop conflicting)

/-- `append_entries` with the entries of a leader. The closure waits for the disk thread. After a
truncation that was refused, the entries stand behind others with their indexes in memory. -/
def appendEntries (firstLogIndex : ℕ) (entries : List (LogEntry D)) (done : κ)
    (lm : LogManager D κ ι) : Except AppendStop (LogManager D κ ι × Option ℕ) := do
  let (lm', kept, lastIndex, rest) ← lm.checkAndResolveConflict firstLogIndex entries
  let first := firstLogIndex + entries.length - rest.length
  return ({ lm' with
    logs := (lm'.logs ++ rest).take lastIndex
    logsInMemory := lm'.logsInMemory ++ rest.zipIdx first
    diskQueue := lm'.diskQueue ++ [.stable first rest done] }, kept)

/-- `append_entries` with entries of the leader itself, which get their indexes here. The closure
is told the first one. -/
def appendTasks (entries : List (LogEntry D)) (done : ℕ → κ) (lm : LogManager D κ ι) :
    LogManager D κ ι :=
  let first := lm.lastLogIndex + 1
  { lm with
    logs := lm.logs ++ entries
    logsInMemory := lm.logsInMemory ++ entries.zipIdx first
    diskQueue := lm.diskQueue ++ [.stable first entries (done first)] }

/-! ## Snapshots -/

/-- The half of `truncate_prefix` that concerns the memory. -/
def truncatePrefix (firstIndexKept : ℕ) (lm : LogManager D κ ι) : LogManager D κ ι :=
  { lm with
    firstLogIndex := firstIndexKept
    logsInMemory := lm.logsInMemory.dropWhile fun e => e.2 < firstIndexKept }

/-- `set_snapshot` with a snapshot of the node itself: the log is compacted up to the snapshot
before. A snapshot that does not agree with the log, which comes from a leader, is left out. -/
def setSnapshot (id : LogId) (lm : LogManager D κ ι) : Option (LogManager D κ ι) :=
  if id.index ≤ lm.lastSnapshotId.index then some lm
  else if lm.unsafeGetTerm id.index = id.term ∧ id.term ≠ 0 then
    let lm' := { lm with
      lastSnapshotId := id
      appliedId := if id.le lm.appliedId then lm.appliedId else id }
    if 0 < lm.lastSnapshotId.index then
      some ({ lm' with virtualFirstLogId := lm.lastSnapshotId }.truncatePrefix
        (lm.lastSnapshotId.index + 1))
    else some lm'
  else none

/-! ## Clearing the memory -/

def setAppliedId (appliedId : LogId) (lm : LogManager D κ ι) : LogManager D κ ι :=
  if lm.appliedId.le appliedId then { lm with appliedId } else lm

/-- Calls of `clear_memory_logs` take some entries out of memory. They were told the lower one of
the last id on disk and the last applied id of some moment before; neither falls. -/
def clearMemoryLogs (count : ℕ) (lm : LogManager D κ ι) : Option (LogManager D κ ι) :=
  if ∀ e ∈ lm.logsInMemory.take count,
      (⟨e.2, e.1.term⟩ : LogId).le lm.diskId ∧ (⟨e.2, e.1.term⟩ : LogId).le lm.appliedId then
    some { lm with logsInMemory := lm.logsInMemory.drop count }
  else none

/-! ## The disk thread -/

/-- `last_log_id(true)`: the caller waits for the disk thread, unless the log ends with the last
snapshot. -/
def requestLastLogId (caller : ι) (lm : LogManager D κ ι) : LogManager D κ ι × Option LogId :=
  if lm.lastLogIndex = lm.lastSnapshotId.index then (lm, some lm.lastSnapshotId)
  else ({ lm with diskQueue := lm.diskQueue ++ [.lastLogId caller] }, none)

/-- The disk thread begins with a batch. -/
def diskBegin (lm : LogManager D κ ι) : LogManager D κ ι := { lm with lastId := some lm.diskId }

/-- The disk thread is done with a batch: `set_disk_id`. -/
def diskEnd (lastId : LogId) (lm : LogManager D κ ι) : LogManager D κ ι :=
  if lm.diskId.le lastId then { lm with diskId := lastId, lastId := none }
  else { lm with lastId := none }

/-- The id of the last of the entries written, or the last id before. -/
def writtenId (firstLogIndex : ℕ) (entries : List (LogEntry D)) (lastId : LogId) : LogId :=
  match entries.getLast? with
  | none => lastId
  | some e => ⟨firstLogIndex + entries.length - 1, e.term⟩

theorem writtenId_eq {L rest : List (LogEntry D)} (hrest : rest ≠ []) (id : LogId) :
    writtenId (L.length + 1) rest id = LogId.last (L ++ rest) := by
  have hpos : 0 < rest.length := length_pos_of_ne_nil hrest
  have hlen : L.length + 1 + rest.length - 1 = L.length + rest.length := by omega
  rw [writtenId, LogId.last, Consensus.lastTerm, getLast?_append_of_ne_nil _ hrest,
    getLast?_eq_some_getLast hrest, length_append]
  simp only [hlen, map_some, getD_some]

/-- What the disk thread does with a task, but for running the closure. -/
def diskTask (task : DiskTask D κ ι) (rest : List (DiskTask D κ ι)) (lastId : LogId)
    (lm : LogManager D κ ι) : LogManager D κ ι :=
  match task with
  | .stable firstLogIndex entries _ =>
    { lm with
      diskQueue := rest
      lastId := some (writtenId firstLogIndex entries lastId)
      storage := lm.storage ++ entries }
  | .lastLogId _ => { lm with diskQueue := rest }
  | .truncateSuffix lastIndexKept lastTermKept =>
    { lm with
      diskQueue := rest
      lastId := some ⟨lastIndexKept, lastTermKept⟩
      storage := lm.storage.take lastIndexKept }

/-! ## Memory and storage -/

section Memory

variable {α : Type}

theorem drop_zipIdx (L : List α) (k n : ℕ) : (L.zipIdx k).drop n = (L.drop n).zipIdx (k + n) := by
  induction n generalizing L k with
  | zero => rfl
  | succ n ih =>
    cases L with
    | nil => simp
    | cons a L =>
      rw [zipIdx_cons, drop_succ_cons, drop_succ_cons, ih, Nat.add_right_comm k 1 n]
      rfl

theorem dropWhile_zipIdx (L : List α) (k first : ℕ) :
    ((L.zipIdx k).dropWhile fun e => e.2 < first) = (L.zipIdx k).drop (first - k) := by
  induction L generalizing k with
  | nil => simp
  | cons a L ih =>
    rw [zipIdx_cons]
    rcases lt_or_ge k first with hk | hk
    · rw [dropWhile_cons_of_pos (by simpa using hk), ih,
        show first - k = first - (k + 1) + 1 by omega, drop_succ_cons]
    · rw [dropWhile_cons_of_neg (by simpa using hk), Nat.sub_eq_zero_of_le hk, drop_zero]

theorem rdropWhile_zipIdx (L : List α) (k last : ℕ) :
    ((L.zipIdx k).rdropWhile fun e => last < e.2) = (L.take (last + 1 - k)).zipIdx k := by
  induction L using reverseRecOn with
  | nil => simp
  | append_singleton L a ih =>
    rw [zipIdx_append]
    rcases lt_or_ge last (k + L.length) with hlt | hge
    · rw [zipIdx_singleton, rdropWhile_concat_pos _ _ _ (by simpa using hlt), ih,
        take_append_of_le_length (by omega)]
    · rw [zipIdx_singleton, rdropWhile_concat_neg _ _ _ (by simpa using hge), take_of_length_le,
        zipIdx_append, zipIdx_singleton]
      rw [length_append, length_singleton]
      omega

end Memory

variable {lm : LogManager D κ ι} {m : ℕ}

/-- The entry at a position is on disk, and is not about to be cut off there. -/
structure Written (logs storage : List (LogEntry D)) (diskQueue : List (DiskTask D κ ι)) (i : ℕ) :
    Prop where
  lt : i < storage.length
  eq : storage[i]? = logs[i]?
  kept : ∀ k t, .truncateSuffix k t ∈ diskQueue → i < k

/-- The entries that are to leave the memory are on disk, and are not about to be cut off there. -/
def Flushed (lm : LogManager D κ ι) (count : ℕ) : Prop :=
  ∀ e ∈ lm.logsInMemory.take count, lm.storage[e.2 - 1]? = some e.1 ∧
    ∀ task ∈ lm.diskQueue, task.keeps e.2

instance [DecidableEq D] (lm : LogManager D κ ι) (count : ℕ) : Decidable (lm.Flushed count) :=
  inferInstanceAs (Decidable (∀ e ∈ _, _ ∧ ∀ task ∈ _, _))

/-- The memory has the log from a position on, all before is applied, and written if it can be
read. -/
structure HeldFrom (lm : LogManager D κ ι) (m : ℕ) : Prop where
  le : m ≤ lm.appliedId.index
  memory : lm.logsInMemory = (lm.logs.drop m).zipIdx (m + 1)
  written : ∀ i < m, lm.firstLogIndex ≤ i + 1 → Written lm.logs lm.storage lm.diskQueue i

namespace HeldFrom

variable (h : lm.HeldFrom m)
include h

theorem getEntryFromMemory_eq {index : ℕ} (hlast : index ≤ lm.logs.length) :
    lm.toStorage.getEntryFromMemory index =
      if m < index then lm.logs[index - 1]?.map fun e => numbered (e, index) else none := by
  unfold Storage.LogManager.getEntryFromMemory
  rw [toStorage_logsInMemory, h.memory, head?_map, getLast?_map, head?_zipIdx, getLast?_zipIdx]
  by_cases hdrop : lm.logs.drop m = []
  · rw [hdrop, if_neg (by rw [drop_eq_nil_iff] at hdrop; omega)]
    rfl
  · rw [head?_eq_some_head hdrop, getLast?_eq_some_getLast hdrop, length_drop]
    dsimp only [map_some, numbered]
    rw [drop_eq_nil_iff] at hdrop
    split_ifs with hrange hlt
    · rw [getElem?_map, getElem?_zipIdx, getElem?_drop, Option.map_map,
        show m + (index - (m + 1)) = index - 1 by omega,
        show m + 1 + (index - (m + 1)) = index by omega]
      rfl
    · omega
    · omega
    · rfl

theorem append {rest : List (LogEntry D)} {first : ℕ}
    (happlied : lm.appliedId.index ≤ lm.logs.length)
    (hfirst : rest ≠ [] → first = lm.logs.length + 1) (done : κ) : HeldFrom { lm with
      logs := lm.logs ++ rest
      logsInMemory := lm.logsInMemory ++ rest.zipIdx first
      diskQueue := lm.diskQueue ++ [.stable first rest done] } m := by
  have hle := h.le.trans happlied
  refine ⟨h.le, ?_, fun i hi hread => ?_⟩
  · have hrest : rest.zipIdx first = rest.zipIdx (m + 1 + (lm.logs.length - m)) := by
      by_cases hnil : rest = []
      · rw [hnil, zipIdx_nil, zipIdx_nil]
      · rw [hfirst hnil, Nat.add_right_comm, Nat.add_sub_cancel' hle]
    dsimp only
    rw [h.memory, drop_append_of_le_length hle, zipIdx_append, length_drop, hrest]
  · have hi' := h.written i hi hread
    refine ⟨hi'.lt, ?_, fun k t hk => hi'.kept k t ?_⟩
    · rw [getElem?_append_left (by omega)]
      exact hi'.eq
    · simpa using hk

theorem truncate {kept : ℕ} (hkept : lm.appliedId.index ≤ kept) (term : ℕ) :
    HeldFrom { lm with
      logs := lm.logs.take kept
      logsInMemory := lm.logsInMemory.rdropWhile fun e => kept < e.2
      diskQueue := lm.diskQueue ++ [.truncateSuffix kept term] } m := by
  have hle := h.le.trans hkept
  refine ⟨h.le, ?_, fun i hi hfirst => ?_⟩
  · dsimp only
    rw [h.memory, rdropWhile_zipIdx, drop_take, Nat.add_sub_add_right]
  · have hi' := h.written i hi hfirst
    refine ⟨hi'.lt, ?_, fun k t hk => ?_⟩
    · rw [getElem?_take_of_lt (by omega)]
      exact hi'.eq
    · rcases mem_append.mp hk with hk | hk
      · exact hi'.kept k t hk
      · cases mem_singleton.mp hk
        omega

theorem diskTask {task : DiskTask D κ ι} {rest : List (DiskTask D κ ι)} (id : LogId)
    (hqueue : lm.diskQueue = task :: rest) : (lm.diskTask task rest id).HeldFrom m := by
  have hkept : ∀ i k t, Written lm.logs lm.storage lm.diskQueue i → .truncateSuffix k t ∈ rest →
      i < k := fun i k t hi hk => hi.kept k t (hqueue ▸ mem_cons_of_mem _ hk)
  cases task with
  | stable first entries done =>
    refine ⟨h.le, h.memory, fun i hi hfirst => ?_⟩
    have hi' := h.written i hi hfirst
    refine ⟨?_, ?_, fun k t => hkept i k t hi'⟩
    · exact length_append ▸ hi'.lt.trans_le (Nat.le_add_right _ _)
    · exact (getElem?_append_left hi'.lt).trans hi'.eq
  | lastLogId caller =>
    refine ⟨h.le, h.memory, fun i hi hfirst => ?_⟩
    have hi' := h.written i hi hfirst
    exact ⟨hi'.lt, hi'.eq, fun k t => hkept i k t hi'⟩
  | truncateSuffix k t =>
    refine ⟨h.le, h.memory, fun i hi hfirst => ?_⟩
    have hi' := h.written i hi hfirst
    have hk : i < k := hi'.kept k t (hqueue ▸ mem_cons_self)
    refine ⟨?_, ?_, fun k t => hkept i k t hi'⟩
    · exact length_take ▸ lt_min hk hi'.lt
    · exact (getElem?_take_of_lt hk).trans hi'.eq

theorem mem_take_memory {count i : ℕ} (hge : m ≤ i)
    (hlt : i < m + min count lm.logsInMemory.length) :
    ∃ e, lm.logs[i]? = some e ∧ (e, i + 1) ∈ lm.logsInMemory.take count := by
  have hlength : lm.logsInMemory.length = lm.logs.length - m := by
    rw [h.memory, length_zipIdx, length_drop]
  have hi : i < lm.logs.length := by omega
  refine ⟨_, getElem?_eq_getElem hi, mem_of_getElem? (i := i - m) ?_⟩
  rw [getElem?_take_of_lt (by omega), h.memory, getElem?_zipIdx, getElem?_drop,
    Nat.add_sub_cancel' hge, getElem?_eq_getElem hi, Option.map_some,
    show m + 1 + (i - m) = i + 1 by omega]

/-- Applied entries that are on disk can leave the memory. -/
theorem clear {count : ℕ} (hflushed : lm.Flushed count) (happlied : ∀ i e, lm.logs[i]? = some e →
      (e, i + 1) ∈ lm.logsInMemory.take count → i + 1 ≤ lm.appliedId.index) :
    ∃ m', HeldFrom { lm with logsInMemory := lm.logsInMemory.drop count } m' := by
  refine ⟨m + min count lm.logsInMemory.length, ?_, ?_, fun i hi hread => ?_⟩
  · rcases Nat.eq_zero_or_pos (min count lm.logsInMemory.length) with hzero | hpos
    · rw [hzero]
      exact h.le
    · have hlt : m + min count lm.logsInMemory.length - 1 <
          m + min count lm.logsInMemory.length := by
        omega
      obtain ⟨e, he, hmem⟩ := h.mem_take_memory (by omega) hlt
      have := happlied _ e he hmem
      dsimp only
      omega
  · have hdrop : lm.logsInMemory.drop count =
        lm.logsInMemory.drop (min count lm.logsInMemory.length) := by
      rcases Nat.le_total count lm.logsInMemory.length with hle | hle
      · rw [Nat.min_eq_left hle]
      · rw [Nat.min_eq_right hle, drop_length, drop_of_length_le hle]
    dsimp only
    rw [hdrop, h.memory, drop_zipIdx, drop_drop, Nat.add_right_comm]
  · rcases lt_or_ge i m with hlt | hge
    · exact h.written i hlt hread
    · obtain ⟨e, he, hmem⟩ := h.mem_take_memory hge hi
      obtain ⟨hstored, hkept⟩ := hflushed _ hmem
      rw [Nat.add_sub_cancel] at hstored
      exact ⟨(List.getElem?_eq_some_iff.mp hstored).1, hstored.trans he.symm, fun k t hk =>
        of_decide_eq_true (hkept _ hk)⟩

theorem truncatePrefix {first : ℕ} (hfirst : first ≤ lm.appliedId.index + 1)
    (hle : lm.firstLogIndex ≤ first) :
    ∃ m', (lm.truncatePrefix first).HeldFrom m' := by
  refine ⟨m + (first - (m + 1)), ?_, ?_, fun i hi hread => ?_⟩
  · have := h.le
    dsimp only [LogManager.truncatePrefix]
    omega
  · dsimp only [LogManager.truncatePrefix]
    rw [h.memory, dropWhile_zipIdx, drop_zipIdx, drop_drop, Nat.add_right_comm]
  · dsimp only [LogManager.truncatePrefix] at hread
    exact h.written i (by omega) (hle.trans hread)

end HeldFrom

/-- The remembered ids are those of entries of the log, of which all are applied, the log can be
read from the entry after the first of them on, and the memory has what is not written. -/
structure Legible (lm : LogManager D κ ι) : Prop where
  first : lm.firstLogIndex = lm.virtualFirstLogId.index + 1
  virtual : lm.virtualFirstLogId.term = termAt lm.logs lm.virtualFirstLogId.index
  snapshot : lm.lastSnapshotId.term = termAt lm.logs lm.lastSnapshotId.index
  virtual_le : lm.virtualFirstLogId.index ≤ lm.lastSnapshotId.index
  snapshot_le : lm.lastSnapshotId.index ≤ lm.appliedId.index
  held : ∃ m, lm.HeldFrom m

namespace Legible

variable {index : ℕ} (h : lm.Legible)
include h

/-- **Reads return the entries that the log should have.** -/
theorem getEntry_eq (hle : lm.firstLogIndex ≤ index) : lm.getEntry index = lm.logs[index - 1]? := by
  obtain ⟨m, hm⟩ := h.held
  have hfirst := h.first
  unfold getEntry Storage.LogManager.getEntry
  rw [toStorage_lastLogIndex, toStorage_firstLogIndex, lastLogIndex]
  by_cases hlast : lm.logs.length < index
  · rw [if_pos (.inl hlast), getElem?_eq_none (by omega)]
    rfl
  rw [if_neg (by omega), hm.getEntryFromMemory_eq (not_lt.mp hlast)]
  split_ifs with hlt
  · rw [getElem?_eq_getElem (by omega)]
    rfl
  · have hread : lm.storage[index - 1]? = lm.logs[index - 1]? :=
      (hm.written (index - 1) (by omega) (by omega)).eq
    rw [← hread, Container.ListLog.get_of_le (show 1 ≤ index by omega), toStorage_storage_entries,
      toStorage_storage_first, getElem?_map, getElem?_zipIdx, Option.map_map, Option.map_map]
    exact Option.map_id'

theorem getEntries_eq {prev : ℕ} (hle : lm.firstLogIndex ≤ prev + 1) (count : ℕ) :
    lm.getEntries (prev + 1) count = (lm.logs.drop prev).take count := by
  induction count generalizing prev with
  | zero => rfl
  | succ count ih =>
    rw [getEntries, h.getEntry_eq hle, Nat.add_sub_cancel]
    cases hread : lm.logs[prev]? with
    | none => rw [drop_of_length_le (getElem?_eq_none_iff.mp hread), take_nil]
    | some e =>
      obtain ⟨hlt, rfl⟩ := List.getElem?_eq_some_iff.mp hread
      rw [drop_eq_getElem_cons hlt, take_succ_cons, ← ih (by omega)]

/-- **Terms are read as the log should have them,** from the one before the first index on. -/
theorem unsafeGetTerm_eq (hle : lm.virtualFirstLogId.index ≤ index) :
    lm.unsafeGetTerm index = termAt lm.logs index := by
  have hfirst := h.first
  rw [unsafeGetTerm_getEntry]
  split_ifs with hzero hvirtual hsnapshot
  · rw [hzero]
    rfl
  · rw [hvirtual, h.virtual]
  · rw [hsnapshot, h.snapshot]
  · rw [h.getEntry_eq (by omega), termAt, if_neg hzero]

theorem unsafeGetTerm_of_lt (hlt : index < lm.virtualFirstLogId.index) :
    lm.unsafeGetTerm index = 0 := by
  have hfirst := h.first
  have hle := h.virtual_le
  have hrange : index < lm.firstLogIndex := by omega
  have hnone : lm.getEntry index = none := congrArg (Option.map _) (if_pos (.inr hrange))
  rw [unsafeGetTerm_getEntry, hnone]
  split_ifs with hzero hvirtual hsnapshot
  · rfl
  · omega
  · omega
  · rfl

/-- The log is cut off; the term of its last entry is read. -/
theorem unsafeTruncateSuffix_eq {kept : ℕ} (hkept : lm.appliedId.index ≤ kept) :
    lm.unsafeTruncateSuffix kept = { lm with
      logs := lm.logs.take kept
      logsInMemory := lm.logsInMemory.rdropWhile fun e => kept < e.2
      diskQueue := lm.diskQueue ++ [.truncateSuffix kept (termAt lm.logs kept)] } := by
  obtain ⟨m, hm⟩ := h.held
  have hvirtual := h.virtual_le
  have hsnapshot := h.snapshot_le
  let cut : LogManager D κ ι := { lm with
    logs := lm.logs.take kept
    logsInMemory := lm.logsInMemory.rdropWhile fun e => kept < e.2
    diskQueue := lm.diskQueue ++ [.truncateSuffix kept 0] }
  have hcut : cut.Legible := { h with
    virtual := h.virtual.trans (termAt_take _ (by omega)).symm
    snapshot := h.snapshot.trans (termAt_take _ (by omega)).symm
    held := ⟨m, hm.truncate hkept 0⟩ }
  have hterm : cut.unsafeGetTerm kept = termAt (lm.logs.take kept) kept :=
    hcut.unsafeGetTerm_eq (show lm.virtualFirstLogId.index ≤ kept by omega)
  rw [termAt_take _ le_rfl] at hterm
  rw [unsafeTruncateSuffix, if_neg (not_lt.mpr hkept), ← hterm]
  rfl

end Legible

end LogManager

end Braft
