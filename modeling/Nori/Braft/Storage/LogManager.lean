import Mathlib.Algebra.Ring.Nat
import Mathlib.Data.List.DropRight
import Nori.Container.ListLog

/-!
# The log manager between memory and disk

Entries go to memory at once and to a queue for the disk thread, and leave memory when they are both
written and applied, which two log ids tell. The log is cut off at its end by entries of a leader
that conflict with it, and at its beginning by snapshots; both changes also go through the queue.

The log storage is a log as a list. It never fails, so neither does the log manager.
-/

namespace Braft

structure LogId where
  index : ℕ
  term : ℕ
deriving DecidableEq

namespace LogId

/-- Terms are compared first. -/
def le (x y : LogId) : Prop := x.term < y.term ∨ x.term = y.term ∧ x.index ≤ y.index

instance (x y : LogId) : Decidable (x.le y) := inferInstanceAs (Decidable (_ ∨ _))

theorem le_refl (x : LogId) : x.le x := .inr ⟨rfl, le_rfl⟩

theorem le.trans {x y z : LogId} (h : x.le y) (h' : y.le z) : x.le z := by
  unfold le at *
  omega

def lt (x y : LogId) : Prop := x.term < y.term ∨ x.term = y.term ∧ x.index < y.index

instance (x y : LogId) : Decidable (x.lt y) := inferInstanceAs (Decidable (_ ∨ _))

def min (x y : LogId) : LogId := if y.lt x then y else x

theorem lt.trans {x y z : LogId} (h : x.lt y) (h' : y.lt z) : x.lt z := by
  unfold lt at *
  omega

theorem le.trans_lt {x y z : LogId} (h : x.le y) (h' : y.lt z) : x.lt z := by
  unfold lt le at *
  omega

theorem not_lt {x y : LogId} : ¬ x.lt y ↔ y.le x := by
  unfold lt le
  omega

theorem lt.asymm {x y : LogId} (h : x.lt y) : ¬ y.lt x := by
  unfold lt at *
  omega

theorem min_le_left (x y : LogId) : (min x y).le x := by
  unfold min
  split_ifs with h
  · unfold lt at h
    unfold le
    omega
  · exact x.le_refl

/-- An id that is raised where it is below another one. -/
theorem index_le_raised {x y : LogId} (h : y.le x → y.index ≤ x.index) :
    y.index ≤ (if x.lt y then y else x).index := by
  split_ifs with hlt
  · exact le_rfl
  · exact h (not_lt.mp hlt)

end LogId

/-- Why entries of a leader are not appended: they do not follow on the log, or are all applied. -/
inductive AppendStop
  | gap
  | applied
deriving DecidableEq

namespace Storage

open Container

/-- An entry with its id. Its type, peers and data are `data`. -/
structure LogEntry (D : Type) where
  id : LogId
  data : D
deriving DecidableEq

/-- What waits in the queue of the disk thread. -/
inductive DiskClosure (D ι : Type)
  | stable (entries : List (LogEntry D))
  | lastLogId (caller : ι)
  | truncatePrefix (firstIndexKept : ℕ)
  | truncateSuffix (lastIndexKept lastTermKept : ℕ)
  | reset (nextLogIndex : ℕ)

/-- Entries of several closures that are written together: `size` closures with `bufferSize` bytes
of data. None of the closures is without entries. -/
structure AppendBatcher (D : Type) where
  toAppend : List (LogEntry D)
  size : ℕ
  bufferSize : ℕ
  size_pos : 0 < size ↔ toAppend ≠ []

namespace AppendBatcher

variable {D : Type}

/-- How many closures (`_cap`) and bytes (`raft_max_append_buffer_size`) are written together, and
the lengths of data. -/
structure Limits (D : Type) where
  cap : ℕ
  maxBufferSize : ℕ
  length : D → ℕ

def empty : AppendBatcher D := ⟨[], 0, 0, by simp⟩

/-- `append` flushes first. -/
def full (lim : Limits D) (ab : AppendBatcher D) : Prop :=
  ab.size = lim.cap ∨ lim.maxBufferSize ≤ ab.bufferSize

instance (lim : Limits D) (ab : AppendBatcher D) : Decidable (ab.full lim) :=
  inferInstanceAs (Decidable (_ ∨ _))

def append (lim : Limits D) (ab : AppendBatcher D) (entries : List (LogEntry D))
    (hentries : entries ≠ []) : AppendBatcher D where
  toAppend := ab.toAppend ++ entries
  size := ab.size + 1
  bufferSize := ab.bufferSize + (entries.map fun e => lim.length e.data).sum
  size_pos := by simp [hentries]

theorem toAppend_eq_nil {ab : AppendBatcher D} (h : ¬ 0 < ab.size) : ab.toAppend = [] := by
  by_contra hne
  exact h (ab.size_pos.mpr hne)

end AppendBatcher

/-- The log manager. `batch` is the last id and the batcher of the disk thread while it handles a
batch; `clearing` are the ids up to which some thread still clears the memory. -/
structure LogManager (D ι : Type) where
  storage : ListLog (LogEntry D)
  firstLogIndex : ℕ
  lastLogIndex : ℕ
  logsInMemory : List (LogEntry D)
  appliedId : LogId
  diskId : LogId
  lastSnapshotId : LogId
  virtualFirstLogId : LogId
  diskQueue : List (DiskClosure D ι)
  batch : Option (LogId × AppendBatcher D)
  clearing : List LogId

namespace LogManager

variable {D ι : Type}

/-! ## Reading -/

def getEntryFromMemory (lm : LogManager D ι) (index : ℕ) : Option (LogEntry D) :=
  match lm.logsInMemory.head?, lm.logsInMemory.getLast? with
  | some first, some last =>
    if first.id.index ≤ index ∧ index ≤ last.id.index then
      lm.logsInMemory[index - first.id.index]?
    else none
  | _, _ => none

def getEntry (lm : LogManager D ι) (index : ℕ) : Option (LogEntry D) :=
  if lm.lastLogIndex < index ∨ index < lm.firstLogIndex then none
  else
    match lm.getEntryFromMemory index with
    | some e => some e
    | none => lm.storage.get index

/-- The term of an entry, or of a snapshot that ends at the index; `0` where nothing is known.
`get_term` differs only in the mutex. -/
def unsafeGetTerm (lm : LogManager D ι) (index : ℕ) : ℕ :=
  if index = 0 then 0
  else if index = lm.virtualFirstLogId.index then lm.virtualFirstLogId.term
  else if index = lm.lastSnapshotId.index then lm.lastSnapshotId.term
  else if lm.lastLogIndex < index ∨ index < lm.firstLogIndex then 0
  else
    match lm.getEntryFromMemory index with
    | some e => e.id.term
    | none => ((lm.storage.get index).map fun e => e.id.term).getD 0

/-! ## Appending and truncating -/

/-- Cuts the log off after an index; one that is applied already is not touched. -/
def unsafeTruncateSuffix (lastIndexKept : ℕ) (lm : LogManager D ι) : LogManager D ι :=
  if lastIndexKept < lm.appliedId.index then lm
  else
    let lm' := { lm with
      logsInMemory := lm.logsInMemory.rdropWhile fun e => lastIndexKept < e.id.index
      lastLogIndex := lastIndexKept }
    { lm' with
      diskQueue :=
        lm.diskQueue ++ [.truncateSuffix lastIndexKept (lm'.unsafeGetTerm lastIndexKept)] }

/-- Entries without an index get the next ones. Entries of a leader lose those that the log has,
and the log loses what conflicts with them. What is left is to be appended. -/
def checkAndResolveConflict (entries : List (LogEntry D)) (lm : LogManager D ι) :
    Except AppendStop (LogManager D ι × List (LogEntry D)) :=
  match entries.head?, entries.getLast? with
  | some front, some back =>
    if front.id.index = 0 then
      .ok ({ lm with lastLogIndex := lm.lastLogIndex + entries.length },
        entries.mapIdx fun i e => { e with id := ⟨lm.lastLogIndex + 1 + i, e.id.term⟩ })
    else if lm.lastLogIndex + 1 < front.id.index then .error .gap
    else if back.id.index ≤ lm.appliedId.index then .error .applied
    else if front.id.index = lm.lastLogIndex + 1 then
      .ok ({ lm with lastLogIndex := back.id.index }, entries)
    else
      match entries.dropWhile fun e => lm.unsafeGetTerm e.id.index = e.id.term with
      | [] => .ok (lm, [])
      | e :: rest =>
        let lm' := if e.id.index ≤ lm.lastLogIndex then lm.unsafeTruncateSuffix (e.id.index - 1)
          else lm
        .ok ({ lm' with lastLogIndex := back.id.index }, e :: rest)
  | _, _ => .ok (lm, [])

/-- `append_entries`, and the entries that it has appended. -/
def appendEntries (entries : List (LogEntry D)) (lm : LogManager D ι) :
    LogManager D ι × List (LogEntry D) :=
  match lm.checkAndResolveConflict entries with
  | .error _ => (lm, [])
  | .ok (lm', rest) =>
    ({ lm' with
      logsInMemory := lm'.logsInMemory ++ rest
      diskQueue := lm'.diskQueue ++ [.stable rest] }, rest)

def truncatePrefix (firstIndexKept : ℕ) (lm : LogManager D ι) : LogManager D ι :=
  { lm with
    logsInMemory := lm.logsInMemory.dropWhile fun e => e.id.index < firstIndexKept
    firstLogIndex := firstIndexKept
    lastLogIndex := if lm.lastLogIndex < firstIndexKept then firstIndexKept - 1 else lm.lastLogIndex
    diskQueue := lm.diskQueue ++ [.truncatePrefix firstIndexKept] }

def reset (nextLogIndex : ℕ) (lm : LogManager D ι) : LogManager D ι :=
  { lm with
    logsInMemory := []
    firstLogIndex := nextLogIndex
    lastLogIndex := nextLogIndex - 1
    diskQueue := lm.diskQueue ++ [.reset nextLogIndex] }

/-- A snapshot is there, saved or loaded: what lies before the one before it is dropped, or the
whole log if the snapshot does not continue it. -/
def setSnapshot (id : LogId) (lm : LogManager D ι) : LogManager D ι :=
  if id.index ≤ lm.lastSnapshotId.index then lm
  else
    let term := lm.unsafeGetTerm id.index
    let lm' := { lm with
      lastSnapshotId := id
      appliedId := if lm.appliedId.lt id then id else lm.appliedId }
    if term = 0 then { lm' with virtualFirstLogId := id }.truncatePrefix (id.index + 1)
    else if term = id.term then
      if 0 < lm.lastSnapshotId.index then
        { lm' with virtualFirstLogId := lm.lastSnapshotId }.truncatePrefix
          (lm.lastSnapshotId.index + 1)
      else lm'
    else { lm' with virtualFirstLogId := id }.reset (id.index + 1)

def clearBufferedLogs (lm : LogManager D ι) : LogManager D ι :=
  if lm.lastSnapshotId.index = 0 then lm
  else
    { lm with virtualFirstLogId := lm.lastSnapshotId }.truncatePrefix (lm.lastSnapshotId.index + 1)

/-! ## Clearing the memory -/

def setDiskId (diskId : LogId) (lm : LogManager D ι) : LogManager D ι :=
  if diskId.lt lm.diskId then lm
  else { lm with diskId, clearing := lm.clearing ++ [diskId.min lm.appliedId] }

def setAppliedId (appliedId : LogId) (lm : LogManager D ι) : LogManager D ι :=
  if appliedId.lt lm.appliedId then lm
  else { lm with appliedId, clearing := lm.clearing ++ [lm.diskId.min appliedId] }

/-- How many entries are cleared while the mutex is held. -/
def clearSize : ℕ := 256

/-- The entries that one round of clearing takes out. -/
def toClear (id : LogId) (lm : LogManager D ι) : List (LogEntry D) :=
  (lm.logsInMemory.take clearSize).takeWhile fun e => e.id.le id

/-- One round of a thread that clears the memory; it is the last one if it clears less than it
may. -/
def clearMemoryLogs (thread : ℕ) (lm : LogManager D ι) : Option (LogManager D ι) := do
  let id ← lm.clearing[thread]?
  let nentries := (lm.toClear id).length
  return { lm with
    logsInMemory := lm.logsInMemory.drop nentries
    clearing := if nentries = clearSize then lm.clearing else lm.clearing.eraseIdx thread }

/-! ## The disk thread -/

/-- `last_log_id(true)`: the caller waits for the disk thread, unless the log ends with the last
snapshot. -/
def requestLastLogId (caller : ι) (lm : LogManager D ι) : LogManager D ι × Option LogId :=
  if lm.lastLogIndex = lm.lastSnapshotId.index then (lm, some lm.lastSnapshotId)
  else ({ lm with diskQueue := lm.diskQueue ++ [.lastLogId caller] }, none)

def startBatch (lm : LogManager D ι) : Option (LogManager D ι) :=
  match lm.batch with
  | some _ => none
  | none => some { lm with batch := some (lm.diskId, .empty) }

/-- The batcher writes what it has. -/
def flush (lm : LogManager D ι) : Option (LogManager D ι) :=
  match lm.batch with
  | none => none
  | some (lastId, ab) =>
    if 0 < ab.size then
      some { lm with
        storage := lm.storage.append ab.toAppend
        batch := some ((ab.toAppend.getLast?.map LogEntry.id).getD lastId, .empty) }
    else none

/-- The disk thread takes the next closure; it has flushed before, where that is needed. A caller
that waits for the last log id is answered. -/
def iterate (lim : AppendBatcher.Limits D) (lm : LogManager D ι) :
    Option (LogManager D ι × Option (ι × LogId)) :=
  match lm.batch, lm.diskQueue with
  | some (lastId, ab), done :: rest =>
    match done with
    | .stable (e :: es) =>
      if ab.full lim then none
      else
        some ({ lm with
          diskQueue := rest
          batch := some (lastId, ab.append lim (e :: es) (List.cons_ne_nil e es)) }, none)
    | .stable [] => if 0 < ab.size then none else some ({ lm with diskQueue := rest }, none)
    | .lastLogId caller =>
      if 0 < ab.size then none else some ({ lm with diskQueue := rest }, some (caller, lastId))
    | .truncatePrefix firstIndexKept =>
      if 0 < ab.size then none
      else
        some ({ lm with
          diskQueue := rest, storage := lm.storage.truncatePrefix firstIndexKept }, none)
    | .truncateSuffix lastIndexKept lastTermKept =>
      if 0 < ab.size then none
      else
        some ({ lm with
          diskQueue := rest
          storage := lm.storage.truncateSuffix lastIndexKept
          batch := some (⟨lastIndexKept, lastTermKept⟩, ab) }, none)
    | .reset nextLogIndex =>
      if 0 < ab.size then none
      else some ({ lm with diskQueue := rest, storage := .reset nextLogIndex }, none)
  | _, _ => none

def endBatch (lm : LogManager D ι) : Option (LogManager D ι) :=
  match lm.batch with
  | none => none
  | some (lastId, ab) =>
    if 0 < ab.size then none else some ({ lm with batch := none }.setDiskId lastId)

end LogManager

end Storage

end Braft
