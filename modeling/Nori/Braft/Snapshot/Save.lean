import Nori.Braft.Snapshot.Executor

/-!
# Saving a snapshot

A saved snapshot passes from the state machine through its writer and `LocalSnapshotStorage::close`
to `on_snapshot_save_done`, which then lets the log manager drop the entries before it. Any
operation on files may fail. `close` answers `0` to every error that is not `EIO`: a meta file that
cannot be written, or an error that the state machine has set on the writer, counts as saved.
-/

namespace Braft.Snapshots

open Transition Function

/-- A snapshot directory: what the state machine wrote into it, and the meta file. -/
structure SnapshotDir (F : Type) where
  files : F
  metaFile : Option SnapshotMeta

structure LocalSnapshotStorage (F : Type) where
  temp : Option (SnapshotDir F)
  dirs : ℤ → Option (SnapshotDir F)
  lastSnapshotIndex : ℤ
  refMap : ℤ → ℕ

/-- The file operations of a save that succeed. -/
structure FileOps where
  create : Bool
  saveMeta : Bool
  deleteNew : Bool
  rename : Bool
  deleteOld : Bool
  deleteTemp : Bool

structure LocalSnapshotWriter where
  errorCode : ℤ
  snapshotMeta : Option SnapshotMeta

def eio : ℤ := 5

def eexist : ℤ := 17

def estale : ℤ := 116

namespace LocalSnapshotStorage

variable {F : Type} (ops : FileOps) (s : LocalSnapshotStorage F)

def unref (index : ℤ) : LocalSnapshotStorage F :=
  { s with
    refMap := update s.refMap index (s.refMap index - 1)
    dirs := if s.refMap index = 1 ∧ ops.deleteOld then update s.dirs index none
      else s.dirs }

/-- The block of `close` that an error leaves. -/
def commit (writer : LocalSnapshotWriter) : ℤ × LocalSnapshotStorage F :=
  if writer.errorCode ≠ 0 then (writer.errorCode, s)
  -- `ProtoBufFile::save` fails with `-1`, and `sync` hands it on
  else if ops.saveMeta = false then (-1, s)
  else
    let temp := s.temp.map fun dir => { dir with metaFile := writer.snapshotMeta }
    let newIndex := (writer.snapshotMeta.map SnapshotMeta.lastIncludedIndex).getD 0
    let s := { s with temp := temp }
    if newIndex = s.lastSnapshotIndex then (eexist, s)
    else if ops.deleteNew = false then (eio, s)
    else if ops.rename = false then (eio, { s with dirs := update s.dirs newIndex none })
    else (0, { s with
      temp := none
      dirs := update s.dirs newIndex temp
      refMap := update s.refMap newIndex (s.refMap newIndex + 1)
      lastSnapshotIndex := newIndex }.unref ops s.lastSnapshotIndex)

def close (writer : LocalSnapshotWriter) : ℤ × LocalSnapshotStorage F :=
  let r := s.commit ops writer
  (if r.1 ≠ eio then 0 else -1,
    { r.2 with temp := if r.1 ≠ 0 ∧ ops.deleteTemp then none else r.2.temp })

theorem close_of_error {writer : LocalSnapshotWriter} (h : writer.errorCode ≠ 0) :
    (s.close ops writer).1 = (if writer.errorCode ≠ eio then 0 else -1) ∧
      (s.close ops writer).2.lastSnapshotIndex = s.lastSnapshotIndex := by
  simp [close, commit, h]

/-- Without an error before, `close` has moved the directory to its place, or fails. -/
theorem close_of_ok (writer : LocalSnapshotWriter) {m : SnapshotMeta} (h : writer.errorCode = 0)
    (hmeta : writer.snapshotMeta = some m) (hsave : ops.saveMeta = true)
    (hnew : m.lastIncludedIndex ≠ s.lastSnapshotIndex) :
    ((s.close ops writer).1 ≠ 0 ∧ (s.close ops writer).2.lastSnapshotIndex = s.lastSnapshotIndex) ∨
      ((s.close ops writer).1 = 0 ∧ (s.close ops writer).2.lastSnapshotIndex = m.lastIncludedIndex ∧
        (s.close ops writer).2.dirs m.lastIncludedIndex =
          s.temp.map fun dir => { dir with metaFile := some m }) := by
  unfold close commit
  simp only [h, hmeta, hsave, Option.map_some, Option.getD_some, if_neg hnew]
  cases ops.deleteNew with
  | false => simp
  | true =>
    cases ops.rename with
    | false => simp
    | true =>
      refine .inr ⟨rfl, rfl, ?_⟩
      -- the directory of the old index is another one
      simp only [unref]
      grind

/-- The directory that `open` returns a reader of. The reader needs its meta file. -/
def openReader : Option (SnapshotDir F) :=
  if s.lastSnapshotIndex ≠ 0 then (s.dirs s.lastSnapshotIndex).filter (·.metaFile.isSome) else none

end LocalSnapshotStorage

/-- One save: the status of the state machine, the error it has set on the writer, what it wrote,
and the operations that succeed. -/
structure Save (F : Type) where
  status : ℤ
  writerError : ℤ
  snapshotMeta : SnapshotMeta
  files : F
  ops : FileOps

/-- The executor with its storage, and the calls of `LogManager::set_snapshot`. -/
structure Saves (F : Type) where
  lastSnapshotIndex : ℤ
  lastSnapshotTerm : ℤ
  storage : LocalSnapshotStorage F
  snapshots : List SnapshotMeta

namespace Saves

variable {F : Type} {w w' : Saves F} {save : Save F}

/-- The end of `on_snapshot_save_done`, from the call of `close` on. -/
def finish (save : Save F) (ret : ℤ) (writer : LocalSnapshotWriter) (w : Saves F) : ℤ × Saves F :=
  let r := w.storage.close save.ops writer
  let ret := if r.1 ≠ 0 then eio else ret
  (ret, if ret = 0 then
      { lastSnapshotIndex := save.snapshotMeta.lastIncludedIndex
        lastSnapshotTerm := save.snapshotMeta.lastIncludedTerm
        storage := r.2
        snapshots := save.snapshotMeta :: w.snapshots }
    else { w with storage := r.2 })

/-- `on_snapshot_save_done`, with what it returns. -/
def onSnapshotSaveDone (save : Save F) (w : Saves F) : ℤ × Saves F :=
  if save.status = 0 then
    if save.snapshotMeta.lastIncludedIndex ≤ w.lastSnapshotIndex then
      w.finish save estale ⟨estale, none⟩
    else w.finish save 0 ⟨save.writerError, some save.snapshotMeta⟩
  else
    w.finish save save.status ⟨if save.writerError = 0 then save.status else save.writerError, none⟩

/-- A save from the creation of its writer, in an empty directory. -/
def run (w : Saves F) (save : Save F) : ℤ × Saves F :=
  if save.ops.create = false then (eio, { w with storage := { w.storage with temp := none } })
  else { w with storage := { w.storage with temp := some ⟨save.files, none⟩ } }.onSnapshotSaveDone
    save

/-- The executor has the last snapshot of its storage. -/
def Matched (w : Saves F) : Prop :=
  w.lastSnapshotIndex = w.storage.lastSnapshotIndex ∧ 0 ≤ w.lastSnapshotIndex

/-- Saves one after the other; the executor starts with the last snapshot of its storage. -/
def system (F : Type) : System (Saves F) (Save F) where
  init w := w.Matched
  step w save w' := (w.run save).2 = w'

/-- Where the state machine reports success, it has set no error but `EIO` on the writer, and the
meta file can be written. -/
def Told (_ : Saves F) (save : Save F) : Prop :=
  save.status = 0 → (save.writerError = 0 ∨ save.writerError = eio) ∧ save.ops.saveMeta = true

/-- What is due after a save that returned `ret`. -/
def Due (save : Save F) (ret : ℤ) (w w' : Saves F) : Prop :=
  if ret = 0 then
    w'.lastSnapshotIndex = save.snapshotMeta.lastIncludedIndex ∧
      w'.lastSnapshotTerm = save.snapshotMeta.lastIncludedTerm ∧
      w'.snapshots = save.snapshotMeta :: w.snapshots ∧
      w'.storage.openReader = some ⟨save.files, some save.snapshotMeta⟩
  else
    w'.lastSnapshotIndex = w.lastSnapshotIndex ∧ w'.lastSnapshotTerm = w.lastSnapshotTerm ∧
      w'.snapshots = w.snapshots

theorem due_of_ne_zero {ret : ℤ} {s : LocalSnapshotStorage F} (hret : ret ≠ 0) (h : w.Matched)
    (hlast : s.lastSnapshotIndex = w.storage.lastSnapshotIndex) :
    Due save ret w { w with storage := s } ∧ Matched { w with storage := s } :=
  ⟨by simp [Due, hret], h.1.trans hlast.symm, h.2⟩

theorem finish_of_error {ret : ℤ} {writer : LocalSnapshotWriter} (h : w.Matched)
    (hwriter : writer.errorCode ≠ 0) (hret : ret ≠ 0 ∨ writer.errorCode = eio) :
    Due save (w.finish save ret writer).1 w (w.finish save ret writer).2 ∧
      (w.finish save ret writer).2.Matched := by
  obtain ⟨hcode, hlast⟩ := w.storage.close_of_error save.ops hwriter
  have hne : (if (w.storage.close save.ops writer).1 ≠ 0 then eio else ret) ≠ 0 := by
    rw [hcode]
    grind [eio]
  unfold finish
  simp only [if_neg hne]
  exact due_of_ne_zero hne h hlast

/-- The snapshot is in its place, or `close` has failed. -/
theorem finish_of_ok (h : w.Matched) (hsave : save.ops.saveMeta = true)
    (htemp : w.storage.temp = some ⟨save.files, none⟩)
    (hnew : w.lastSnapshotIndex < save.snapshotMeta.lastIncludedIndex) :
    Due save (w.finish save 0 ⟨0, some save.snapshotMeta⟩).1 w
        (w.finish save 0 ⟨0, some save.snapshotMeta⟩).2 ∧
      (w.finish save 0 ⟨0, some save.snapshotMeta⟩).2.Matched := by
  have hother : save.snapshotMeta.lastIncludedIndex ≠ w.storage.lastSnapshotIndex := h.1 ▸ hnew.ne'
  have hpos : 0 < save.snapshotMeta.lastIncludedIndex := h.2.trans_lt hnew
  unfold finish
  rcases w.storage.close_of_ok save.ops ⟨0, some save.snapshotMeta⟩ rfl rfl hsave hother with
    ⟨hcode, hlast⟩ | ⟨hcode, hlast, hdir⟩
  · simp only [if_pos hcode]
    exact due_of_ne_zero (by decide) h hlast
  · simp only [hcode, ne_eq, not_true_eq_false, if_false, if_true]
    refine ⟨⟨rfl, rfl, rfl, ?_⟩, hlast.symm, hpos.le⟩
    simp [LocalSnapshotStorage.openReader, hlast, hdir, htemp, hpos.ne']

theorem run_spec (h : w.Matched) (hC : w.Told save) :
    Due save (w.run save).1 w (w.run save).2 ∧ (w.run save).2.Matched := by
  unfold run
  split
  · exact due_of_ne_zero (by simp [eio]) h rfl
  · have hstart : Matched { w with
        storage := { w.storage with temp := some ⟨save.files, none⟩ } } := h
    unfold onSnapshotSaveDone
    split
    · rename_i hstatus
      obtain ⟨hwriter, hsave⟩ := hC hstatus
      split
      · exact finish_of_error hstart (by decide) (.inl (by decide))
      · rename_i hnew
        rcases hwriter with hwriter | hwriter
        · rw [hwriter]
          exact finish_of_ok hstart hsave rfl (not_le.mp hnew)
        · exact finish_of_error hstart (by simp [hwriter, eio]) (.inr hwriter)
    · rename_i hstatus
      exact finish_of_error hstart (by dsimp only; split <;> assumption) (.inl hstatus)

/-- **Compaction under a snapshot.** In every run of saves in which an error on the writer of a save
that the state machine reports as successful is `EIO` and its meta file can be written, a save that
returns `0` advances the last snapshot and has the log compacted, and `open` then returns that
snapshot with its files and its meta; a save that returns an error changes neither. -/
theorem compacted_under_snapshot {ret : ℤ} (h : ((system F).restrict Told).Reachable w)
    (hC : w.Told save) (hrun : w.run save = (ret, w')) : Due save ret w w' := by
  have hmatched : w.Matched := by
    refine h.invariant (fun _ hw => hw) ?_
    rintro w save _ ⟨hC, rfl⟩ hw
    exact (run_spec hw hC).2
  have := (run_spec hmatched hC).1
  rwa [hrun] at this

namespace Sample

/-- A node without a snapshot. -/
def start : Saves Unit := ⟨0, 0, ⟨none, fun _ => none, 0, fun _ => 0⟩, []⟩

/-- Its first snapshot, which the meta file may be missing of. -/
def first (saveMeta : Bool) : Save Unit :=
  ⟨0, 0, ⟨1, 1⟩, (), ⟨true, saveMeta, true, true, true, true⟩⟩

theorem matched_start : start.Matched := ⟨rfl, le_rfl⟩

theorem compacted_under_snapshot_first : (start.run (first true)).1 = 0 ∧
      (start.run (first true)).2.storage.openReader = some ⟨(), some ⟨1, 1⟩⟩ := by
  have hdue := compacted_under_snapshot (.start matched_start) (fun _ => ⟨.inl rfl, rfl⟩)
    (show start.run (first true) = (_, _) from rfl)
  exact ⟨rfl, hdue.2.2.2⟩

/-- The meta file cannot be written, and the log is compacted. -/
theorem compacted_without_snapshot :
    ∃ w, (system Unit).Reachable w ∧ w.lastSnapshotIndex = 1 ∧ w.snapshots = [⟨1, 1⟩] ∧
      w.storage.openReader = none :=
  ⟨_, .step (.start matched_start) (show _ = (start.run (first false)).2 from rfl), rfl, rfl, rfl⟩

end Sample

end Saves

end Braft.Snapshots
