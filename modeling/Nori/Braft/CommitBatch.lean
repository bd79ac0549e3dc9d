import Nori.Braft.FsmCaller

/-!
# Merging commits

The tasks of the `FSMCaller` wait in an execution queue, which hands them over in calls of `run`.
A call merges the commits that follow each other into their maximum, and applies it when another
kind of task comes, when the batch is full, or at the end. A commit that finds the batch full only
makes it be applied: the commit itself is forgotten.
-/

namespace Braft

open List Option

/-- What comes of a snapshot that is to be loaded. -/
inductive LoadResult
  | noReader
  | metaFailed (eio : Bool)
  /-- The index of the last entry in the snapshot, whether its configuration is a joint one, and
  whether the state machine loads it. -/
  | read (index : ℕ) (joint loads : Bool)

/-- The tasks. -/
inductive FsmTask
  | committed (index : ℕ)
  /-- `writer` says whether there is one. -/
  | snapshotSave (writer : Bool)
  | snapshotLoad (result : LoadResult)
  | leaderStop
  | leaderStart
  | startFollowing
  | stopFollowing
  | error (e : FsmError)

namespace FsmCaller

variable {K : Type}

def doSnapshotSave (writer : Bool) (s : FsmCaller K) : FsmCaller K :=
  if writer then
    { s with calls := s.calls ++ [.snapshotSave ⟨s.lastAppliedIndex, s.lastAppliedTerm⟩] }
  else s

/-- The snapshot is one of the committed log, so its term is the one that the log has there. -/
def doSnapshotLoad (log : CommittedLog) (result : LoadResult) (s : FsmCaller K) : FsmCaller K :=
  match result with
  | .noReader => s
  | .metaFailed eio => if eio then s.setError .snapshot else s
  | .read index joint loads =>
    let snapshotId : LogId := ⟨index, (log.entry index).term⟩
    if LogId.le ⟨s.lastAppliedIndex, s.lastAppliedTerm⟩ snapshotId then
      if loads then
        { s with
          lastAppliedIndex := index
          lastAppliedTerm := snapshotId.term
          calls := s.calls ++ [.snapshotLoad snapshotId] ++
            (if joint then [] else [.snapshotConfiguration index]) }
      else s.setError .stateMachine
    else s

/-- The tasks other than commits; those about snapshots are passed by after an error. -/
def handle (log : CommittedLog) (task : FsmTask) (s : FsmCaller K) : FsmCaller K :=
  match task with
  | .committed _ => s
  | .snapshotSave writer => if s.error.isNone then s.doSnapshotSave writer else s
  | .snapshotLoad result => if s.error.isNone then s.doSnapshotLoad log result else s
  | .leaderStop => { s with calls := s.calls ++ [.leaderStop] }
  | .leaderStart => { s with calls := s.calls ++ [.leaderStart] }
  | .startFollowing => { s with calls := s.calls ++ [.startFollowing] }
  | .stopFollowing => { s with calls := s.calls ++ [.stopFollowing] }
  | .error e => s.setError e

/-- The variables of `run`: the maximum of the commits in the batch, and how often it was raised. -/
structure RunState (K : Type) where
  st : ClosureQueue K × FsmCaller K
  maxCommittedIndex : Option ℕ
  counter : ℕ

/-- The batch is applied. -/
def flush (log : CommittedLog) (react : ℕ → Reaction) (acc : RunState K) : RunState K :=
  match acc.maxCommittedIndex with
  | none => acc
  | some m => ⟨doCommitted log react m acc.st, none, 0⟩

/-- An index is above the maximum so far. -/
def Raises (max : Option ℕ) (index : ℕ) : Prop := ∀ m ∈ max, m < index

instance (max : Option ℕ) (index : ℕ) : Decidable (Raises max index) :=
  inferInstanceAs (Decidable (∀ m ∈ max, m < index))

def runTask (log : CommittedLog) (react : ℕ → Reaction) (batchSize : ℕ) (acc : RunState K)
    (task : FsmTask) : RunState K :=
  match task with
  | .committed index =>
    if acc.counter < batchSize then
      if Raises acc.maxCommittedIndex index then
        { acc with maxCommittedIndex := some index, counter := acc.counter + 1 }
      else acc
    -- the batch is full: `case COMMITTED` does nothing with the task
    else flush log react acc
  | task =>
    let acc := flush log react acc
    { acc with st := (acc.st.1, acc.st.2.handle log task) }

def run (log : CommittedLog) (react : ℕ → Reaction) (batchSize : ℕ)
    (st : ClosureQueue K × FsmCaller K) (tasks : List FsmTask) : ClosureQueue K × FsmCaller K :=
  (flush log react (tasks.foldl (runTask log react batchSize) ⟨st, none, 0⟩)).st

/-- The calls of `run`, one after the other. -/
def runAll (log : CommittedLog) (react : ℕ → Reaction) (batchSize : ℕ)
    (st : ClosureQueue K × FsmCaller K) (calls : List (List FsmTask)) :
    ClosureQueue K × FsmCaller K :=
  calls.foldl (run log react batchSize) st

/-! ## What the state machine is told -/

/-- The calls of the state machine since it has loaded a snapshot. -/
def sinceLoad (calls : List (SmCall K)) : List (SmCall K) :=
  calls.foldl (fun acc call =>
    match call with
    | .snapshotLoad _ => []
    | call => acc ++ [call]) []

/-- The index from which the state machine was started, or the one of the snapshot that it has
loaded last. -/
def baseIndex (start : ℕ) (calls : List (SmCall K)) : ℕ :=
  calls.foldl (fun base call =>
    match call with
    | .snapshotLoad id => id.index
    | _ => base) start

end FsmCaller

/-- The index of an entry that is passed to the state machine. -/
def SmCall.entryIndex {K : Type} : SmCall K → Option ℕ
  | .apply index _ => some index
  | .configurationCommitted index => some index
  | _ => none

/-- The entries that the state machine is to see: data, and configurations that are not joint. -/
def CommittedLog.visible (log : CommittedLog) (index : ℕ) : Bool :=
  (log.entry index).type = .data || (log.entry index).type = .configuration false

namespace FsmCaller

section Calls

variable {K : Type} {log : CommittedLog} {react : ℕ → Reaction} {start : ℕ}

/-- What the state machine was told: since its start or since the last snapshot, each visible entry
up to the last applied one, once and in order. -/
structure Told (log : CommittedLog) (start : ℕ) (s : FsmCaller K) : Prop where
  term_eq : s.lastAppliedTerm = (log.entry s.lastAppliedIndex).term
  base_le : baseIndex start s.calls ≤ s.lastAppliedIndex
  entries : (sinceLoad s.calls).filterMap SmCall.entryIndex = (range' (baseIndex start s.calls + 1)
      (s.lastAppliedIndex - baseIndex start s.calls)).filter log.visible

/-- A call that is not the loading of a snapshot. -/
def NotLoad (call : SmCall K) : Prop := ∀ id, call ≠ .snapshotLoad id

variable {more : List (SmCall K)} {tasks : List FsmTask}

theorem sinceLoad_append {calls : List (SmCall K)} (h : ∀ call ∈ more, NotLoad call) :
    sinceLoad (calls ++ more) = sinceLoad calls ++ more := by
  unfold sinceLoad
  rw [foldl_append]
  generalize foldl _ [] calls = acc
  induction more generalizing acc with
  | nil => rw [append_nil, foldl_nil]
  | cons call more ih =>
    rw [foldl_cons, ih fun c hc => h c (mem_cons_of_mem _ hc)]
    have hcall := h call mem_cons_self
    cases call
    case snapshotLoad id => exact absurd rfl (hcall id)
    all_goals exact append_assoc ..

theorem baseIndex_append {calls : List (SmCall K)} (h : ∀ call ∈ more, NotLoad call) :
    baseIndex start (calls ++ more) = baseIndex start calls := by
  unfold baseIndex
  rw [foldl_append]
  refine foldlRecOn (motive := (· = foldl _ start calls)) more _ rfl fun base hbase call hcall => ?_
  cases call
  case snapshotLoad id => exact absurd rfl (h _ hcall id)
  all_goals exact hbase

theorem notLoad_callsAt {popped : PoppedClosures K} {index : ℕ} {call : SmCall K}
    (h : call ∈ callsAt log popped index) : NotLoad call := by
  rintro id rfl
  rcases mem_callsAt h with ⟨done, hcall⟩ | hcall | ⟨closure, hcall⟩ <;> cases hcall

theorem entries_callsAt (popped : PoppedClosures K) (index : ℕ) :
    (callsAt log popped index).filterMap SmCall.entryIndex =
      if log.visible index then [index] else [] := by
  have hdone : ((popped.doneAt index).toList.map (SmCall.done index)).filterMap
      SmCall.entryIndex = [] := by
    cases popped.doneAt index <;> rfl
  by_cases hdata : (log.entry index).type = .data
  · simp [callsAt, CommittedLog.visible, hdata, SmCall.entryIndex]
  · rw [callsAt_of_ne hdata, filterMap_append, hdone, append_nil]
    by_cases hconf : (log.entry index).type = .configuration false
    · simp [CommittedLog.visible, hconf, SmCall.entryIndex]
    · simp [CommittedLog.visible, hdata, hconf]

theorem entries_cover (popped : PoppedClosures K) (a m : ℕ) :
    (cover log popped a m).filterMap SmCall.entryIndex =
      (range' (a + 1) (m - (a + 1))).filter log.visible := by
  unfold cover
  generalize range' (a + 1) (m - (a + 1)) = indexes
  induction indexes with
  | nil => rfl
  | cons index indexes ih =>
    rw [flatMap_cons, filterMap_append, ih, entries_callsAt, filter_cons]
    split_ifs <;> rfl

variable {s : FsmCaller K}

theorem Told.init (bootstrap : ℕ) :
    Told log bootstrap (init ⟨bootstrap, (log.entry bootstrap).term⟩ : FsmCaller K) where
  term_eq := rfl
  base_le := le_rfl
  entries := by simp [FsmCaller.init, baseIndex, sinceLoad]

theorem Told.append (h : Told log start s)
    (hmore : ∀ call ∈ more, NotLoad call) (hentry : ∀ call ∈ more, call.entryIndex = none) :
    Told log start { s with calls := s.calls ++ more } := by
  refine ⟨h.term_eq, ?_, ?_⟩
  · rw [baseIndex_append hmore]
    exact h.base_le
  · rw [baseIndex_append hmore, sinceLoad_append hmore, filterMap_append, h.entries,
      filterMap_eq_nil_iff.mpr hentry, append_nil]

theorem Told.cover (h : Told log start s) {s' : FsmCaller K} {c : ℕ} {popped : PoppedClosures K}
    (hlt : s.lastAppliedIndex < c) (hlast : s'.lastAppliedIndex = c)
    (hterm : s'.lastAppliedTerm = (log.entry c).term)
    (hcalls : s'.calls = s.calls ++ cover log popped s.lastAppliedIndex (c + 1)) :
    Told log start s' := by
  have hmore : ∀ call ∈ Braft.cover log popped s.lastAppliedIndex (c + 1), NotLoad call := by
    intro call hcall
    obtain ⟨index, -, hcall⟩ := mem_flatMap.mp hcall
    exact notLoad_callsAt hcall
  have hbase := h.base_le
  refine ⟨by rw [hterm, hlast], ?_, ?_⟩
  · rw [hcalls, baseIndex_append hmore, hlast]
    exact hbase.trans hlt.le
  · rw [hcalls, baseIndex_append hmore, sinceLoad_append hmore, filterMap_append, h.entries,
      entries_cover, ← filter_append, hlast]
    have hsplit : c - baseIndex start s.calls =
        (s.lastAppliedIndex - baseIndex start s.calls) + (c + 1 - (s.lastAppliedIndex + 1)) := by
      omega
    have hnext : baseIndex start s.calls + 1 + (s.lastAppliedIndex - baseIndex start s.calls) =
        s.lastAppliedIndex + 1 := by omega
    rw [hsplit, ← range'_append_1, hnext]

theorem Told.load (id : LogId) (hterm : id.term = (log.entry id.index).term) (joint : Bool)
    (appliedId : LogId) (error : Option FsmError) (calls : List (SmCall K)) :
    Told log start ⟨id.index, id.term, error, appliedId,
      calls ++ [.snapshotLoad id] ++
        (if joint then [] else [.snapshotConfiguration id.index])⟩ := by
  have hloaded : Told log start ⟨id.index, id.term, error, appliedId,
      calls ++ [.snapshotLoad id]⟩ := by
    have hbase : baseIndex start (calls ++ [.snapshotLoad id]) = id.index := by
      rw [baseIndex, foldl_append, foldl_cons, foldl_nil]
    have hsince : sinceLoad (calls ++ [.snapshotLoad id]) = [] := by
      rw [sinceLoad, foldl_append, foldl_cons, foldl_nil]
    refine ⟨hterm, hbase.le, ?_⟩
    rw [hbase, hsince, Nat.sub_self]
    rfl
  refine hloaded.append ?_ ?_ <;> cases joint <;> simp [NotLoad, SmCall.entryIndex]

theorem error_of_setError {e : FsmError} : (s.setError e).error ≠ none := by
  unfold setError
  cases s.error <;> exact some_ne_none _

theorem told_doSnapshotLoad {result : LoadResult} (h : Told log start s)
    (hok : (s.doSnapshotLoad log result).error = none) :
    Told log start (s.doSnapshotLoad log result) ∧
      s.lastAppliedIndex ≤ (s.doSnapshotLoad log result).lastAppliedIndex := by
  cases result with
  | noReader => exact ⟨h, le_rfl⟩
  | metaFailed eio =>
    cases eio with
    | true => exact absurd hok error_of_setError
    | false => exact ⟨h, le_rfl⟩
  | read index joint loads =>
    unfold doSnapshotLoad at hok ⊢
    dsimp only at hok ⊢
    by_cases hstale : LogId.le ⟨s.lastAppliedIndex, s.lastAppliedTerm⟩
        ⟨index, (log.entry index).term⟩
    · rw [if_pos hstale] at hok ⊢
      cases loads with
      | false => exact absurd hok error_of_setError
      | true =>
        refine ⟨Told.load ⟨index, (log.entry index).term⟩ rfl joint s.appliedId s.error s.calls, ?_⟩
        -- terms do not decrease, so an older snapshot is stale
        by_contra hlt
        have hmono := log.mono index s.lastAppliedIndex (Nat.le_of_lt (Nat.lt_of_not_le hlt))
        rw [← h.term_eq] at hmono
        rcases hstale with hterm | ⟨-, hindex⟩
        · exact absurd hmono (not_le.mpr hterm)
        · exact hlt hindex
    · rw [if_neg hstale]
      exact ⟨h, le_rfl⟩

theorem error_handle {task : FsmTask} (hok : (s.handle log task).error = none) :
    s.error = none := by
  cases herror : s.error with
  | none => rfl
  | some e => cases task <;> simp [handle, herror, setError] at hok

theorem told_handle {task : FsmTask} (h : Told log start s)
    (hok : (s.handle log task).error = none) :
    Told log start (s.handle log task) ∧
      s.lastAppliedIndex ≤ (s.handle log task).lastAppliedIndex := by
  have herror := error_handle hok
  have hcall : ∀ call : SmCall K, NotLoad call → call.entryIndex = none →
      Told log start { s with calls := s.calls ++ [call] } := fun call hnot hentry =>
    h.append (fun c hc => mem_singleton.mp hc ▸ hnot) fun c hc => mem_singleton.mp hc ▸ hentry
  cases task with
  | committed index => exact ⟨h, le_rfl⟩
  | snapshotSave writer =>
    unfold handle
    dsimp only
    rw [if_pos (by rw [herror]; rfl), doSnapshotSave]
    split_ifs
    · exact ⟨hcall _ nofun rfl, le_rfl⟩
    · exact ⟨h, le_rfl⟩
  | snapshotLoad result =>
    unfold handle at hok ⊢
    dsimp only at hok ⊢
    rw [if_pos (by rw [herror]; rfl)] at hok ⊢
    exact told_doSnapshotLoad h hok
  | leaderStop | leaderStart | startFollowing | stopFollowing => exact ⟨hcall _ nofun rfl, le_rfl⟩
  | error e => exact absurd hok error_of_setError

/-! ## Batches -/

variable {batchSize : ℕ} {acc : RunState K}

theorem told_flush (h : Told log start acc.st.2) (hok : (flush log react acc).st.2.error = none) :
    Told log start (flush log react acc).st.2 ∧
      acc.st.2.lastAppliedIndex ≤ (flush log react acc).st.2.lastAppliedIndex ∧
      ∀ m ∈ acc.maxCommittedIndex, m ≤ (flush log react acc).st.2.lastAppliedIndex := by
  unfold flush at hok ⊢
  cases hmax : acc.maxCommittedIndex with
  | none => exact ⟨h, le_rfl, nofun⟩
  | some c =>
    rw [hmax] at hok
    dsimp only at hok ⊢
    obtain ⟨-, ⟨hle, hsame⟩ | ⟨hlt, hlast, hterm, popped, hcalls⟩⟩ := doCommitted_of_ok hok
    · rw [hsame]
      exact ⟨h, le_rfl, fun m hm => mem_some_iff.mp hm ▸ hle⟩
    · refine ⟨h.cover hlt hlast hterm hcalls, ?_, fun m hm => ?_⟩
      · rw [hlast]
        exact hlt.le
      · rw [hlast, mem_some_iff.mp hm]

theorem error_flush (hok : (flush log react acc).st.2.error = none) : acc.st.2.error = none := by
  unfold flush at hok
  split at hok
  · exact hok
  · exact (doCommitted_of_ok hok).1

variable {task : FsmTask} {tasks : List FsmTask} {records : ℕ} {max : Option ℕ}

theorem runTask_of_ne (h : ∀ index, task ≠ .committed index) :
    runTask log react batchSize acc task = { flush log react acc with
        st := ((flush log react acc).st.1, (flush log react acc).st.2.handle log task) } := by
  cases task
  case committed index => exact absurd rfl (h index)
  all_goals rfl

theorem error_runTask (hok : (runTask log react batchSize acc task).st.2.error = none) :
    acc.st.2.error = none := by
  by_cases hcommit : ∃ index, task = .committed index
  · obtain ⟨index, rfl⟩ := hcommit
    unfold runTask at hok
    dsimp only at hok
    split_ifs at hok
    · exact hok
    · exact hok
    · exact error_flush hok
  · rw [runTask_of_ne (not_exists.mp hcommit)] at hok
    exact error_flush (error_handle hok)

theorem error_runTasks (hok : (tasks.foldl (runTask log react batchSize) acc).st.2.error = none) :
    acc.st.2.error = none := by
  induction tasks generalizing acc with
  | nil => exact hok
  | cons task tasks ih => exact error_runTask (ih hok)

/-- In every stretch of commits, at most `batchSize` of them are above all earlier ones of the
stretch. `records` and `max` are those of the stretch so far. -/
def FitsBatch (batchSize : ℕ) : ℕ → Option ℕ → List FsmTask → Prop
  | _, _, [] => True
  | records, max, .committed index :: tasks =>
    if Raises max index then
      records < batchSize ∧ FitsBatch batchSize (records + 1) (some index) tasks
    else FitsBatch batchSize records max tasks
  | _, _, _ :: tasks => FitsBatch batchSize 0 none tasks

theorem fitsBatch_of_ne (h : ∀ index, task ≠ .committed index)
    (hfits : FitsBatch batchSize records max (task :: tasks)) :
    FitsBatch batchSize 0 none tasks := by
  cases task
  case committed index => exact absurd rfl (h index)
  all_goals exact hfits

/-- Either the batch holds the stretch of commits so far, or it was full once and the maximum of the
stretch has been applied. -/
structure InBatch (batchSize records : ℕ) (max : Option ℕ) (acc : RunState K) : Prop where
  idle : acc.maxCommittedIndex = none → acc.counter = 0
  stretch : acc.maxCommittedIndex = max ∧ acc.counter = records ∨
    batchSize ≤ records ∧ ∀ m ∈ max, m ≤ acc.st.2.lastAppliedIndex

/-- A commit that is applied, or that the batch holds. -/
def Seen (acc : RunState K) (index : ℕ) : Prop :=
  index ≤ acc.st.2.lastAppliedIndex ∨ ∃ m ∈ acc.maxCommittedIndex, index ≤ m

theorem flush_idle (hidle : acc.maxCommittedIndex = none → acc.counter = 0) :
    (flush log react acc).maxCommittedIndex = none ∧ (flush log react acc).counter = 0 := by
  unfold flush
  cases hmax : acc.maxCommittedIndex with
  | none => exact ⟨hmax, hidle hmax⟩
  | some m => exact ⟨rfl, rfl⟩

theorem Seen.flush {index : ℕ} (h : Seen acc index) (htold : Told log start acc.st.2)
    (hok : (flush log react acc).st.2.error = none) :
    index ≤ (flush log react acc).st.2.lastAppliedIndex := by
  obtain ⟨-, hle, hmax⟩ := told_flush htold hok
  rcases h with h | ⟨m, hm, h⟩
  · exact h.trans hle
  · exact h.trans (hmax m hm)

theorem not_raises {index : ℕ} : ¬ Raises max index ↔ ∃ m ∈ max, index ≤ m := by
  simp [Raises]

theorem fitsBatch_committed {index records : ℕ} {max : Option ℕ}
    (h : FitsBatch batchSize records max (.committed index :: tasks)) :
    Raises max index ∧ records < batchSize ∧ FitsBatch batchSize (records + 1) (some index) tasks ∨
      (∃ m ∈ max, index ≤ m) ∧ FitsBatch batchSize records max tasks := by
  unfold FitsBatch at h
  split_ifs at h with hraises
  · exact .inl ⟨hraises, h⟩
  · exact .inr ⟨not_raises.mp hraises, h⟩

theorem runTask_committed {index records : ℕ} {max : Option ℕ}
    (htold : Told log start acc.st.2) (hin : InBatch batchSize records max acc)
    (hfits : FitsBatch batchSize records max (.committed index :: tasks))
    (hok : (runTask log react batchSize acc (.committed index)).st.2.error = none) :
    let acc' := runTask log react batchSize acc (.committed index)
    Told log start acc'.st.2 ∧ Seen acc' index ∧ (∀ c, Seen acc c → Seen acc' c) ∧
      ∃ records' max', InBatch batchSize records' max' acc' ∧
        FitsBatch batchSize records' max' tasks := by
  have hfits := fitsBatch_committed hfits
  unfold runTask at hok ⊢
  dsimp only at hok ⊢
  by_cases hroom : acc.counter < batchSize
  · rw [if_pos hroom]
    by_cases hraises : Raises acc.maxCommittedIndex index
    · rw [if_pos hraises]
      refine ⟨htold, .inr ⟨index, rfl, le_rfl⟩, ?_, ?_⟩
      · rintro c (hc | ⟨m, hm, hc⟩)
        · exact .inl hc
        · exact .inr ⟨index, rfl, hc.trans (hraises m hm).le⟩
      · rcases hin.stretch with ⟨hmax, hcounter⟩ | ⟨hfull, happlied⟩
        · rcases hfits with ⟨-, -, hfits⟩ | ⟨⟨m, hm, hle⟩, -⟩
          · exact ⟨_, _, ⟨fun hnone => (some_ne_none _ hnone).elim,
              .inl ⟨rfl, congrArg (· + 1) hcounter⟩⟩, hfits⟩
          · exact absurd (hraises m (hmax ▸ hm)) (not_lt.mpr hle)
        · rcases hfits with ⟨-, hlt, -⟩ | ⟨-, hfits⟩
          · exact absurd hlt (not_lt.mpr hfull)
          · exact ⟨_, _, ⟨fun hnone => (some_ne_none _ hnone).elim, .inr ⟨hfull, happlied⟩⟩, hfits⟩
    · rw [if_neg hraises]
      refine ⟨htold, .inr (not_raises.mp hraises), fun c hc => hc, ?_⟩
      rcases hfits with ⟨hraises', hlt, -⟩ | ⟨-, hfits⟩
      · rcases hin.stretch with ⟨hmax, -⟩ | ⟨hfull, -⟩
        · exact absurd (hmax ▸ hraises') hraises
        · exact absurd hlt (not_lt.mpr hfull)
      · exact ⟨_, _, hin, hfits⟩
  · -- the batch is full, and the commit is not above those in it
    rw [if_neg hroom] at hok ⊢
    obtain ⟨htold', hle, happlied⟩ := told_flush htold hok
    have hfull : batchSize ≤ records := by
      rcases hin.stretch with ⟨-, hcounter⟩ | ⟨hfull, -⟩
      · omega
      · exact hfull
    have hmax : ∀ m ∈ max, m ≤ (flush log react acc).st.2.lastAppliedIndex := by
      rcases hin.stretch with ⟨hmax, -⟩ | ⟨-, hmax⟩
      · exact fun m hm => happlied m (hmax ▸ hm)
      · exact fun m hm => (hmax m hm).trans hle
    rcases hfits with ⟨-, hlt, -⟩ | ⟨⟨m, hm, hindex⟩, hfits⟩
    · exact absurd hlt (not_lt.mpr hfull)
    · obtain ⟨-, hzero⟩ := flush_idle hin.idle
      exact ⟨htold', .inl (hindex.trans (hmax m hm)), fun c hc => .inl (hc.flush htold hok),
        _, _, ⟨fun _ => hzero, .inr ⟨hfull, hmax⟩⟩, hfits⟩

theorem runTask_spec (htold : Told log start acc.st.2) (hin : InBatch batchSize records max acc)
    (hfits : FitsBatch batchSize records max (task :: tasks))
    (hok : (runTask log react batchSize acc task).st.2.error = none) :
    let acc' := runTask log react batchSize acc task
    Told log start acc'.st.2 ∧ (∀ c, .committed c = task → Seen acc' c) ∧
      (∀ c, Seen acc c → Seen acc' c) ∧ ∃ records' max', InBatch batchSize records' max' acc' ∧
        FitsBatch batchSize records' max' tasks := by
  by_cases hcommit : ∃ index, task = .committed index
  · obtain ⟨index, rfl⟩ := hcommit
    obtain ⟨htold', hseen, hrest⟩ := runTask_committed htold hin hfits hok
    exact ⟨htold', fun c hc => FsmTask.committed.inj hc ▸ hseen, hrest⟩
  · have hother := not_exists.mp hcommit
    rw [runTask_of_ne hother] at hok ⊢
    have herror := error_handle hok
    obtain ⟨htold', -, -⟩ := told_flush htold herror
    obtain ⟨htold'', hle⟩ := told_handle htold' hok
    obtain ⟨hnone, hzero⟩ := flush_idle hin.idle
    exact ⟨htold'', fun c hc => absurd hc.symm (hother c),
      fun c hc => .inl ((hc.flush htold herror).trans hle), 0, none,
      ⟨fun _ => hzero, .inl ⟨hnone, hzero⟩⟩, fitsBatch_of_ne hother hfits⟩

theorem told_runTasks (htold : Told log start acc.st.2) (hin : InBatch batchSize records max acc)
    (hfits : FitsBatch batchSize records max tasks)
    (hok : (flush log react (tasks.foldl (runTask log react batchSize) acc)).st.2.error = none) :
    let final := (flush log react (tasks.foldl (runTask log react batchSize) acc)).st.2
    Told log start final ∧ (∀ c, Seen acc c → c ≤ final.lastAppliedIndex) ∧
      ∀ c, .committed c ∈ tasks → c ≤ final.lastAppliedIndex := by
  induction tasks generalizing acc records max with
  | nil => exact ⟨(told_flush htold hok).1, fun c hc => hc.flush htold hok, nofun⟩
  | cons task tasks ih =>
    have hnext : (runTask log react batchSize acc task).st.2.error = none :=
      error_runTasks (error_flush hok)
    obtain ⟨htold', hseen, hkeep, records', max', hin', hfits'⟩ :=
      runTask_spec htold hin hfits hnext
    obtain ⟨hfinal, hbefore, hafter⟩ := ih htold' hin' hfits' hok
    refine ⟨hfinal, fun c hc => hbefore c (hkeep c hc), fun c hc => ?_⟩
    rcases mem_cons.mp hc with heq | hc
    · exact hbefore c (hseen c heq)
    · exact hafter c hc

variable {st : ClosureQueue K × FsmCaller K}

theorem told_run (htold : Told log start st.2) (hfits : FitsBatch batchSize 0 none tasks)
    (hok : (run log react batchSize st tasks).2.error = none) :
    Told log start (run log react batchSize st tasks).2 ∧
      st.2.lastAppliedIndex ≤ (run log react batchSize st tasks).2.lastAppliedIndex ∧
      ∀ c, .committed c ∈ tasks → c ≤ (run log react batchSize st tasks).2.lastAppliedIndex := by
  have hin : InBatch batchSize 0 none (⟨st, none, 0⟩ : RunState K) :=
    ⟨fun _ => rfl, .inl ⟨rfl, rfl⟩⟩
  obtain ⟨hfinal, hbefore, hafter⟩ := told_runTasks htold hin hfits hok
  exact ⟨hfinal, hbefore _ (.inl le_rfl), hafter⟩

theorem error_runAll {calls : List (List FsmTask)}
    (hok : (runAll log react batchSize st calls).2.error = none) : st.2.error = none := by
  induction calls generalizing st with
  | nil => exact hok
  | cons tasks calls ih =>
    have hrun : (run log react batchSize st tasks).2.error = none := ih hok
    exact error_runTasks (error_flush hrun)

theorem told_runAll {calls : List (List FsmTask)} (htold : Told log start st.2)
    (hfits : ∀ tasks ∈ calls, FitsBatch batchSize 0 none tasks)
    (hok : (runAll log react batchSize st calls).2.error = none) :
    Told log start (runAll log react batchSize st calls).2 ∧
      st.2.lastAppliedIndex ≤ (runAll log react batchSize st calls).2.lastAppliedIndex ∧
      ∀ c, .committed c ∈ calls.flatten →
        c ≤ (runAll log react batchSize st calls).2.lastAppliedIndex := by
  induction calls generalizing st with
  | nil => exact ⟨htold, le_rfl, nofun⟩
  | cons tasks calls ih =>
    obtain ⟨htold', hle, happlied⟩ := told_run htold (hfits tasks mem_cons_self) (error_runAll hok)
    obtain ⟨hfinal, hle', happlied'⟩ := ih htold' (fun t ht => hfits t (mem_cons_of_mem _ ht)) hok
    refine ⟨hfinal, hle.trans hle', fun c hc => ?_⟩
    rcases mem_append.mp (flatten_cons ▸ hc) with hc | hc
    · exact (happlied c hc).trans hle'
    · exact happlied' c hc

/-- **No commit is lost while the batches are large enough.** However the tasks are grouped into
calls of `run`, and whatever else is among them: if in each call no stretch of commits raises its
maximum more often than a batch allows, and no error occurs, then all committed indexes are applied,
and the state machine was told each entry that it is to see once, in order, from its start or from
the last snapshot on. -/
theorem commits_applied (bootstrap : ℕ) (cq : ClosureQueue K) (calls : List (List FsmTask))
    (hfits : ∀ tasks ∈ calls, FitsBatch batchSize 0 none tasks)
    (hok : (runAll log react batchSize
      (cq, init ⟨bootstrap, (log.entry bootstrap).term⟩) calls).2.error = none) :
    let final := (runAll log react batchSize
      (cq, init ⟨bootstrap, (log.entry bootstrap).term⟩) calls).2
    (∀ c, .committed c ∈ calls.flatten → c ≤ final.lastAppliedIndex) ∧
      baseIndex bootstrap final.calls ≤ final.lastAppliedIndex ∧
      (sinceLoad final.calls).filterMap SmCall.entryIndex =
        (range' (baseIndex bootstrap final.calls + 1)
          (final.lastAppliedIndex - baseIndex bootstrap final.calls)).filter log.visible := by
  obtain ⟨htold, -, happlied⟩ := told_runAll (Told.init bootstrap) hfits hok
  exact ⟨happlied, htold.base_le, htold.entries⟩

end Calls

namespace Sample

/-- Entries with data, all of one term and all in the log. -/
def log : CommittedLog := ⟨fun _ => ⟨.data, 1⟩, fun _ => true, fun _ _ _ => le_rfl⟩

/-- A state machine that goes through all entries that it is given. -/
def react : ℕ → Reaction := fun _ => ⟨10, none⟩

def start : ClosureQueue Unit × FsmCaller Unit := (.init, FsmCaller.init ⟨0, 1⟩)

/-- Commits around a snapshot that is saved, and after one that is loaded. -/
def calls : List (List FsmTask) :=
  [[.committed 1, .committed 2, .committed 1, .snapshotSave true, .committed 3],
   [.snapshotLoad (.read 5 false true), .committed 7, .committed 6]]

end Sample

open Sample

theorem commits_applied_snapshots :
    (runAll Sample.log Sample.react 2 Sample.start Sample.calls).2.lastAppliedIndex = 7 ∧
      (∀ c, .committed c ∈ Sample.calls.flatten → c ≤ 7) ∧
      (sinceLoad (runAll log react 2 start
        Sample.calls).2.calls).filterMap SmCall.entryIndex = [6, 7] := by
  have hlast : (runAll log react 2 start Sample.calls).2.lastAppliedIndex = 7 := rfl
  have hfits : ∀ tasks ∈ Sample.calls, FitsBatch 2 0 none tasks := by
    simp [Sample.calls, FitsBatch, Raises]
  have hok : (runAll log react 2 start Sample.calls).2.error = none := rfl
  obtain ⟨happlied, -, hentries⟩ := commits_applied 0 ClosureQueue.init Sample.calls hfits hok
  exact ⟨hlast, fun c hc => hlast ▸ happlied c hc, hentries⟩

/-- **A commit is lost.** The batch size is two; of three commits in one call the third finds the
batch full. No error occurs and the log has the entry, but the last index is not applied. -/
theorem commit_lost : let final := (runAll log react 2 start
      [[.committed 1, .committed 2, .committed 3]]).2
    final.error = none ∧ log.holds 3 ∧ final.lastAppliedIndex = 2 ∧
      final.calls = [.apply 1 none, .apply 2 none] := by
  exact ⟨rfl, rfl, rfl, rfl⟩

end FsmCaller

end Braft
