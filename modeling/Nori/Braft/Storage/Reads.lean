import Nori.Braft.Storage.DiskThread
import Nori.Transition.System

/-!
# The log manager reads what was last written

Runs of the log manager, with its disk thread and the threads that clear the memory as steps of
their own. They are followed by a record of what was appended, and of what the callers of
`last_log_id(true)` were told.

The id on disk never goes down. Where entries are replaced by entries with lower ids, this breaks:
the new entries leave the memory before they are written, and the id on disk is told as the last
one.
-/

namespace Braft.Storage

open Container Transition ListLog Option List LogId

/-! ## Runs -/

section Model

variable {D : Type}

/-- Entries with the indexes from `first` on, from their terms and data. -/
def numbered (first : ℕ) (entries : List (ℕ × D)) : List (LogEntry D) :=
  entries.mapIdx fun i x => ⟨⟨first + i, x.1⟩, x.2⟩

/-- The entry most recently appended at an index. -/
def latest (appended : List (LogEntry D)) (index : ℕ) : Option (LogEntry D) :=
  appended.reverse.find? fun e => e.id.index = index

/-- What a node has in its log storage when it starts, and the snapshot that it has loaded. They
pass `check_consistency`. -/
structure Start (D : Type) where
  storage : ListLog (LogEntry D)
  snapshot : LogId
  first_pos : 0 < storage.first
  indexed : Indexed storage.first storage.entries
  term_pos : ∀ e ∈ storage.entries, 0 < e.id.term
  first_le : storage.first ≤ snapshot.index + 1
  snapshot_lt : snapshot.index < storage.next
  snapshot_eq : ∀ e, storage.get snapshot.index = some e → e.id = snapshot

/-- The log manager of a node that starts. -/
def LogManager.start {ι : Type} (s : Start D) : LogManager D ι where
  storage := s.storage
  firstLogIndex := s.storage.first
  lastLogIndex := s.storage.next - 1
  logsInMemory := []
  appliedId := s.snapshot
  diskId := ⟨s.storage.next - 1,
    ((s.storage.get (s.storage.next - 1)).map fun e => e.id.term).getD 0⟩
  lastSnapshotId := s.snapshot
  virtualFirstLogId := if s.snapshot.index + 1 = s.storage.first then s.snapshot else ⟨0, 0⟩
  diskQueue := []
  batch := none
  clearing := []

/-- A log manager, with the entries that were appended, the ids of these and of the snapshots, and
what the callers of `last_log_id(true)` were told. A caller is named by the last id of the moment
when it asks. -/
structure Trace (D : Type) where
  lm : LogManager D LogId
  appended : List (LogEntry D)
  seen : List LogId
  answered : List (LogId × LogId)

inductive ManagerEvent (D : Type)
  | appendTasks (term : ℕ) (data : List D)
  | appendEntries (prevLogIndex : ℕ) (entries : List (ℕ × D))
  | setSnapshot (id : LogId)
  | clearBufferedLogs
  | setAppliedId (id : LogId)
  | clearMemoryLogs (thread : ℕ)
  | requestLastLogId
  | startBatch
  | iterate
  | flush
  | endBatch

namespace Trace

def init (s : Start D) : Trace D where
  lm := .start s
  appended := s.storage.entries
  seen := s.snapshot :: s.storage.entries.map LogEntry.id
  answered := []

/-- The id of the entry last appended at the last index; that of the snapshot if the log is
empty. -/
def lastId (t : Trace D) : LogId :=
  if t.lm.firstLogIndex ≤ t.lm.lastLogIndex then
    ((latest t.appended t.lm.lastLogIndex).map LogEntry.id).getD t.lm.lastSnapshotId
  else t.lm.lastSnapshotId

def append (t : Trace D) (entries : List (LogEntry D)) : Trace D :=
  let r := t.lm.appendEntries entries
  { t with
    lm := r.1
    appended := t.appended ++ r.2
    seen := t.seen ++ r.2.map LogEntry.id }

def step (lim : AppendBatcher.Limits D) (t : Trace D) : ManagerEvent D → Option (Trace D)
  | .appendTasks term data => some (t.append (data.map fun d => ⟨⟨0, term⟩, d⟩))
  | .appendEntries prevLogIndex entries => some (t.append (numbered (prevLogIndex + 1) entries))
  | .setSnapshot id => some { t with lm := t.lm.setSnapshot id, seen := t.seen ++ [id] }
  | .clearBufferedLogs => some { t with lm := t.lm.clearBufferedLogs }
  | .setAppliedId id => some { t with lm := t.lm.setAppliedId id }
  | .clearMemoryLogs thread => (t.lm.clearMemoryLogs thread).map fun lm => { t with lm }
  | .requestLastLogId =>
    let r := t.lm.requestLastLogId t.lastId
    some { t with
      lm := r.1
      answered := t.answered ++ (r.2.map fun y => (t.lastId, y)).toList }
  | .startBatch => t.lm.startBatch.map fun lm => { t with lm }
  | .iterate =>
    (t.lm.iterate lim).map fun r => { t with lm := r.1, answered := t.answered ++ r.2.toList }
  | .flush => t.lm.flush.map fun lm => { t with lm }
  | .endBatch => t.lm.endBatch.map fun lm => { t with lm }

def system (lim : AppendBatcher.Limits D) (s : Start D) : System (Trace D) (ManagerEvent D) :=
  System.ofStep (init s) (step lim)

/-! ## The condition -/

/-- The id is above those of all entries and snapshots before. -/
def Fresh (t : Trace D) (id : LogId) : Prop := 0 < id.term ∧ ∀ x ∈ t.seen, x.lt id

/-- The entry would come after what was applied and what was dropped, with a fresh id. -/
def Above (t : Trace D) (id : LogId) : Prop :=
  t.Fresh id ∧ t.lm.appliedId.index < id.index ∧ t.lm.firstLogIndex ≤ id.index

/-- The log has the entry, or a snapshot ends with it. -/
def Knows (t : Trace D) (id : LogId) : Prop :=
  id = t.lm.lastSnapshotId ∨ id = t.lm.virtualFirstLogId ∨
    t.lm.firstLogIndex ≤ id.index ∧ id.index ≤ t.lm.lastLogIndex ∧
      (latest t.appended id.index).map LogEntry.id = some id

/-- Ids only rise: an entry or a snapshot that the log does not have comes with an id above all
those before, and after what was applied and dropped; applied ids and snapshots are ordered as their
indexes are. -/
def Orderly (t : Trace D) : ManagerEvent D → Prop
  | .appendTasks term data => data = [] ∨ t.Fresh ⟨t.lm.lastLogIndex + 1, term⟩
  | .appendEntries prevLogIndex entries =>
    entries.Pairwise (fun x y => x.1 ≤ y.1) ∧
      (t.lm.appliedId.index < prevLogIndex + entries.length →
        ∀ e ∈ numbered (prevLogIndex + 1) entries, t.Knows e.id ∨ t.Above e.id)
  | .setSnapshot id =>
    t.lm.lastSnapshotId.index < id.index →
      (t.Knows id ∨ t.Above id) ∧ (id.le t.lm.appliedId → id.index ≤ t.lm.appliedId.index)
  | .setAppliedId id => t.lm.appliedId.le id → t.lm.appliedId.index ≤ id.index
  | _ => True

instance (t : Trace D) (id : LogId) : Decidable (t.Fresh id) := inferInstanceAs (Decidable (_ ∧ _))

instance (t : Trace D) (id : LogId) : Decidable (t.Above id) := inferInstanceAs (Decidable (_ ∧ _))

instance (t : Trace D) (id : LogId) : Decidable (t.Knows id) := inferInstanceAs (Decidable (_ ∨ _))

instance (t : Trace D) (ev : ManagerEvent D) : Decidable (t.Orderly ev) :=
  match ev with
  | .appendTasks _ data =>
    have : Decidable (data = []) := decidable_of_iff (data.length = 0) length_eq_zero_iff
    inferInstanceAs (Decidable (_ ∨ _))
  | .appendEntries _ _ => inferInstanceAs (Decidable (_ ∧ _))
  | .setSnapshot _ => inferInstanceAs (Decidable (_ → _))
  | .setAppliedId _ => inferInstanceAs (Decidable (_ → _))
  | .clearBufferedLogs | .clearMemoryLogs _ | .requestLastLogId | .startBatch | .iterate | .flush
  | .endBatch => .isTrue trivial

end Trace

end Model

/-! ## The record -/

section Record

variable {D : Type} {appended es : List (LogEntry D)} {f i : ℕ}

theorem latest_append (appended es : List (LogEntry D)) (i : ℕ) :
    latest (appended ++ es) i = (latest es i).or (latest appended i) := by
  unfold latest
  rw [reverse_append, find?_append]

theorem latest_of_lt (h : Indexed f es) (hi : i < f) : latest es i = none := by
  refine find?_eq_none.mpr fun e he => ?_
  have := (h.getElem?_of_mem (mem_reverse.mp he)).1
  simp only [decide_eq_true_eq]
  omega

theorem latest_of_le (h : Indexed f es) {e : LogEntry D} (hi : f ≤ i) (he : es[i - f]? = some e) :
    latest es i = some e := by
  have hindex := h _ e he
  have hmem := mem_of_getElem? he
  cases hlatest : latest es i with
  | none =>
    have := find?_eq_none.mp hlatest e (mem_reverse.mpr hmem)
    simp only [decide_eq_true_eq] at this
    omega
  | some e' =>
    have hindex' : e'.id.index = i := by simpa using find?_some hlatest
    have hmem' := mem_reverse.mp (mem_of_find?_eq_some hlatest)
    have hget := (h.getElem?_of_mem hmem').2
    rw [hindex', he] at hget
    exact hget.symm

theorem indexed_numbered (first : ℕ) (entries : List (ℕ × D)) :
    Indexed first (numbered first entries) := by
  intro j e he
  unfold numbered at he
  rw [getElem?_mapIdx] at he
  obtain ⟨x, -, rfl⟩ := map_eq_some_iff.mp he
  rfl

theorem length_numbered (first : ℕ) (entries : List (ℕ × D)) :
    (numbered first entries).length = entries.length := length_mapIdx

theorem pairwise_numbered (first : ℕ) {entries : List (ℕ × D)}
    (h : entries.Pairwise fun x y => x.1 ≤ y.1) :
    (numbered first entries).Pairwise fun e e' => e.id.lt e'.id := by
  rw [pairwise_iff_getElem] at h ⊢
  intro i j hi hj hij
  rw [length_numbered] at hi hj
  have := h i j hi hj hij
  simp only [numbered, getElem_mapIdx, lt]
  omega

end Record

/-! ## The invariant -/

/-- New entries at the end, in memory and for the disk thread. -/
def LogManager.extend {D : Type} (es : List (LogEntry D)) (lm : LogManager D LogId) :
    LogManager D LogId :=
  { lm with
    logsInMemory := lm.logsInMemory ++ es
    lastLogIndex := lm.lastLogIndex + es.length
    diskQueue := lm.diskQueue ++ [.stable es] }

namespace Trace

variable {D : Type} {t : Trace D}

/-- The id is not above those seen. Term `0` stands for an unknown term. -/
def Bounded (seen : List LogId) (x : LogId) : Prop := x.term = 0 ∨ x ∈ seen

theorem Bounded.mono {seen seen' : List LogId} {x : LogId} (h : Bounded seen x)
    (hsub : seen ⊆ seen') : Bounded seen' x := h.imp_right fun hx => hsub hx

theorem Fresh.lt {id x : LogId} (h : t.Fresh id) (hx : Bounded t.seen x) : x.lt id := by
  rcases hx with hx | hx
  · have := h.1
    exact .inl (by omega)
  · exact h.2 x hx

/-- Memory, storage and queue together hold the log, and it is what was last appended. -/
structure Held (t : Trace D) : Prop where
  logged : Logged t.lm.settled t.lm.unwritten t.lm.logsInMemory
  first_eq : t.lm.settled.first = t.lm.firstLogIndex
  next_eq : t.lm.settled.next = t.lm.lastLogIndex + 1
  latest : ∀ i e, t.lm.settled.get i = some e → latest t.appended i = some e
  seen : ∀ e ∈ t.lm.settled.entries, e.id ∈ t.seen
  queued : t.lm.Queued
  bounded : ∀ x ∈ t.lm.ids, Bounded t.seen x
  answered : ∀ p ∈ t.answered, p.2 = p.1

/-- Where the snapshots lie. -/
structure Snapped (t : Trace D) : Prop where
  bounded : Bounded t.seen t.lm.lastSnapshotId
  virtual_bounded : Bounded t.seen t.lm.virtualFirstLogId
  virtual_lt : t.lm.virtualFirstLogId.index < t.lm.firstLogIndex
  first_le : t.lm.firstLogIndex ≤ t.lm.lastSnapshotId.index + 1
  le_last : t.lm.lastSnapshotId.index ≤ t.lm.lastLogIndex
  le_applied : t.lm.lastSnapshotId.index ≤ t.lm.appliedId.index
  eq_of_get : ∀ e, t.lm.settled.get t.lm.lastSnapshotId.index = some e → e.id = t.lm.lastSnapshotId
  virtual_eq : t.lm.virtualFirstLogId.index = t.lm.lastSnapshotId.index →
    t.lm.virtualFirstLogId = t.lm.lastSnapshotId

/-- The log ends with a snapshot, or the disk thread will have the id of its last entry. -/
def Ends (t : Trace D) : Prop :=
  t.lm.lastLogIndex = t.lm.lastSnapshotId.index ∨
    ∃ e, t.lm.settled.get t.lm.lastLogIndex = some e ∧ t.lm.endId = some e.id

structure Inv (t : Trace D) : Prop where
  held : t.Held
  snapped : t.Snapped
  ends : t.Ends

/-! ## Reading -/

variable {e : LogEntry D} {i : ℕ}

theorem Held.range (h : t.Held) (he : t.lm.settled.get i = some e) :
    t.lm.firstLogIndex ≤ i ∧ i ≤ t.lm.lastLogIndex := by
  have := range_of_get he
  rw [h.first_eq, h.next_eq] at this
  omega

theorem Held.exists_get (h : t.Held) (hfirst : t.lm.firstLogIndex ≤ i)
    (hlast : i ≤ t.lm.lastLogIndex) : ∃ e, t.lm.settled.get i = some e := by
  refine ListLog.exists_get (h.first_eq ▸ hfirst) ?_
  rw [h.next_eq]
  omega

theorem Held.getTerm (h : t.Held) (hs : t.Snapped)
    (he : t.lm.settled.get i = some e) : t.lm.unsafeGetTerm i = e.id.term :=
  LogManager.unsafeGetTerm_eq h.logged h.first_eq h.next_eq hs.virtual_lt hs.eq_of_get he

theorem Held.bounded_getTerm (h : t.Held) (hs : t.Snapped) (i : ℕ) :
    Bounded t.seen ⟨i, t.lm.unsafeGetTerm i⟩ := by
  by_cases hrange : t.lm.firstLogIndex ≤ i ∧ i ≤ t.lm.lastLogIndex
  · obtain ⟨e, he⟩ := h.exists_get hrange.1 hrange.2
    rw [h.getTerm hs he, ← h.logged.index_of_get he]
    exact .inr (h.seen e (mem_of_get he))
  · unfold LogManager.unsafeGetTerm
    split_ifs with hzero hvirtual hsnapshot hout
    · exact .inl rfl
    · rw [hvirtual]
      exact hs.virtual_bounded
    · rw [hsnapshot]
      exact hs.bounded
    · exact .inl rfl
    · omega

theorem Inv.lastId_eq (h : t.Inv) :
    (t.lm.lastLogIndex = t.lm.lastSnapshotId.index → t.lastId = t.lm.lastSnapshotId) ∧
      (t.lm.lastLogIndex ≠ t.lm.lastSnapshotId.index → t.lm.endId = some t.lastId) := by
  have hlastId : ∀ e, t.lm.settled.get t.lm.lastLogIndex = some e → t.lastId = e.id := by
    intro e he
    unfold lastId
    rw [if_pos (h.held.range he).1, h.held.latest _ e he]
    rfl
  refine ⟨fun hlast => ?_, fun hlast => ?_⟩
  · by_cases hempty : t.lm.firstLogIndex ≤ t.lm.lastLogIndex
    · obtain ⟨e, he⟩ := h.held.exists_get hempty le_rfl
      rw [hlastId e he]
      rw [hlast] at he
      exact h.snapped.eq_of_get e he
    · exact if_neg hempty
  · obtain ⟨e, he, hend⟩ := h.ends.resolve_left hlast
    exact hlastId e he ▸ hend

/-! ## What each step keeps -/

theorem Held.enqueue (h : t.Held) (lm' : LogManager D LogId) (c : DiskClosure D LogId)
    (es : List (LogEntry D)) (hes : c.entries = es) (hlm' : t.lm.Enqueued lm' c)
    (hlogged : Logged (t.lm.settled.run c.op) (t.lm.unwritten ++ es) lm'.logsInMemory)
    (hfirst : (t.lm.settled.run c.op).first = lm'.firstLogIndex)
    (hnext : (t.lm.settled.run c.op).next = lm'.lastLogIndex + 1)
    (hlatest : ∀ i e, (t.lm.settled.run c.op).get i = some e →
      Storage.latest (t.appended ++ es) i = some e)
    (hfresh : ∀ e ∈ es, t.Fresh e.id) (hsorted : es.Pairwise fun e e' => e.id.lt e'.id)
    (hmarks : ∀ x ∈ c.marks, Bounded (t.seen ++ es.map LogEntry.id) x)
    (hcaller : ∀ x, c = .lastLogId x → t.lm.endId = some x) :
    let t' : Trace D :=
      { t with lm := lm', appended := t.appended ++ es, seen := t.seen ++ es.map LogEntry.id }
    t'.Held ∧ lm'.endId = c.tell t.lm.endId := by
  intro t'
  have hsettled := hlm'.settled
  have hunwritten : lm'.unwritten = t.lm.unwritten ++ es := by
    unfold LogManager.unwritten
    rw [hlm'.pending, flatMap_append, flatMap_singleton, hes]
  have habove : ∀ x ∈ t.lm.ids, ∀ e ∈ c.entries, x.lt e.id := fun x hx e he =>
    (hfresh e (hes ▸ he)).lt (h.bounded x hx)
  obtain ⟨hqueued, hids, hend⟩ := h.queued.enqueue hlm' habove (hes ▸ hsorted) hcaller
  have hsub : t.seen ⊆ t.seen ++ es.map LogEntry.id := subset_append_left _ _
  refine ⟨?_, hend⟩
  exact { h with
    logged := by
      rw [show t'.lm.settled = _ from hsettled, show t'.lm.unwritten = _ from hunwritten]
      exact hlogged
    first_eq := (congrArg first hsettled).trans hfirst
    next_eq := (congrArg next hsettled).trans hnext
    latest i e he := hlatest i e (by rw [← hsettled]; exact he)
    seen e he := by
      rw [show t'.lm.settled = _ from hsettled] at he
      obtain ⟨i, hi⟩ := exists_get_of_mem he
      rcases get_run hi with hi | hadded
      · exact hsub (h.seen e (mem_of_get hi))
      · rw [DiskClosure.added_op, hes] at hadded
        exact mem_append_right _ (mem_map_of_mem hadded)
    queued := hqueued
    bounded x hx := (hids x hx).elim (fun hx => (h.bounded x hx).mono hsub) (hmarks x) }

/-- A closure without entries. -/
theorem Held.command (h : t.Held) (lm' : LogManager D LogId) (c : DiskClosure D LogId)
    (hc : c.entries = []) (hlm' : t.lm.Enqueued lm' c)
    (hlogged : Logged (t.lm.settled.run c.op) t.lm.unwritten lm'.logsInMemory)
    (hfirst : (t.lm.settled.run c.op).first = lm'.firstLogIndex)
    (hnext : (t.lm.settled.run c.op).next = lm'.lastLogIndex + 1)
    (hget : ∀ i e, (t.lm.settled.run c.op).get i = some e → t.lm.settled.get i = some e)
    (hmarks : ∀ x ∈ c.marks, Bounded t.seen x)
    (hcaller : ∀ x, c = .lastLogId x → t.lm.endId = some x) :
    Held { t with lm := lm' } ∧ lm'.endId = c.tell t.lm.endId := by
  have hheld := h.enqueue lm' c [] hc hlm'
  simp only [List.append_nil, List.map_nil] at hheld
  exact hheld hlogged hfirst hnext (fun i e he => h.latest i e (hget i e he))
    (List.forall_mem_nil _)
    .nil hmarks hcaller

/-! ### Appending -/

/-- What may be appended: entries that follow on the log, with fresh and rising ids. -/
structure Appendable (t : Trace D) (es : List (LogEntry D)) : Prop where
  indexed : Indexed (t.lm.lastLogIndex + 1) es
  fresh : ∀ e ∈ es, t.Fresh e.id
  sorted : es.Pairwise fun e e' => e.id.lt e'.id

def extend (t : Trace D) (es : List (LogEntry D)) : Trace D :=
  { t with
    lm := t.lm.extend es
    appended := t.appended ++ es
    seen := t.seen ++ es.map LogEntry.id }

theorem settled_extend (t : Trace D) (es : List (LogEntry D)) :
    (t.extend es).lm.settled = t.lm.settled.append es :=
  LogManager.Enqueued.settled (c := .stable es) ⟨rfl, rfl, rfl, rfl, rfl⟩

variable {es : List (LogEntry D)}

theorem Held.extend (h : t.Held) (hes : t.Appendable es) :
    (t.extend es).Held ∧ (t.extend es).lm.endId =
      (.stable es : DiskClosure D LogId).tell t.lm.endId := by
  have hindexed := hes.indexed
  rw [← h.next_eq] at hindexed
  refine h.enqueue (t.extend es).lm (.stable es) es rfl ⟨rfl, rfl, rfl, rfl, rfl⟩
    (h.logged.append hindexed fun e he => (hes.fresh e he).1) h.first_eq ?_ ?_ hes.fresh hes.sorted
    ?_ ?_
  · rw [show t.lm.settled.run (DiskClosure.stable es : DiskClosure D LogId).op =
      t.lm.settled.append es from rfl, next_append, h.next_eq]
    exact Nat.add_right_comm _ _ _
  · intro i e he
    rw [latest_append]
    rcases lt_or_ge i t.lm.settled.next with hi | hi
    · rw [latest_of_lt hindexed hi]
      exact h.latest i e ((get_append_of_lt hi).symm.trans he)
    · rw [latest_of_le hindexed hi ((get_append_of_le hi).symm.trans he)]
      rfl
  · intro x hx
    exact .inr (mem_append_right _ hx)
  · intro x hx
    cases hx

theorem Snapped.extend (hs : t.Snapped) (h : t.Held) (es : List (LogEntry D)) :
    (t.extend es).Snapped := by
  have hsub : t.seen ⊆ t.seen ++ es.map LogEntry.id := subset_append_left _ _
  exact { hs with
    bounded := hs.bounded.mono hsub
    virtual_bounded := hs.virtual_bounded.mono hsub
    le_last := hs.le_last.trans (Nat.le_add_right _ _)
    eq_of_get e he := by
      rw [settled_extend] at he
      refine hs.eq_of_get e ((get_append_of_lt ?_).symm.trans he)
      rw [h.next_eq]
      exact Nat.lt_succ_of_le hs.le_last }

theorem Held.ends_extend (h : t.Held) (hes : t.Appendable es)
    (hne : es ≠ []) : (t.extend es).Ends := by
  obtain ⟨e, hlast⟩ : ∃ e, es.getLast? = some e := ⟨_, getLast?_eq_some_getLast hne⟩
  have hlen := length_pos_iff.mpr hne
  refine .inr ⟨e, ?_, ?_⟩
  · rw [settled_extend, show (t.extend es).lm.lastLogIndex = t.lm.lastLogIndex + es.length from rfl,
      get_append_of_le (by rw [h.next_eq]; omega), h.next_eq]
    rw [getLast?_eq_getElem?] at hlast
    rw [← hlast]
    congr 1
    omega
  · rw [(h.extend hes).2]
    simp only [DiskClosure.tell]
    rw [hlast]
    rfl

theorem Inv.extend (h : t.Inv) (hes : t.Appendable es) : (t.extend es).Inv := by
  refine ⟨(h.held.extend hes).1, h.snapped.extend h.held es, ?_⟩
  by_cases hne : es = []
  · subst hne
    rcases h.ends with hlast | ⟨e, he, hend⟩
    · exact .inl hlast
    · refine .inr ⟨e, ?_, ?_⟩
      · rw [settled_extend, ListLog.append_nil]
        exact he
      · rw [(h.held.extend hes).2, hend]
        rfl
  · exact h.held.ends_extend hes hne

/-! ### Cutting off the end -/

/-- The end of the log is cut off, with a term for the last index kept. -/
def cutAt (t : Trace D) (lastIndexKept lastTermKept : ℕ) : Trace D :=
  { t with
    lm := { t.lm with
      logsInMemory := t.lm.logsInMemory.rdropWhile fun e => lastIndexKept < e.id.index
      lastLogIndex := lastIndexKept
      diskQueue := t.lm.diskQueue ++ [.truncateSuffix lastIndexKept lastTermKept] } }

theorem Held.cutAt {k τ : ℕ} (h : t.Held) (hs : t.Snapped) (happlied : t.lm.appliedId.index ≤ k)
    (hfirst : t.lm.firstLogIndex ≤ k + 1) (hlast : k ≤ t.lm.lastLogIndex)
    (hτ : Bounded t.seen ⟨k, τ⟩) : (t.cutAt k τ).Held ∧ (t.cutAt k τ).Snapped := by
  have henqueued : t.lm.Enqueued (t.cutAt k τ).lm (.truncateSuffix k τ) := ⟨rfl, rfl, rfl, rfl, rfl⟩
  have hsettled : (t.cutAt k τ).lm.settled = t.lm.settled.truncateSuffix k :=
    henqueued.settled
  have hnext : (t.lm.settled.truncateSuffix k).next = k + 1 := by
    refine next_truncateSuffix ?_ ?_
    · rw [h.first_eq]
      exact hfirst
    · rw [h.next_eq]
      omega
  have hkept : ∀ {i e}, (t.lm.settled.truncateSuffix k).get i = some e →
      t.lm.settled.get i = some e := by
    intro i e he
    have := (range_of_get he).2
    rw [hnext] at this
    exact (get_truncateSuffix (by omega)).symm.trans he
  have hheld := (h.command (t.cutAt k τ).lm (.truncateSuffix k τ) rfl henqueued
    (h.logged.truncateSuffix k) h.first_eq hnext (fun _ _ => hkept)
    (forall_mem_singleton.mpr hτ) nofun).1
  refine ⟨hheld, ?_⟩
  exact { hs with
    le_last := hs.le_applied.trans happlied
    eq_of_get e he := by
      rw [hsettled] at he
      exact hs.eq_of_get e (hkept he) }

theorem unsafeTruncateSuffix_eq {k : ℕ} (happlied : t.lm.appliedId.index ≤ k) :
    t.lm.unsafeTruncateSuffix k = (t.cutAt k ((t.cutAt k 0).lm.unsafeGetTerm k)).lm := by
  unfold LogManager.unsafeTruncateSuffix
  rw [if_neg (not_lt.mpr happlied)]
  rfl

theorem Held.unsafeTruncateSuffix {k : ℕ} (h : t.Held) (hs : t.Snapped)
    (happlied : t.lm.appliedId.index ≤ k) (hfirst : t.lm.firstLogIndex ≤ k + 1)
    (hlast : k ≤ t.lm.lastLogIndex) :
    Held { t with lm := t.lm.unsafeTruncateSuffix k } ∧
      Snapped { t with lm := t.lm.unsafeTruncateSuffix k } := by
  -- the term is looked up in the log as it is after the cut
  obtain ⟨hheld, hsnapped⟩ := h.cutAt hs happlied hfirst hlast (.inl rfl)
  rw [unsafeTruncateSuffix_eq happlied]
  exact h.cutAt hs happlied hfirst hlast (hheld.bounded_getTerm hsnapped k)

/-! ### Entries of a leader -/

theorem Above.getTerm_ne {id : LogId} (hid : t.Above id) (h : t.Held) (hs : t.Snapped) :
    t.lm.unsafeGetTerm id.index ≠ id.term := fun hterm => by
  have hbounded := h.bounded_getTerm hs id.index
  rw [hterm] at hbounded
  have hlt := hid.1.lt hbounded
  exact hlt.asymm hlt

theorem Knows.le_last {id : LogId} (hid : t.Knows id) (hs : t.Snapped) :
    id.index ≤ t.lm.lastLogIndex := by
  rcases hid with rfl | rfl | ⟨-, hle, -⟩
  · exact hs.le_last
  · have := hs.virtual_lt
    have := hs.first_le
    have := hs.le_last
    omega
  · exact hle

theorem Knows.getTerm {id : LogId} (hid : t.Knows id) (h : t.Held) (hs : t.Snapped)
    (hpos : id.index ≠ 0) : t.lm.unsafeGetTerm id.index = id.term := by
  rcases hid with rfl | rfl | ⟨hfirst, hlast, hlatest⟩
  · unfold LogManager.unsafeGetTerm
    rw [if_neg hpos]
    by_cases hvirtual : t.lm.lastSnapshotId.index = t.lm.virtualFirstLogId.index
    · rw [if_pos hvirtual, hs.virtual_eq hvirtual.symm]
    · rw [if_neg hvirtual, if_pos rfl]
  · unfold LogManager.unsafeGetTerm
    rw [if_neg hpos, if_pos rfl]
  · obtain ⟨e, he⟩ := h.exists_get hfirst hlast
    rw [h.latest _ e he] at hlatest
    rw [h.getTerm hs he, ← some_inj.mp hlatest]

theorem Fresh.of_lt {id id' : LogId} (h : t.Fresh id) (hlt : id.lt id') : t.Fresh id' := by
  refine ⟨?_, fun x hx => (h.2 x hx).trans hlt⟩
  have := h.1
  unfold LogId.lt at hlt
  omega

theorem appendable_nil (t : Trace D) : t.Appendable [] where
  indexed := nofun
  fresh := forall_mem_nil _
  sorted := .nil

theorem appendable_of_head {rest : List (LogEntry D)}
    (hindexed : Indexed (t.lm.lastLogIndex + 1) (e :: rest)) (hfresh : t.Fresh e.id)
    (hsorted : (e :: rest).Pairwise fun e e' => e.id.lt e'.id) : t.Appendable (e :: rest) where
  indexed := hindexed
  fresh := forall_mem_cons.mpr
    ⟨hfresh, fun _ he' => hfresh.of_lt (rel_of_pairwise_cons hsorted he')⟩
  sorted := hsorted

theorem Inv.dropWhile_known (h : t.Inv) {f : ℕ} {es : List (LogEntry D)} (hf : f ≠ 0)
    (hindexed : Indexed f es) (hsorted : es.Pairwise fun e e' => e.id.lt e'.id)
    (hknown : ∀ e ∈ es, t.Knows e.id ∨ t.Above e.id) {rest : List (LogEntry D)}
    (hdrop : es.dropWhile (fun e => t.lm.unsafeGetTerm e.id.index = e.id.term) = e :: rest) :
    t.Above e.id ∧ Indexed e.id.index (e :: rest) ∧
      ((e :: rest).Pairwise fun e e' => e.id.lt e'.id) ∧
      e.id.index + rest.length + 1 = f + es.length ∧
      (e.id.index = f ∨ e.id.index ≤ t.lm.lastLogIndex + 1) := by
  have hsplit := takeWhile_append_dropWhile
    (p := fun e => decide (t.lm.unsafeGetTerm e.id.index = e.id.term)) (l := es)
  rw [hdrop] at hsplit
  set known := es.takeWhile fun e => decide (t.lm.unsafeGetTerm e.id.index = e.id.term) with hdef
  rw [← hsplit] at hindexed hsorted
  have hright := hindexed.right
  have hindex : e.id.index = f + known.length := hright.head
  have hmem : e ∈ es := by
    rw [← hsplit]
    exact mem_append_right _ mem_cons_self
  have hne : t.lm.unsafeGetTerm e.id.index ≠ e.id.term := by
    have := head?_dropWhile_not (fun e => decide (t.lm.unsafeGetTerm e.id.index = e.id.term)) es
    rw [hdrop] at this
    simpa using this
  have habove : t.Above e.id :=
    (hknown e hmem).resolve_left fun hk => hne (hk.getTerm h.held h.snapped (by omega))
  refine ⟨habove, hindex ▸ hright, (pairwise_append.mp hsorted).2.1, ?_, ?_⟩
  · have := congrArg length hsplit
    rw [length_append, length_cons] at this
    omega
  · -- the entry before it is in the log
    cases hlast : known.getLast? with
    | none =>
      rw [getLast?_eq_none_iff.mp hlast, length_nil] at hindex
      exact .inl (by omega)
    | some e' =>
      have hmem' := mem_of_getLast? hlast
      have hterm : t.lm.unsafeGetTerm e'.id.index = e'.id.term := by
        simpa using mem_takeWhile_imp hmem'
      have hin : e' ∈ es := by
        rw [← hsplit]
        exact mem_append_left _ hmem'
      have hle := ((hknown e' hin).resolve_right fun ha =>
        ha.getTerm_ne h.held h.snapped hterm).le_last h.snapped
      rw [getLast?_eq_getElem?] at hlast
      have hpos := length_pos_of_mem hmem'
      have := hindexed.left _ e' hlast
      exact .inr (by omega)

theorem lastLogIndex_unsafeTruncateSuffix {k : ℕ} (happlied : t.lm.appliedId.index ≤ k) :
    (t.lm.unsafeTruncateSuffix k).lastLogIndex = k := by
  rw [unsafeTruncateSuffix_eq happlied]
  rfl

section

variable (h : t.Inv) {prevLogIndex : ℕ} {entries : List (ℕ × D)}
  (hC : t.Orderly (.appendEntries prevLogIndex entries))
include h hC

/-- What `append_entries` does with entries of a leader: nothing, append what the log does not have,
or first cut off what conflicts, which is not applied. -/
theorem Inv.appendEntries_cases :
    t.lm.appendEntries (numbered (prevLogIndex + 1) entries) = (t.lm, []) ∨ (∃ es, t.Appendable es ∧
        t.lm.appendEntries (numbered (prevLogIndex + 1) entries) = (t.lm.extend es, es)) ∨
      ∃ k es, es ≠ [] ∧ t.lm.appliedId.index ≤ k ∧ t.lm.firstLogIndex ≤ k + 1 ∧
        k ≤ t.lm.lastLogIndex ∧ Appendable { t with lm := t.lm.unsafeTruncateSuffix k } es ∧
        t.lm.appendEntries (numbered (prevLogIndex + 1) entries) =
          ((t.lm.unsafeTruncateSuffix k).extend es, es) := by
  obtain ⟨hterms, hknown⟩ := hC
  have hindexed := indexed_numbered (prevLogIndex + 1) entries
  have hsorted := pairwise_numbered (prevLogIndex + 1) hterms
  have hlength := length_numbered (prevLogIndex + 1) entries
  have hextend : t.lm.extend [] = { t.lm with diskQueue := t.lm.diskQueue ++ [.stable []] } := by
    unfold LogManager.extend
    rw [List.append_nil, List.length_nil, Nat.add_zero]
  rw [← hlength] at hknown
  generalize numbered (prevLogIndex + 1) entries = es at *
  unfold LogManager.appendEntries LogManager.checkAndResolveConflict
  cases es with
  | nil =>
    refine .inr (.inl ⟨[], t.appendable_nil, ?_⟩)
    rw [hextend]
    dsimp only [head?_nil, getLast?_nil]
    rw [List.append_nil]
  | cons front rest =>
    obtain ⟨back, hback⟩ : ∃ back, (front :: rest).getLast? = some back :=
      ⟨_, getLast?_eq_some_getLast (cons_ne_nil _ _)⟩
    have hfront := hindexed.head
    have hbackIndex : back.id.index = prevLogIndex + (front :: rest).length := by
      rw [getLast?_eq_getElem?, length_cons] at hback
      have := hindexed _ back hback
      rw [length_cons]
      omega
    rw [hback, head?_cons]
    dsimp only
    rw [if_neg (by omega)]
    split_ifs with hgap happlied hfast
    · exact .inl rfl
    · exact .inl rfl
    all_goals have hcases := hknown (by omega)
    · -- the entries follow on the log
      have habove : t.Above front.id := (hcases front mem_cons_self).resolve_left fun hk => by
        have := hk.le_last h.snapped
        omega
      refine .inr (.inl ⟨front :: rest, appendable_of_head ?_ habove.1 hsorted, ?_⟩)
      · rw [← hfast, hfront]
        exact hindexed
      · unfold LogManager.extend
        rw [show back.id.index = t.lm.lastLogIndex + (front :: rest).length by omega]
    cases hdrop : (front :: rest).dropWhile
        (fun e => decide (t.lm.unsafeGetTerm e.id.index = e.id.term)) with
    | nil =>
      refine .inr (.inl ⟨[], t.appendable_nil, ?_⟩)
      rw [hextend]
      dsimp only
      rw [List.append_nil]
    | cons e rest' =>
      obtain ⟨habove, hindexed', hsorted', hlen, hfollows⟩ :=
        h.dropWhile_known (Nat.succ_ne_zero prevLogIndex) hindexed hsorted hcases hdrop
      have hle : t.lm.appliedId.index < e.id.index := habove.2.1
      by_cases hconflict : e.id.index ≤ t.lm.lastLogIndex
      · have hkept : t.lm.appliedId.index ≤ e.id.index - 1 := by omega
        refine .inr (.inr ⟨e.id.index - 1, e :: rest', cons_ne_nil _ _, hkept, ?_, by omega,
          ?_, ?_⟩)
        · have := habove.2.2
          omega
        · refine appendable_of_head ?_ habove.1 hsorted'
          rw [lastLogIndex_unsafeTruncateSuffix hkept,
            show e.id.index - 1 + 1 = e.id.index by omega]
          exact hindexed'
        · dsimp only
          rw [if_pos hconflict]
          unfold LogManager.extend
          rw [lastLogIndex_unsafeTruncateSuffix hkept,
            show back.id.index = e.id.index - 1 + (e :: rest').length by rw [length_cons]; omega]
      · refine .inr (.inl ⟨e :: rest', appendable_of_head ?_ habove.1 hsorted', ?_⟩)
        · rw [show t.lm.lastLogIndex + 1 = e.id.index by omega]
          exact hindexed'
        · dsimp only
          rw [if_neg hconflict]
          unfold LogManager.extend
          rw [show back.id.index = t.lm.lastLogIndex + (e :: rest').length by
            rw [length_cons]; omega]

theorem Inv.appendEntries : (t.append (numbered (prevLogIndex + 1) entries)).Inv := by
  unfold append
  rcases h.appendEntries_cases hC with heq | ⟨es, hes, heq⟩ | ⟨k, es, hne, happlied, hfirst, hlast,
    hes, heq⟩
  · rw [heq]
    dsimp only
    rw [List.append_nil, List.map_nil, List.append_nil]
    exact h
  · rw [heq]
    exact h.extend hes
  · rw [heq]
    obtain ⟨hheld, hsnapped⟩ := h.held.unsafeTruncateSuffix h.snapped happlied hfirst hlast
    exact ⟨(hheld.extend hes).1, hsnapped.extend hheld es, hheld.ends_extend hes hne⟩

end

theorem Inv.appendTasks (h : t.Inv) {term : ℕ} {data : List D}
    (hC : t.Orderly (.appendTasks term data)) :
    (t.append (data.map fun d => ⟨⟨0, term⟩, d⟩)).Inv := by
  cases data with
  | nil =>
    have heq : t.append (([] : List D).map fun d => ⟨⟨0, term⟩, d⟩) = t.extend [] := by
      unfold Trace.append Trace.extend LogManager.appendEntries LogManager.extend
      simp only [LogManager.checkAndResolveConflict, map_nil, head?_nil, getLast?_nil,
        List.append_nil, List.length_nil, Nat.add_zero]
    rw [heq]
    exact h.extend t.appendable_nil
  | cons d data =>
    have hfresh := hC.resolve_left (cons_ne_nil _ _)
    set es := numbered (t.lm.lastLogIndex + 1) ((d :: data).map fun d => (term, d)) with hdef
    have hes : ((d :: data).map fun d => (⟨⟨0, term⟩, d⟩ : LogEntry D)).mapIdx
        (fun i e => { e with id := ⟨t.lm.lastLogIndex + 1 + i, e.id.term⟩ }) = es := by
      refine ext_getElem? fun i => ?_
      simp only [hdef, numbered, getElem?_mapIdx, getElem?_map, Option.map_map]
      rfl
    obtain ⟨back, hback⟩ : ∃ back,
        ((d :: data).map fun d => (⟨⟨0, term⟩, d⟩ : LogEntry D)).getLast? = some back :=
      ⟨_, getLast?_eq_some_getLast (by simp)⟩
    have heq : t.append ((d :: data).map fun d => ⟨⟨0, term⟩, d⟩) = t.extend es := by
      unfold Trace.append Trace.extend LogManager.appendEntries LogManager.checkAndResolveConflict
      rw [hback, map_cons, head?_cons]
      dsimp only
      rw [if_pos rfl, ← map_cons (f := fun d => (⟨⟨0, term⟩, d⟩ : LogEntry D)), hes]
      unfold LogManager.extend
      rw [hdef, length_numbered, length_map, length_map]
    have hindexed : Indexed (t.lm.lastLogIndex + 1) es := indexed_numbered _ _
    have hsorted : es.Pairwise fun e e' => e.id.lt e'.id := by
      refine pairwise_numbered _ (pairwise_map.mpr (pairwise_of_forall fun _ _ => le_rfl))
    rw [heq]
    refine h.extend ?_
    rw [hdef, numbered, map_cons, mapIdx_cons] at hindexed hsorted ⊢
    exact appendable_of_head hindexed hfresh hsorted

/-! ### Cutting off the beginning -/

/-- The beginning is cut off when the ids are set. -/
def cutBefore (t : Trace D) (k : ℕ) (applied snapshot virtualFirst : LogId) : LogManager D LogId :=
  LogManager.truncatePrefix k { t.lm with
    appliedId := applied
    lastSnapshotId := snapshot
    virtualFirstLogId := virtualFirst }

theorem Held.cutBefore {k : ℕ} (h : t.Held) (hk : t.lm.firstLogIndex ≤ k)
    (applied snapshot virtualFirst : LogId) :
    let lm' := t.cutBefore k applied snapshot virtualFirst
    Held { t with lm := lm' } ∧ (∀ i, k ≤ i → lm'.settled.get i = t.lm.settled.get i) ∧
      (k ≤ t.lm.lastLogIndex → lm'.lastLogIndex = t.lm.lastLogIndex ∧
        lm'.settled.get lm'.lastLogIndex = t.lm.settled.get t.lm.lastLogIndex) ∧
      lm'.endId = t.lm.endId := by
  intro lm'
  have hpos := h.logged.first_pos
  rw [h.first_eq] at hpos
  have hfirst : (t.lm.settled.truncatePrefix k).first = k := by
    rw [first_truncatePrefix, h.first_eq]
    exact max_eq_right hk
  have hget : ∀ i e, (t.lm.settled.truncatePrefix k).get i = some e →
      t.lm.settled.get i = some e := fun i e he =>
    (get_truncatePrefix (hfirst.ge.trans (range_of_get he).1)).symm.trans he
  have hnext : (t.lm.settled.truncatePrefix k).next = lm'.lastLogIndex + 1 := by
    rw [next_truncatePrefix, h.next_eq]
    dsimp only [lm', Trace.cutBefore, LogManager.truncatePrefix]
    split_ifs with hlast <;> omega
  have henqueued : t.lm.Enqueued lm' (.truncatePrefix k) := ⟨rfl, rfl, rfl, rfl, rfl⟩
  have hheld := h.command lm' (.truncatePrefix k) rfl henqueued
    (h.logged.truncatePrefix (h.first_eq ▸ hk)) hfirst hnext hget (forall_mem_nil _)
    nofun
  have hkept : ∀ i, k ≤ i → lm'.settled.get i = t.lm.settled.get i := fun i hi => by
    rw [henqueued.settled]
    exact get_truncatePrefix hi
  refine ⟨hheld.1, hkept, fun hle => ?_, hheld.2⟩
  have hsame : lm'.lastLogIndex = t.lm.lastLogIndex := if_neg (not_lt.mpr hle)
  exact ⟨hsame, by rw [hsame, hkept _ hle]⟩


/-! ### Snapshots -/

theorem Held.see (h : t.Held) (id : LogId) : Held { t with seen := t.seen ++ [id] } :=
  { h with
    seen e he := mem_append_left _ (h.seen e he)
    bounded x hx := (h.bounded x hx).mono (subset_append_left _ _) }

theorem Snapped.see (h : t.Snapped) (id : LogId) : Snapped { t with seen := t.seen ++ [id] } :=
  { h with
    bounded := h.bounded.mono (subset_append_left _ _)
    virtual_bounded := h.virtual_bounded.mono (subset_append_left _ _) }

/-- All of the log up to the snapshot is dropped. -/
theorem Held.snapped_past (h : t.Held) (hbounded : Bounded t.seen t.lm.lastSnapshotId)
    (hvirtual : t.lm.virtualFirstLogId = t.lm.lastSnapshotId)
    (hfirst : t.lm.firstLogIndex = t.lm.lastSnapshotId.index + 1)
    (hlast : t.lm.lastSnapshotId.index ≤ t.lm.lastLogIndex)
    (happlied : t.lm.lastSnapshotId.index ≤ t.lm.appliedId.index) : t.Snapped where
  bounded := hbounded
  virtual_bounded := hvirtual ▸ hbounded
  virtual_lt := by rw [hvirtual, hfirst]; exact Nat.lt_succ_self _
  first_le := hfirst.le
  le_last := hlast
  le_applied := happlied
  eq_of_get e he := absurd (hfirst ▸ (h.range he).1) (Nat.not_succ_le_self _)
  virtual_eq _ := hvirtual

section

variable (h : t.Inv)
include h

theorem Inv.setSnapshot_of_knows {id : LogId}
    (hlt : t.lm.lastSnapshotId.index < id.index) (hknows : t.Knows id)
    (hle : id.le t.lm.appliedId → id.index ≤ t.lm.appliedId.index) :
    Inv { t with lm := t.lm.setSnapshot id, seen := t.seen ++ [id] } := by
  have hfirst_le := h.snapped.first_le
  obtain ⟨hfirst, hlast, hlatest⟩ : t.lm.firstLogIndex ≤ id.index ∧
      id.index ≤ t.lm.lastLogIndex ∧ (latest t.appended id.index).map LogEntry.id = some id := by
    rcases hknows with rfl | rfl | hin
    · omega
    · have := h.snapped.virtual_lt
      omega
    · exact hin
  obtain ⟨e, he⟩ := h.held.exists_get hfirst hlast
  rw [h.held.latest _ e he] at hlatest
  have hid : e.id = id := some_inj.mp hlatest
  have hterm : t.lm.unsafeGetTerm id.index = id.term := by rw [h.held.getTerm h.snapped he, hid]
  have hpos : id.term ≠ 0 := by
    have := h.held.logged.term_pos e (mem_of_get he)
    rw [hid] at this
    omega
  have happlied := index_le_raised hle
  obtain ⟨e', he', hend⟩ := h.ends.resolve_left (by omega)
  have hseen := h.held.see id
  have hsnapped := h.snapped.see id
  unfold LogManager.setSnapshot
  rw [if_neg (not_le.mpr hlt)]
  rw [if_neg (hterm.trans_ne hpos), if_pos hterm]
  by_cases hsnapshot : 0 < t.lm.lastSnapshotId.index
  · rw [if_pos hsnapshot]
    have hlast' : t.lm.lastSnapshotId.index + 1 ≤ t.lm.lastLogIndex := by omega
    obtain ⟨hheld, hget, hsame, hend'⟩ := hseen.cutBefore hfirst_le
      (if t.lm.appliedId.lt id then id else t.lm.appliedId) id t.lm.lastSnapshotId
    refine ⟨hheld, ?_, .inr ⟨e', (hsame hlast').2.trans he', hend'.trans hend⟩⟩
    exact {
      bounded := .inr (mem_append_right _ mem_cons_self)
      virtual_bounded := hsnapped.bounded
      virtual_lt := Nat.lt_succ_self _
      first_le := Nat.succ_le_succ hlt.le
      le_last := hlast.trans (hsame hlast').1.ge
      le_applied := happlied
      eq_of_get e'' he'' := by
        have := (hget id.index (Nat.succ_le_of_lt hlt)).symm.trans he''
        rw [← some_inj.mp (he.symm.trans this)]
        exact hid
      virtual_eq heq := absurd heq hlt.ne }
  · rw [if_neg hsnapshot]
    refine ⟨{ hseen with queued := { hseen.queued with } }, ?_, .inr ⟨e', he', hend⟩⟩
    exact { hsnapped with
      bounded := .inr (mem_append_right _ mem_cons_self)
      virtual_lt := h.snapped.virtual_lt
      first_le := hfirst.trans (Nat.le_succ _)
      le_last := hlast
      le_applied := happlied
      eq_of_get e'' he'' := by rw [← hid, some_inj.mp (he.symm.trans he'')]
      virtual_eq heq := by
        have hvirtual := h.snapped.virtual_lt
        dsimp only at heq
        omega }

theorem Inv.setSnapshot_of_above {id : LogId}
    (hlt : t.lm.lastSnapshotId.index < id.index) (habove : t.Above id)
    (hle : id.le t.lm.appliedId → id.index ≤ t.lm.appliedId.index) :
    Inv { t with lm := t.lm.setSnapshot id, seen := t.seen ++ [id] } := by
  have hterm := habove.getTerm_ne h.held h.snapped
  have hfirst := habove.2.2
  have happlied := index_le_raised hle
  have hseen := h.held.see id
  have hbounded : Bounded (t.seen ++ [id]) id := .inr (mem_append_right _ mem_cons_self)
  unfold LogManager.setSnapshot
  rw [if_neg (not_le.mpr hlt)]
  by_cases hzero : t.lm.unsafeGetTerm id.index = 0
  · -- the snapshot reaches beyond the log
    rw [if_pos hzero]
    have hlast : t.lm.lastLogIndex < id.index + 1 := by
      by_contra hge
      obtain ⟨e, he⟩ := h.held.exists_get hfirst (by omega)
      have hpos := h.held.logged.term_pos e (mem_of_get he)
      rw [← h.held.getTerm h.snapped he, hzero] at hpos
      exact absurd hpos (lt_irrefl 0)
    obtain ⟨hheld, -⟩ := hseen.cutBefore (hfirst.trans (Nat.le_succ _))
      (if t.lm.appliedId.lt id then id else t.lm.appliedId) id id
    refine ⟨hheld, ?_, .inl (if_pos hlast)⟩
    exact hheld.snapped_past hbounded rfl rfl (if_pos hlast).ge happlied
  · rw [if_neg hzero, if_neg hterm]
    set lm' := LogManager.reset (id.index + 1) { t.lm with
      lastSnapshotId := id
      appliedId := if t.lm.appliedId.lt id then id else t.lm.appliedId
      virtualFirstLogId := id }
    have hheld := (hseen.command lm' (.reset (id.index + 1)) rfl ⟨rfl, rfl, rfl, rfl, rfl⟩
      (Logged.reset id.index.succ_pos _) rfl rfl
      (fun i e he => absurd ((get_reset _ i).symm.trans he) (by simp)) (forall_mem_nil _)
      nofun).1
    refine ⟨hheld, ?_, .inl rfl⟩
    exact hheld.snapped_past hbounded rfl rfl le_rfl happlied

theorem Inv.setSnapshot {id : LogId} (hC : t.Orderly (.setSnapshot id)) :
    Inv { t with lm := t.lm.setSnapshot id, seen := t.seen ++ [id] } := by
  by_cases hlt : t.lm.lastSnapshotId.index < id.index
  · obtain ⟨hknows | habove, hle⟩ := hC hlt
    · exact h.setSnapshot_of_knows hlt hknows hle
    · exact h.setSnapshot_of_above hlt habove hle
  · unfold LogManager.setSnapshot
    rw [if_pos (not_lt.mp hlt)]
    exact ⟨h.held.see id, h.snapped.see id, h.ends⟩

theorem Inv.clearBufferedLogs : Inv { t with lm := t.lm.clearBufferedLogs } := by
  unfold LogManager.clearBufferedLogs
  split_ifs with hzero
  · exact h
  obtain ⟨hheld, -, hsame, hend'⟩ := h.held.cutBefore h.snapped.first_le
    t.lm.appliedId t.lm.lastSnapshotId t.lm.lastSnapshotId
  have hle := h.snapped.le_last
  refine ⟨hheld, ?_, ?_⟩
  · refine hheld.snapped_past h.snapped.bounded rfl rfl ?_ h.snapped.le_applied
    dsimp only [Trace.cutBefore, LogManager.truncatePrefix]
    split_ifs <;> omega
  · by_cases hlast : t.lm.lastLogIndex < t.lm.lastSnapshotId.index + 1
    · exact .inl (if_pos hlast)
    · obtain ⟨e, he, hend⟩ := h.ends.resolve_left (by omega)
      exact .inr ⟨e, (hsame (not_lt.mp hlast)).2.trans he, hend'.trans hend⟩

/-! ### Applied ids and the memory -/

theorem Inv.setAppliedId {id : LogId} (hC : t.Orderly (.setAppliedId id)) :
    Inv { t with lm := t.lm.setAppliedId id } := by
  unfold LogManager.setAppliedId
  split_ifs with hlt
  · exact h
  have hle := hC (not_lt.mp hlt)
  have hclearing := forall_mem_append.mpr
    ⟨h.held.queued.clearing, forall_mem_singleton.mpr (min_le_left t.lm.diskId id)⟩
  exact ⟨{ h.held with queued := { h.held.queued with clearing := hclearing } },
    { h.snapped with le_applied := h.snapped.le_applied.trans hle }, h.ends⟩

theorem Inv.clearMemoryLogs {thread : ℕ} {lm' : LogManager D LogId}
    (hstep : t.lm.clearMemoryLogs thread = some lm') : Inv { t with lm := lm' } := by
  obtain ⟨id, hid, hlm'⟩ := bind_eq_some_iff.mp hstep
  obtain rfl := some_inj.mp hlm'
  have hle := h.held.queued.clearing id (mem_of_getElem? hid)
  have hwritten : ∀ e ∈ t.lm.logsInMemory.take (t.lm.toClear id).length, e ∉ t.lm.unwritten := by
    intro e he hmem
    have hcleared : (t.lm.toClear id) = t.lm.logsInMemory.take (t.lm.toClear id).length := by
      have htake := take_prefix LogManager.clearSize t.lm.logsInMemory
      exact prefix_iff_eq_take.mp <| .trans (by exact takeWhile_prefix _) htake
    rw [← hcleared] at he
    have hid' : e.id.le id := by simpa using mem_takeWhile_imp he
    obtain ⟨c, hc, he'⟩ := mem_flatMap.mp hmem
    have hlt := (hid'.trans hle).trans_lt (h.held.queued.rising.disk c hc e he')
    exact hlt.asymm hlt
  refine ⟨{ h.held with
    logged := h.held.logged.drop hwritten
    queued := { h.held.queued with clearing := ?_ } }, { h.snapped with }, h.ends⟩
  intro c hc
  split_ifs at hc
  · exact h.held.queued.clearing c hc
  · exact h.held.queued.clearing c (mem_of_mem_eraseIdx hc)

/-! ### The disk thread -/

theorem Inv.sameLog {lm' : LogManager D LogId} (hqueued : lm'.Queued)
    (hsame : t.lm.SameLog lm') (answered : List (LogId × LogId))
    (hanswered : ∀ p ∈ answered, p.2 = p.1) :
    Inv { t with lm := lm', answered := t.answered ++ answered } := by
  have hsettled := hsame.settled
  obtain ⟨storage, diskId, diskQueue, batch, clearing, rfl⟩ :
      ∃ storage diskId diskQueue batch clearing,
        lm' = { t.lm with storage, diskId, diskQueue, batch, clearing } :=
    ⟨_, _, _, _, _, hsame.frame⟩
  refine ⟨?_, ?_, ?_⟩
  · exact {
      logged := by
        rw [hsettled]
        exact { h.held.logged with
          unwritten e he := h.held.logged.unwritten e (hsame.unwritten e he) }
      first_eq := (congrArg first hsettled).trans h.held.first_eq
      next_eq := (congrArg next hsettled).trans h.held.next_eq
      latest i e he := h.held.latest i e (hsettled ▸ he)
      seen e he := h.held.seen e (hsettled ▸ he)
      queued := hqueued
      bounded x hx := h.held.bounded x (hsame.ids x hx)
      answered := forall_mem_append.mpr ⟨h.held.answered, hanswered⟩ }
  · exact { h.snapped with eq_of_get e he := h.snapped.eq_of_get e (hsettled ▸ he) }
  · rcases h.ends with hends | ⟨e, he, hend⟩
    · exact .inl hends
    · exact .inr ⟨e, hsettled ▸ he, hsame.endId _ hend⟩

theorem Inv.requestLastLogId : Inv { t with
      lm := (t.lm.requestLastLogId t.lastId).1
      answered := t.answered ++
        ((t.lm.requestLastLogId t.lastId).2.map fun y => (t.lastId, y)).toList } := by
  unfold LogManager.requestLastLogId
  by_cases hlast : t.lm.lastLogIndex = t.lm.lastSnapshotId.index
  · rw [if_pos hlast]
    refine ⟨{ h.held with answered := ?_ }, { h.snapped with }, h.ends⟩
    exact forall_mem_append.mpr
      ⟨h.held.answered, forall_mem_singleton.mpr (h.lastId_eq.1 hlast).symm⟩
  · rw [if_neg hlast]
    have htold := h.lastId_eq.2 hlast
    set lm' : LogManager D LogId :=
      { t.lm with diskQueue := t.lm.diskQueue ++ [.lastLogId t.lastId] } with hlm'
    have hrun : t.lm.settled.run (.lastLogId t.lastId : DiskClosure D LogId).op = t.lm.settled :=
      append_nil _
    have henqueued : t.lm.Enqueued lm' (.lastLogId t.lastId) := ⟨rfl, rfl, rfl, rfl, rfl⟩
    have hsettled : lm'.settled = t.lm.settled := henqueued.settled.trans hrun
    have hheld := h.held.command lm' (.lastLogId t.lastId) rfl henqueued
      (hrun.symm ▸ h.held.logged) ((congrArg first hrun).trans h.held.first_eq)
      ((congrArg next hrun).trans h.held.next_eq) (fun i e he => hrun ▸ he)
      (forall_mem_nil _) (fun x hx => by cases hx; exact htold)
    simp only [map_none, toList_none, List.append_nil]
    obtain ⟨e, he, hend⟩ := h.ends.resolve_left hlast
    refine ⟨hheld.1, { h.snapped with eq_of_get := fun e he => h.snapped.eq_of_get e ?_ },
      .inr ⟨e, ?_, hheld.2.trans hend⟩⟩
    · rw [← hsettled]
      exact he
    · rw [hsettled]
      exact he

end

/-! ## The theorem -/

variable {lim : AppendBatcher.Limits D} {t' : Trace D}

/-- **Every orderly step keeps the invariant.** -/
theorem Inv.step {ev : ManagerEvent D} (h : t.Inv) (hC : t.Orderly ev)
    (hstep : t.step lim ev = some t') : t'.Inv := by
  have hdisk : ∀ {lm' : LogManager D LogId}, lm'.Queued ∧ t.lm.SameLog lm' →
      Inv { t with lm := lm' } := fun hlm' => by
    have := h.sameLog hlm'.1 hlm'.2 [] (forall_mem_nil _)
    rw [List.append_nil] at this
    exact this
  cases ev with
  | appendTasks term data =>
    cases hstep
    exact h.appendTasks hC
  | appendEntries prevLogIndex entries =>
    cases hstep
    exact h.appendEntries hC
  | setSnapshot id =>
    cases hstep
    exact h.setSnapshot hC
  | clearBufferedLogs =>
    cases hstep
    exact h.clearBufferedLogs
  | setAppliedId id =>
    cases hstep
    exact h.setAppliedId hC
  | clearMemoryLogs thread =>
    obtain ⟨lm', hlm', rfl⟩ := map_eq_some_iff.mp hstep
    exact h.clearMemoryLogs hlm'
  | requestLastLogId =>
    cases hstep
    exact h.requestLastLogId
  | startBatch =>
    obtain ⟨lm', hlm', rfl⟩ := map_eq_some_iff.mp hstep
    exact hdisk (h.held.queued.startBatch hlm')
  | iterate =>
    obtain ⟨⟨lm', answer⟩, hlm', rfl⟩ := map_eq_some_iff.mp hstep
    obtain ⟨⟨hqueued, hsame⟩, hanswer⟩ := h.held.queued.iterate hlm'
    exact h.sameLog hqueued hsame _ fun p hp => hanswer p.1 p.2 (mem_toList.mp hp)
  | flush =>
    obtain ⟨lm', hlm', rfl⟩ := map_eq_some_iff.mp hstep
    exact hdisk (h.held.queued.flush hlm')
  | endBatch =>
    obtain ⟨lm', hlm', rfl⟩ := map_eq_some_iff.mp hstep
    exact hdisk (h.held.queued.endBatch hlm')

theorem Inv.init (s : Start D) : (init s).Inv := by
  have hsettled : (Trace.init s).lm.settled = s.storage := append_nil _
  have hnext : s.storage.next - 1 + 1 = s.storage.next := by
    have := s.first_pos
    unfold ListLog.next
    omega
  have hlogged : Logged s.storage [] [] := ⟨s.first_pos, s.indexed, s.term_pos, nil_suffix,
    forall_mem_nil _⟩
  have hdisk : ∀ e, s.storage.get (s.storage.next - 1) = some e →
      (Trace.init s).lm.diskId = e.id := by
    intro e he
    dsimp only [Trace.init, LogManager.start]
    rw [he, ← hlogged.index_of_get he]
    rfl
  have hbounded : Bounded (Trace.init s).seen (Trace.init s).lm.diskId := by
    cases hlast : s.storage.get (s.storage.next - 1) with
    | none =>
      left
      dsimp only [Trace.init, LogManager.start]
      rw [hlast]
      rfl
    | some e =>
      rw [hdisk e hlast]
      exact .inr (mem_cons_of_mem _ (mem_map_of_mem (mem_of_get hlast)))
  refine ⟨?_, ?_, ?_⟩
  · exact {
      logged := by
        rw [hsettled]
        exact hlogged
      first_eq := by
        rw [hsettled]
        rfl
      next_eq := by
        rw [hsettled]
        exact hnext.symm
      latest i e he := by
        rw [hsettled] at he
        obtain ⟨hle, -⟩ := range_of_get he
        rw [get_of_le hle] at he
        exact latest_of_le s.indexed hle he
      seen e he := by
        rw [hsettled] at he
        exact mem_cons_of_mem _ (mem_map_of_mem he)
      queued := {
        rising := Rising.cons_nil ⟨forall_mem_nil _, forall_mem_nil _, forall_mem_nil _, .nil⟩
        clearing := forall_mem_nil _
        answers := trivial }
      bounded := LogManager.forall_ids.mpr ⟨hbounded, hbounded,
        forall_mem_singleton.mpr (forall_mem_nil _)⟩
      answered := forall_mem_nil _ }
  · have hfirst := s.first_pos
    have hle := s.first_le
    have hlt := s.snapshot_lt
    exact {
      bounded := .inr mem_cons_self
      virtual_bounded := by
        dsimp only [Trace.init, LogManager.start]
        split_ifs
        · exact .inr mem_cons_self
        · exact .inl rfl
      virtual_lt := by
        dsimp only [Trace.init, LogManager.start]
        split_ifs with heq
        · omega
        · exact hfirst
      first_le := hle
      le_last := Nat.le_sub_one_of_lt hlt
      le_applied := le_rfl
      eq_of_get e he := by
        rw [hsettled] at he
        exact s.snapshot_eq e he
      virtual_eq := by
        dsimp only [Trace.init, LogManager.start]
        split_ifs with heq
        · exact fun _ => rfl
        · intro hzero
          dsimp only at hzero
          omega }
  · by_cases hempty : s.storage.first < s.storage.next
    · obtain ⟨e, he⟩ : ∃ e, s.storage.get (s.storage.next - 1) = some e :=
        exists_get (by omega) (by omega)
      refine .inr ⟨e, ?_, ?_⟩
      · rw [hsettled]
        exact he
      · rw [← hdisk e he]
        exact if_neg fun hself => hself.asymm hself
    · have := s.first_le
      have := s.snapshot_lt
      refine .inl ?_
      dsimp only [Trace.init, LogManager.start]
      omega

theorem Inv.reachable {s : Start D} (h : ((system lim s).restrict Orderly).Reachable t) :
    t.Inv := by
  refine h.invariant ?_ ?_
  · rintro t rfl
    exact Inv.init s
  · rintro t ev t' ⟨hC, hstep⟩ hinv
    exact hinv.step hC hstep

/-- **Reads return what was last written.** In every run whose steps are orderly, whatever the
interleaving of appends, snapshots, applied ids, clearing and the disk thread: for every index of
the log, `get_entry` and `get_term` return the entry most recently appended there and its term, and
each caller of `last_log_id(true)` is told the last id of the moment when it asked. -/
theorem reads_last_written {s : Start D} (h : ((system lim s).restrict Orderly).Reachable t) :
    (∀ i, t.lm.firstLogIndex ≤ i → i ≤ t.lm.lastLogIndex →
      ∃ e, latest t.appended i = some e ∧ t.lm.getEntry i = some e ∧
        t.lm.unsafeGetTerm i = e.id.term) ∧
      ∀ asked told, (asked, told) ∈ t.answered → told = asked := by
  have hinv := Inv.reachable h
  refine ⟨fun i hfirst hlast => ?_, fun asked told hmem => hinv.held.answered _ hmem⟩
  obtain ⟨e, he⟩ := hinv.held.exists_get hfirst hlast
  exact ⟨e, hinv.held.latest i e he, LogManager.getEntry_eq hinv.held.logged
    hinv.held.first_eq hinv.held.next_eq he, hinv.held.getTerm hinv.snapped he⟩

namespace Sample

def limits : AppendBatcher.Limits ℕ := ⟨256, 262144, fun _ => 1⟩

/-- A new node. -/
def fresh : Start ℕ where
  storage := ⟨1, []⟩
  snapshot := ⟨0, 0⟩
  first_pos := Nat.one_pos
  indexed := fun j e he => by cases he
  term_pos := forall_mem_nil _
  first_le := le_rfl
  snapshot_lt := Nat.one_pos
  snapshot_eq := fun e he => by cases he

def after (events : List (ManagerEvent ℕ)) : Trace ℕ :=
  (events.foldlM (step limits) (init fresh)).getD (init fresh)

/-- A batch of the disk thread with two closures. -/
def batch : List (ManagerEvent ℕ) := [.startBatch, .iterate, .iterate, .flush, .endBatch]

/-- An entry of term `3` is written and replaced by one of term `4`, with another one after it. The
last log id is asked for before the disk thread comes to them. They are applied, a snapshot is taken
and the memory is cleared. -/
def rising : List (ManagerEvent ℕ) :=
  [.appendEntries 0 [(3, 0)], .startBatch, .iterate, .flush, .endBatch,
    .appendEntries 0 [(4, 1), (4, 2)], .requestLastLogId] ++ batch ++
  [.startBatch, .iterate, .endBatch, .setAppliedId ⟨2, 4⟩, .setSnapshot ⟨1, 4⟩, .clearMemoryLogs 3]

/-- An entry of term `3` is written, and replaced by one of term `2` that is applied before it is
written. -/
def falling : List (ManagerEvent ℕ) :=
  [.appendEntries 0 [(3, 0)], .startBatch, .iterate, .flush, .endBatch, .clearMemoryLogs 0,
    .appendEntries 0 [(2, 1)], .setAppliedId ⟨1, 2⟩, .clearMemoryLogs 0]

/-- The last log id is asked for when all is written. -/
def asking : List (ManagerEvent ℕ) := falling ++ batch ++ [.requestLastLogId, .startBatch, .iterate]

end Sample

open Trace.Sample

theorem reads_last_written_rising : (after rising).lm.logsInMemory = [] ∧
      (after rising).lm.getEntry 1 = some ⟨⟨1, 4⟩, 1⟩ ∧
      (after rising).answered = [(⟨2, 4⟩, ⟨2, 4⟩)] ∧
      ∃ e, latest (after rising).appended 2 = some e ∧ (after rising).lm.getEntry 2 = some e := by
  have hrun : rising.foldlM (System.guardStep Orderly (step limits))
      (init fresh) = some (after rising) := rfl
  have hreach : ((system limits fresh).restrict Orderly).Reachable
      (after rising) := ⟨_, rfl, System.run_restrict_of_foldlM hrun⟩
  obtain ⟨e, hlatest, hget, -⟩ := (reads_last_written hreach).1 2 (by decide) (by decide)
  exact ⟨rfl, rfl, rfl, e, hlatest, hget⟩

/-- **A replaced entry is read.** The log has the entry of term `2` at index `1`. It has left the
memory, as its id is not above the id on disk, and the storage still has the entry of term `3`. Once
it is written, the id of the replaced entry is still told as the last log id. -/
theorem stale_read : (system limits fresh).Reachable (after falling) ∧
      latest (after falling).appended 1 = some ⟨⟨1, 2⟩, 1⟩ ∧
      (after falling).lm.getEntry 1 = some ⟨⟨1, 3⟩, 0⟩ ∧
      (after falling).lm.unsafeGetTerm 1 = 3 ∧
      (system limits fresh).Reachable (after asking) ∧
      (after asking).answered = [(⟨1, 2⟩, ⟨1, 3⟩)] := by
  have hfalling : falling.foldlM (step limits) (init fresh) = some (after falling) := rfl
  have hasking : asking.foldlM (step limits) (init fresh) = some (after asking) := rfl
  exact ⟨⟨_, rfl, System.run_of_foldlM hfalling⟩, rfl, rfl, rfl,
    ⟨_, rfl, System.run_of_foldlM hasking⟩, rfl⟩

end Trace

end Braft.Storage
