import Nori.Braft.Storage.LogManager

/-!
# The log once the queue is done

What the disk thread still has to do turns the storage into the log that the log manager stands for
(`settled`). Its entries are in memory until they are written, so reads see it.
-/

namespace Braft.Storage

open Container ListLog List

/-! ## Entries with consecutive indexes -/

section Indexed

variable {D : Type} {L : List (LogEntry D)} {f k : ℕ}

/-- The entries have the indexes from `f` on. -/
def Indexed (f : ℕ) (L : List (LogEntry D)) : Prop := ∀ j e, L[j]? = some e → e.id.index = f + j

theorem Indexed.tail {e : LogEntry D} (h : Indexed f (e :: L)) : Indexed (f + 1) L := fun j e' he =>
  (h (j + 1) e' he).trans (by omega)

theorem Indexed.head {e : LogEntry D} (h : Indexed f (e :: L)) : e.id.index = f := h 0 e rfl

theorem Indexed.right {K : List (LogEntry D)} (h : Indexed f (K ++ L)) :
    Indexed (f + K.length) L := fun j e he => by
  have := h (K.length + j) e (by
    rw [getElem?_append_right (by omega), Nat.add_sub_cancel_left]
    exact he)
  omega

theorem Indexed.left {K : List (LogEntry D)} (h : Indexed f (K ++ L)) : Indexed f K :=
  fun j e he => h j e (by
    rw [List.getElem?_append_left (List.getElem?_eq_some_iff.mp he).1]
    exact he)

theorem Indexed.getElem?_of_mem {e : LogEntry D} (h : Indexed f L) (he : e ∈ L) :
    f ≤ e.id.index ∧ L[e.id.index - f]? = some e := by
  obtain ⟨j, hj⟩ := mem_iff_getElem?.mp he
  have hindex := h j e hj
  refine ⟨by omega, ?_⟩
  rw [hindex, Nat.add_sub_cancel_left]
  exact hj

theorem Indexed.dropWhile (h : Indexed f L) :
    (L.dropWhile fun e => e.id.index < k) = L.drop (k - f) := by
  induction L generalizing f with
  | nil => simp
  | cons e L ih =>
    rcases lt_or_ge f k with hf | hf
    · rw [dropWhile_cons_of_pos (by simpa [h.head] using hf), ih h.tail]
      rw [show k - f = k - (f + 1) + 1 by omega, drop_succ_cons]
    · rw [dropWhile_cons_of_neg (by simpa [h.head] using hf), Nat.sub_eq_zero_of_le hf, drop_zero]

theorem Indexed.rdropWhile (h : Indexed f L) :
    (L.rdropWhile fun e => k < e.id.index) = L.take (k + 1 - f) := by
  induction L using reverseRecOn with
  | nil => simp
  | append_singleton L e ih =>
    have hindex : e.id.index = f + L.length := h.right.head
    rcases lt_or_ge k e.id.index with hk | hk
    · rw [rdropWhile_concat_pos _ _ _ (by simpa using hk), ih h.left,
        take_append_of_le_length (by omega)]
    · rw [rdropWhile_concat_neg _ _ _ (by simpa using hk), take_of_length_le]
      rw [length_append, length_singleton]
      omega

end Indexed

/-! ## What is still to be done -/

namespace DiskClosure

variable {D ι : Type}

/-- What the closure does to the storage. -/
def op : DiskClosure D ι → ListLog.Op (LogEntry D)
  | .stable entries => .append entries
  | .lastLogId _ => .append []
  | .truncatePrefix k => .truncatePrefix k
  | .truncateSuffix k _ => .truncateSuffix k
  | .reset n => .reset n

def entries : DiskClosure D ι → List (LogEntry D)
  | .stable entries => entries
  | _ => []

@[simp] theorem added_op (c : DiskClosure D ι) : c.op.added = c.entries := by cases c <;> rfl

/-- The ids that the disk thread may have as last id on account of the closure. -/
def marks : DiskClosure D ι → List LogId
  | .stable entries => entries.map LogEntry.id
  | .truncateSuffix k t => [⟨k, t⟩]
  | _ => []

end DiskClosure

namespace LogManager

variable {D ι : Type} (lm : LogManager D ι)

/-- What the batcher has not written yet. -/
def buffered : List (LogEntry D) := lm.batch.elim [] fun b => b.2.toAppend

/-- The last id of the batch, or with which the next batch begins. -/
def currentId : LogId := lm.batch.elim lm.diskId Prod.fst

def pending : List (DiskClosure D ι) := .stable lm.buffered :: lm.diskQueue

def settled : ListLog (LogEntry D) := lm.storage.runAll (lm.pending.map DiskClosure.op)

/-- Entries that are not in the storage yet. -/
def unwritten : List (LogEntry D) := lm.pending.flatMap DiskClosure.entries

/-- The disk thread has another closure to run. -/
structure Enqueued (lm' : LogManager D ι) (c : DiskClosure D ι) : Prop where
  storage : lm'.storage = lm.storage
  batch : lm'.batch = lm.batch
  diskId : lm'.diskId = lm.diskId
  clearing : lm'.clearing = lm.clearing
  queue : lm'.diskQueue = lm.diskQueue ++ [c]

variable {lm} {lm' : LogManager D ι} {c : DiskClosure D ι}

theorem Enqueued.pending (h : lm.Enqueued lm' c) : lm'.pending = lm.pending ++ [c] := by
  unfold LogManager.pending buffered
  rw [h.batch, h.queue, cons_append]

theorem Enqueued.settled (h : lm.Enqueued lm' c) : lm'.settled = lm.settled.run c.op := by
  unfold LogManager.settled
  rw [h.storage, h.pending, map_append, runAll, foldl_append]
  rfl

end LogManager

/-! ## Memory and storage -/

section Logged

variable {D ι : Type} {A : ListLog (LogEntry D)} {U M : List (LogEntry D)}

/-- The settled log `A`, of which the memory `M` has the end and at least all that is not written
yet, `U`. -/
structure Logged (A : ListLog (LogEntry D)) (U M : List (LogEntry D)) : Prop where
  first_pos : 0 < A.first
  indexed : Indexed A.first A.entries
  term_pos : ∀ e ∈ A.entries, 0 < e.id.term
  memory : M <:+ A.entries
  unwritten : ∀ e ∈ U, e ∈ A.entries → e ∈ M

namespace Logged

theorem index_of_get (h : Logged A U M) {i : ℕ} {e : LogEntry D} (he : A.get i = some e) :
    e.id.index = i := by
  obtain ⟨hfirst, -⟩ := range_of_get he
  rw [get_of_le hfirst] at he
  have := h.indexed _ e he
  omega

theorem append {es : List (LogEntry D)} (h : Logged A U M) (hindexed : Indexed A.next es)
    (hpos : ∀ e ∈ es, 0 < e.id.term) : Logged (A.append es) (U ++ es) (M ++ es) := { h with
  indexed j e he := by
    dsimp only [ListLog.append] at he ⊢
    rw [getElem?_append] at he
    split_ifs at he with hj
    · exact h.indexed j e he
    · have := hindexed _ e he
      dsimp only [ListLog.next] at this
      omega
  term_pos e he := (mem_append.mp he).elim (h.term_pos e) (hpos e)
  memory := by
    obtain ⟨K, hK⟩ := h.memory
    exact ⟨K, by rw [← append_assoc, hK]; rfl⟩
  unwritten e he hmem := by
    refine mem_append.mpr ?_
    rcases mem_append.mp hmem with hmem | hmem
    · rcases mem_append.mp he with he | he
      · exact .inl (h.unwritten e he hmem)
      · exact .inr he
    · exact .inr hmem }

theorem truncateSuffix (h : Logged A U M) (k : ℕ) :
    Logged (A.truncateSuffix k) U (M.rdropWhile fun e => k < e.id.index) := by
  obtain ⟨K, hK⟩ := h.memory
  have hindexed := h.indexed
  rw [← hK] at hindexed
  have hentries : (A.truncateSuffix k).entries = A.entries.take (k + 1 - A.first) := rfl
  exact { h with
    indexed j e he := by
      rw [hentries] at he
      refine h.indexed j e ?_
      rw [getElem?_take] at he
      split_ifs at he with hj
      exact he
    term_pos e he := h.term_pos e (mem_of_mem_take he)
    memory := by
      rw [hindexed.right.rdropWhile, hentries, ← hK, take_append]
      refine ⟨K.take (k + 1 - A.first), ?_⟩
      congr 2
      omega
    unwritten e he hmem := by
      have hM := h.unwritten e he (mem_of_mem_take hmem)
      -- the entry lies before the cut
      have hk : e.id.index ≤ k := by
        obtain ⟨j, hj⟩ := mem_iff_getElem?.mp hmem
        rw [hentries, getElem?_take] at hj
        split_ifs at hj with hlt
        have := h.indexed j e hj
        omega
      obtain ⟨hle, hget⟩ := hindexed.right.getElem?_of_mem hM
      rw [hindexed.right.rdropWhile]
      refine mem_iff_getElem?.mpr ⟨_, (getElem?_take_of_lt ?_).trans hget⟩
      omega }

theorem truncatePrefix (h : Logged A U M) {k : ℕ} (hk : A.first ≤ k) :
    Logged (A.truncatePrefix k) U (M.dropWhile fun e => e.id.index < k) := by
  obtain ⟨K, hK⟩ := h.memory
  have hindexed := h.indexed
  rw [← hK] at hindexed
  have hfirst : (A.truncatePrefix k).first = k := by
    rw [first_truncatePrefix]
    exact max_eq_right hk
  have hentries : (A.truncatePrefix k).entries = A.entries.drop (k - A.first) := by
    unfold ListLog.truncatePrefix
    split_ifs with hle
    · rw [Nat.sub_eq_zero_of_le hle, drop_zero]
    · rfl
  exact {
    first_pos := by
      rw [hfirst]
      exact h.first_pos.trans_le hk
    indexed j e he := by
      rw [hentries, getElem?_drop] at he
      rw [hfirst]
      have := h.indexed _ e he
      omega
    term_pos e he := by
      rw [hentries] at he
      exact h.term_pos e (mem_of_mem_drop he)
    memory := by
      rw [hindexed.right.dropWhile, hentries, ← hK, drop_append]
      refine ⟨K.drop (k - A.first), ?_⟩
      congr 2
      omega
    unwritten e he hmem := by
      rw [hentries] at hmem
      have hM := h.unwritten e he (mem_of_mem_drop hmem)
      have hle : k ≤ e.id.index := by
        obtain ⟨j, hj⟩ := mem_iff_getElem?.mp hmem
        rw [getElem?_drop] at hj
        have := h.indexed _ e hj
        omega
      obtain ⟨-, hget⟩ := hindexed.right.getElem?_of_mem hM
      rw [hindexed.right.dropWhile]
      refine mem_iff_getElem?.mpr ⟨e.id.index - max k (A.first + K.length), ?_⟩
      rw [getElem?_drop, ← hget]
      congr 1
      omega }

theorem reset {n : ℕ} (hn : 0 < n) (U : List (LogEntry D)) :
    Logged (ListLog.reset n : ListLog (LogEntry D)) U [] where
  first_pos := hn
  indexed := nofun
  term_pos := nofun
  memory := nil_suffix
  unwritten := nofun

theorem drop (h : Logged A U M) {n : ℕ} (hwritten : ∀ e ∈ M.take n, e ∉ U) :
    Logged A U (M.drop n) := { h with
  memory := (drop_suffix n M).trans h.memory
  unwritten e he hmem := by
    have hM := h.unwritten e he hmem
    rw [← take_append_drop n M] at hM
    rcases mem_append.mp hM with htake | hdrop
    · exact absurd he (hwritten e htake)
    · exact hdrop }

end Logged

namespace LogManager

variable {lm : LogManager D ι}

theorem mem_unwritten {op : ListLog.Op (LogEntry D)} (hop : op ∈ lm.pending.map DiskClosure.op)
    {e : LogEntry D} (he : e ∈ op.added) : e ∈ lm.unwritten := by
  obtain ⟨c, hc, rfl⟩ := mem_map.mp hop
  rw [DiskClosure.added_op] at he
  exact mem_flatMap.mpr ⟨c, hc, he⟩

section

variable (h : Logged lm.settled lm.unwritten lm.logsInMemory)
include h

/-- Entries that are found in memory are those of the settled log, and those that are not have been
written. -/
theorem getEntryFromMemory_cases {i : ℕ} {e : LogEntry D} (he : lm.settled.get i = some e) :
    lm.getEntryFromMemory i = some e ∨
      lm.getEntryFromMemory i = none ∧ lm.storage.get i = some e := by
  obtain ⟨K, hK⟩ := h.memory
  have hindexed := h.indexed
  rw [← hK] at hindexed
  have hindex := h.index_of_get he
  obtain ⟨hfirst, hnext⟩ := range_of_get he
  rcases lt_or_ge i (lm.settled.first + K.length) with hi | hi
  · refine .inr ⟨?_, ?_⟩
    · unfold getEntryFromMemory
      cases hM : lm.logsInMemory with
      | nil => rfl
      | cons m M =>
        rw [hM] at hindexed
        have hm := hindexed.right.head
        rw [head?_cons, getLast?_cons]
        exact if_neg (by omega)
    · -- an entry that is not written yet would be in memory
      have hwritten : e ∉ lm.unwritten := fun hmem => by
        have := (hindexed.right.getElem?_of_mem (h.unwritten e hmem (mem_of_get he))).1
        omega
      rcases get_runAll he with hget | ⟨op, hop, hadded⟩
      · exact hget
      · exact absurd (mem_unwritten hop hadded) hwritten
  · refine .inl ?_
    rw [get_of_le hfirst, ← hK, getElem?_append_right (by omega)] at he
    have hlen := (List.getElem?_eq_some_iff.mp he).1
    unfold getEntryFromMemory
    cases hM : lm.logsInMemory with
    | nil =>
      rw [hM] at hlen
      cases hlen
    | cons m M =>
      rw [hM] at hindexed he hlen
      have hm := hindexed.right.head
      have hlast : (m :: M).getLast? = (m :: M)[M.length]? := getLast?_eq_getElem?
      have hl := hindexed.right M.length ((m :: M)[M.length]) (getElem?_eq_getElem _)
      rw [head?_cons, hlast, getElem?_eq_getElem (by simp)]
      rw [length_cons] at hlen
      dsimp only
      rw [if_pos (by omega), ← he]
      congr 1
      omega

variable (hfirst : lm.settled.first = lm.firstLogIndex)
  (hnext : lm.settled.next = lm.lastLogIndex + 1)
include hfirst hnext

/-- Reads see the settled log. -/
theorem getEntry_eq
    {i : ℕ} {e : LogEntry D} (he : lm.settled.get i = some e) : lm.getEntry i = some e := by
  obtain ⟨hle, hlt⟩ := range_of_get he
  unfold getEntry
  rw [if_neg (by omega)]
  rcases getEntryFromMemory_cases h he with hmem | ⟨hmem, hget⟩
  · rw [hmem]
  · rw [hmem]
    exact hget

theorem unsafeGetTerm_eq (hvirtual : lm.virtualFirstLogId.index < lm.firstLogIndex)
    (hsnapshot : ∀ e, lm.settled.get lm.lastSnapshotId.index = some e → e.id = lm.lastSnapshotId)
    {i : ℕ} {e : LogEntry D} (he : lm.settled.get i = some e) : lm.unsafeGetTerm i = e.id.term := by
  obtain ⟨hle, hlt⟩ := range_of_get he
  have hpos := h.first_pos
  unfold unsafeGetTerm
  rw [if_neg (by omega), if_neg (by omega)]
  split_ifs with hindex hrange
  · rw [hindex] at he
    rw [hsnapshot e he]
  · omega
  · rcases getEntryFromMemory_cases h he with hmem | ⟨hmem, hget⟩
    · rw [hmem]
    · rw [hmem, hget]
      rfl

end

end LogManager

end Logged

end Braft.Storage
