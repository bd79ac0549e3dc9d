import Nori.Braft.LogManager

/-!
# Entries of a leader

What `append_entries` does with a part of a leader's log. Where the logs have an entry of the same
term at one place, they agree up to there, so that the log is cut off exactly where it parts from
the leader's, and the entries are laid over it. Appending and the disk thread do what they do in
`Storage.LogManager`.
-/

namespace Braft

open List Option

/-- A call of `unsafe_truncate_suffix` by `check_and_resolve_conflict`: its argument, the last
applied index and the log at that time, and the entries that conflict with the log, the first of
which follows on `prevLogIndex`. -/
structure Truncation (D : Type) where
  lastIndexKept : ℕ
  appliedIndex : ℕ
  logs : List (LogEntry D)
  prevLogIndex : ℕ
  entries : List (LogEntry D)

/-- The log is not cut off before the last applied entry, and no entry that the leader has sent is
cut off if the log has one of its term in the same place. -/
structure Truncation.Safe {D : Type} (t : Truncation D) : Prop where
  applied : t.appliedIndex ≤ t.lastIndexKept
  matching : ∀ j e e', t.entries[j]? = some e → t.logs[t.prevLogIndex + j]? = some e' →
    e'.term = e.term → t.prevLogIndex + j + 1 ≤ t.lastIndexKept

namespace LogManager

/-- The log can be read from the first of some entries on: those that are said to begin at `1` come
before the log is compacted, or do not go beyond what is applied. -/
def Readable {D κ ι : Type} (lm : LogManager D κ ι) (prevLogIndex lastLogIndex : ℕ) : Prop :=
  prevLogIndex = 0 → lm.firstLogIndex ≤ 2 ∨ lastLogIndex ≤ lm.appliedId.index

instance {D κ ι : Type} (lm : LogManager D κ ι) (prevLogIndex lastLogIndex : ℕ) :
    Decidable (lm.Readable prevLogIndex lastLogIndex) :=
  inferInstanceAs (Decidable (_ → _ ∨ _))

variable {D κ ι : Type} {lm lm' : LogManager D κ ι} {book entries : List (LogEntry D)} {prev : ℕ}
  {done : κ}

/-! ## The part that is sent -/

/-- The log of a follower, and the part of the leader's log that it is sent. -/
structure Sent (lm : LogManager D κ ι) (book : List (LogEntry D)) (prev : ℕ)
    (entries : List (LogEntry D)) : Prop where
  length_le : prev + entries.length ≤ book.length
  entries_eq : ∀ j, j < entries.length → entries[j]? = book[prev + j]?
  matching : ∀ i e e', lm.logs[i]? = some e → book[i]? = some e' → e.term = e'.term →
    lm.logs.take (i + 1) = book.take (i + 1)
  pos : ∀ e ∈ book, 0 < e.term
  prev_le : prev ≤ lm.logs.length
  take_prev : lm.logs.take prev = book.take prev

namespace Sent

theorem take_append (h : Sent lm book prev entries) {c : ℕ} (hc : c ≤ entries.length) :
    book.take (prev + c) ++ entries.drop c = book.take (prev + entries.length) := by
  have hle := h.length_le
  refine ext_getElem? fun i => ?_
  rcases lt_or_ge i (prev + c) with hi | hi
  · rw [getElem?_append_left (by rw [length_take]; omega),
      getElem?_take_of_lt hi, getElem?_take_of_lt (by omega)]
  · have hlen : (book.take (prev + c)).length = prev + c := by rw [length_take]; omega
    rw [getElem?_append_right (by omega), hlen, getElem?_drop]
    rcases lt_or_ge i (prev + entries.length) with hi' | hi'
    · rw [getElem?_take_of_lt hi', h.entries_eq _ (by omega)]
      congr 1
      omega
    · rw [getElem?_eq_none (by omega), getElem?_eq_none (by rw [length_take]; omega)]

theorem take_of_termAt (h : Sent lm book prev entries) {j : ℕ} {e : LogEntry D}
    (he : entries[j]? = some e) (hterm : termAt lm.logs (prev + j + 1) = e.term) :
    lm.logs.take (prev + j + 1) = book.take (prev + j + 1) := by
  have hj : j < entries.length := (List.getElem?_eq_some_iff.mp he).1
  have hbook : book[prev + j]? = some e := (h.entries_eq j hj).symm.trans he
  have hpos := h.pos e (mem_of_getElem? hbook)
  rw [termAt_succ] at hterm
  cases hlog : lm.logs[prev + j]? with
  | none =>
    rw [hlog] at hterm
    simp only [map_none, getD_none] at hterm
    omega
  | some e' =>
    rw [hlog] at hterm
    exact h.matching _ e' e hlog hbook hterm

end Sent

theorem conflictingIndex_le (lm : LogManager D κ ι) (index : ℕ) (es : List (LogEntry D)) :
    lm.conflictingIndex index es ≤ es.length := by
  induction es generalizing index with
  | nil => exact le_rfl
  | cons e es ih =>
    unfold conflictingIndex
    split
    · exact Nat.succ_le_succ (ih _)
    · exact Nat.zero_le _

theorem unsafeGetTerm_of_lt_conflictingIndex {index j : ℕ} {es : List (LogEntry D)}
    (hj : j < lm.conflictingIndex index es) :
    ∃ e, es[j]? = some e ∧ lm.unsafeGetTerm (index + j) = e.term := by
  induction es generalizing index j with
  | nil => exact absurd hj (Nat.not_lt_zero _)
  | cons e es ih =>
    unfold conflictingIndex at hj
    split at hj
    next hterm =>
      cases j with
      | zero => exact ⟨e, rfl, hterm⟩
      | succ j =>
        obtain ⟨e', he', hterm'⟩ := ih (Nat.lt_of_succ_lt_succ hj)
        exact ⟨e', he', by rw [← hterm', Nat.add_assoc, Nat.add_comm 1 j]⟩
    next => exact absurd hj (Nat.not_lt_zero _)

theorem unsafeGetTerm_conflictingIndex {index : ℕ} {es : List (LogEntry D)}
    (h : lm.conflictingIndex index es < es.length) :
    ∃ e, es[lm.conflictingIndex index es]? = some e ∧
      lm.unsafeGetTerm (index + lm.conflictingIndex index es) ≠ e.term := by
  induction es generalizing index with
  | nil => exact absurd h (Nat.not_lt_zero _)
  | cons e es ih =>
    unfold conflictingIndex at h ⊢
    by_cases hterm : lm.unsafeGetTerm index = e.term
    · simp only [if_pos hterm] at h ⊢
      obtain ⟨e', he', hne⟩ := ih (Nat.lt_of_succ_lt_succ h)
      have hindex : index + (lm.conflictingIndex (index + 1) es + 1) =
          index + 1 + lm.conflictingIndex (index + 1) es := by omega
      refine ⟨e', he', ?_⟩
      rw [hindex]
      exact hne
    · simp only [if_neg hterm]
      exact ⟨e, rfl, hterm⟩

/-! ## Where the logs part -/

section

variable (h : Sent lm book prev entries)
  (hreads : ∀ index, prev < index → lm.unsafeGetTerm index = termAt lm.logs index)
include h hreads

theorem Sent.take_conflictingIndex {c : ℕ} (hc : c ≤ lm.conflictingIndex (prev + 1) entries) :
    lm.logs.take (prev + c) = book.take (prev + c) := by
  cases c with
  | zero => exact h.take_prev
  | succ j =>
    obtain ⟨e, he, hterm⟩ := unsafeGetTerm_of_lt_conflictingIndex hc
    refine h.take_of_termAt he ?_
    rw [← hterm, ← hreads _ (by omega), Nat.add_right_comm]

theorem Sent.getElem?_ne (hc : lm.conflictingIndex (prev + 1) entries < entries.length) :
    lm.logs[prev + lm.conflictingIndex (prev + 1) entries]? ≠
      book[prev + lm.conflictingIndex (prev + 1) entries]? := by
  obtain ⟨e, he, hne⟩ := unsafeGetTerm_conflictingIndex hc
  intro hsame
  refine hne ?_
  rw [hreads _ (by omega), Nat.add_right_comm, termAt_succ, hsame, ← h.entries_eq _ hc, he]
  rfl

theorem Sent.parts (hc : lm.conflictingIndex (prev + 1) entries < entries.length) :
    ¬ book.take (prev + entries.length) <+: lm.logs := by
  rintro ⟨R, hR⟩
  have hlen := h.length_le
  refine h.getElem?_ne hreads hc ?_
  rw [← hR, getElem?_append_left (by rw [length_take]; omega), getElem?_take_of_lt (by omega)]

theorem Sent.le_of_termAt (hc : lm.conflictingIndex (prev + 1) entries < entries.length) {j : ℕ}
    {e : LogEntry D}
    (he : entries[j]? = some e) (hterm : termAt lm.logs (prev + j + 1) = e.term) :
    prev + j + 1 ≤ prev + lm.conflictingIndex (prev + 1) entries := by
  by_contra hlt
  refine h.getElem?_ne hreads hc ?_
  rw [← getElem?_take_of_lt (l := lm.logs) (j := prev + j + 1) (by omega),
    h.take_of_termAt he hterm, getElem?_take_of_lt (by omega)]

theorem Sent.applied_le (happlied : lm.appliedId.index ≤ lm.logs.length)
    (hbook : lm.logs.take lm.appliedId.index <+: book)
    (hc : lm.conflictingIndex (prev + 1) entries < entries.length) :
    lm.appliedId.index ≤ prev + lm.conflictingIndex (prev + 1) entries := by
  by_contra hlt
  obtain ⟨R, hR⟩ := hbook
  refine h.getElem?_ne hreads hc ?_
  rw [← hR, getElem?_append_left (by rw [length_take]; omega), getElem?_take_of_lt (by omega)]

/-- **The log parts from the leader's after what is applied,** and after all that they have in
common. -/
theorem Sent.safe (happlied : lm.appliedId.index ≤ lm.logs.length)
    (hbook : lm.logs.take lm.appliedId.index <+: book)
    (hc : lm.conflictingIndex (prev + 1) entries < entries.length) :
    Truncation.Safe ⟨prev + lm.conflictingIndex (prev + 1) entries, lm.appliedId.index, lm.logs,
      prev, entries⟩ := by
  refine ⟨h.applied_le hreads happlied hbook hc, fun j e e' he he' hterm => ?_⟩
  refine h.le_of_termAt hreads hc he ?_
  rw [termAt_succ, he']
  exact hterm

end

/-! ## What becomes of the log -/

/-- The log once conflicting entries are gone, and the entries still to be appended: none where the
log begins with all that was sent, otherwise those that complete it. The disk thread may have to cut
the log back to a beginning of it. -/
structure Resolved (lm : LogManager D κ ι) (book entries : List (LogEntry D)) (prev : ℕ)
    (lm₁ : LogManager D κ ι) (kept : Option ℕ) (last : ℕ) (rest : List (LogEntry D)) : Prop where
  same : lm₁ = { lm with
    logs := lm₁.logs
    logsInMemory := lm₁.logsInMemory
    diskQueue := lm₁.diskQueue }
  held : ∃ m, lm₁.HeldFrom m
  applied_le : lm.appliedId.index ≤ lm₁.logs.length
  tasks : ∀ task ∈ lm₁.diskQueue, task ∈ lm.diskQueue ∨
    ∃ k ≤ lm.logs.length, task = .truncateSuffix k (termAt lm.logs k)
  kept : ∀ k, kept = some k → Truncation.Safe ⟨k, lm.appliedId.index, lm.logs, prev, entries⟩
  logs : rest = [] ∧ lm₁.logs = lm.logs ∧ last = lm.logs.length ∧
      book.take (prev + entries.length) <+: lm.logs ∨
    rest ≠ [] ∧ lm₁.logs ++ rest = book.take (prev + entries.length) ∧
      last = prev + entries.length ∧ ¬ book.take (prev + entries.length) <+: lm.logs

section

variable (h : Sent lm book prev entries) (hlegible : lm.Legible)
  (hreads : lm.virtualFirstLogId.index ≤ prev + 1 ∨ prev + entries.length ≤ lm.appliedId.index)
  (hne : entries ≠ []) (happlied : lm.appliedId.index ≤ lm.logs.length)
  (hbook : lm.logs.take lm.appliedId.index <+: book)
include h hlegible hreads hne happlied hbook

theorem checkAndResolveConflict_cases :
    lm.checkAndResolveConflict (prev + 1) entries = .error .applied ∧
        book.take (prev + entries.length) <+: lm.logs ∨
      ∃ lm₁ kept last rest,
        lm.checkAndResolveConflict (prev + 1) entries = .ok (lm₁, kept, last, rest) ∧
        Resolved lm book entries prev lm₁ kept last rest := by
  have hpos : 0 < entries.length := length_pos_of_ne_nil hne
  have hlen := h.length_le
  have hprev := h.prev_le
  have hlast : prev + 1 + entries.length - 1 = prev + entries.length := by omega
  unfold checkAndResolveConflict
  simp only [hlast]
  have hlength : lm.lastLogIndex = lm.logs.length := rfl
  rw [if_neg (by omega)]
  by_cases hall : prev + entries.length ≤ lm.appliedId.index
  · rw [if_pos hall]
    have hpre := take_prefix (prev + entries.length) book
    refine .inl ⟨rfl, (prefix_of_prefix_length_le hpre hbook ?_).trans ?_⟩
    · rw [length_take, length_take]
      omega
    · exact take_prefix _ _
  rw [if_neg hall]
  refine .inr ?_
  by_cases hfast : prev + 1 = lm.lastLogIndex + 1
  · rw [if_pos hfast]
    have hlogs : lm.logs = book.take prev := by rw [← h.take_prev, take_of_length_le (by omega)]
    refine ⟨_, _, _, _, rfl, rfl, hlegible.held, happlied, fun _ => .inl, nofun,
      .inr ⟨hne, ?_, rfl, ?_⟩⟩
    · rw [hlogs]
      exact h.take_append (Nat.zero_le _)
    · intro hpre
      have hle := hpre.length_le
      rw [length_take] at hle
      omega
  rw [if_neg hfast]
  have hexact : ∀ index, prev < index → lm.unsafeGetTerm index = termAt lm.logs index :=
    fun index hindex => hlegible.unsafeGetTerm_eq ((hreads.resolve_right hall).trans hindex)
  have hcle := conflictingIndex_le lm (prev + 1) entries
  have htake := h.take_conflictingIndex hexact le_rfl
  by_cases hfull : lm.conflictingIndex (prev + 1) entries = entries.length
  · rw [if_pos hfull]
    rw [hfull] at htake
    exact ⟨_, _, _, _, rfl, rfl, hlegible.held, happlied, fun _ => .inl, nofun,
      .inl ⟨rfl, rfl, rfl, htake ▸ take_prefix _ _⟩⟩
  rw [if_neg hfull]
  have hc : lm.conflictingIndex (prev + 1) entries < entries.length := by omega
  have hparts := h.parts hexact hc
  have hkept := h.applied_le hexact happlied hbook hc
  have hsafe := h.safe hexact happlied hbook hc
  set c := lm.conflictingIndex (prev + 1) entries
  have hreach : prev + c ≤ lm.logs.length := by
    have heq := congrArg length htake
    rw [length_take, length_take] at heq
    omega
  have hrest : entries.drop c ≠ [] := by
    rw [Ne, drop_eq_nil_iff]
    omega
  have hwhole := h.take_append hc.le
  rw [← htake] at hwhole
  by_cases hin : prev + 1 + c ≤ lm.lastLogIndex
  · have hindex : prev + 1 + c - 1 = prev + c := by omega
    obtain ⟨m, hm⟩ := hlegible.held
    rw [if_pos hin, hindex, hlegible.unsafeTruncateSuffix_eq hkept]
    refine ⟨_, _, _, _, rfl, rfl, ⟨m, hm.truncate hkept _⟩, ?_, fun task htask => ?_, ?_,
      .inr ⟨hrest, hwhole, rfl, hparts⟩⟩
    · rw [length_take, min_eq_left hreach]
      exact hkept
    · rcases mem_append.mp htask with htask | htask
      · exact .inl htask
      · exact .inr ⟨prev + c, hreach, mem_singleton.mp htask⟩
    · rintro k ⟨⟩
      exact hsafe
  · rw [if_neg hin]
    rw [take_of_length_le (by omega)] at hwhole
    exact ⟨_, _, _, _, rfl, rfl, hlegible.held, happlied, fun _ => .inl, nofun,
      .inr ⟨hrest, hwhole, rfl, hparts⟩⟩

/-- **The entries of a leader are laid over the log,** unless the log has applied all of them. The
disk thread may have to cut the log back to a beginning of it, and has to write entries up to the
new end, if any. -/
theorem appendEntries_cases (done : κ) :
    lm.appendEntries (prev + 1) entries done = .error .applied ∧
        book.take (prev + entries.length) <+: lm.logs ∨
      ∃ logs memory queue kept, lm.appendEntries (prev + 1) entries done =
          .ok ({ lm with logs := logs, logsInMemory := memory, diskQueue := queue }, kept) ∧
        logs = Consensus.overlay lm.logs (book.take (prev + entries.length)) ∧
        (∃ m, HeldFrom { lm with logs := logs, logsInMemory := memory, diskQueue := queue } m) ∧
        (∀ k, kept = some k → Truncation.Safe ⟨k, lm.appliedId.index, lm.logs, prev, entries⟩) ∧
        ∀ task ∈ queue, task ∈ lm.diskQueue ∨
          (∃ k ≤ lm.logs.length, task = .truncateSuffix k (termAt lm.logs k)) ∨
          ∃ first rest, task = .stable first rest done ∧
            ∀ id, writtenId first rest id = id ∨ writtenId first rest id = LogId.last logs := by
  have hsent : (book.take (prev + entries.length)).length = prev + entries.length := by
    rw [length_take, min_eq_left h.length_le]
  unfold appendEntries
  rcases checkAndResolveConflict_cases h hlegible hreads hne happlied hbook with
    ⟨herror, hpre⟩ | ⟨lm₁, kept, last, rest, hok, hres⟩
  · rw [herror]
    exact .inl ⟨rfl, hpre⟩
  rw [hok]
  obtain ⟨logs₁, memory₁, queue₁, rfl⟩ : ∃ logs memory queue, lm₁ = { lm with
      logs := logs, logsInMemory := memory, diskQueue := queue } := ⟨_, _, _, hres.same⟩
  obtain ⟨m, hm⟩ := hres.held
  -- what is appended completes the log, so that its indexes follow on those in memory
  have hfirst : rest ≠ [] → prev + 1 + entries.length - rest.length = logs₁.length + 1 := by
    intro hrest
    rcases hres.logs with ⟨hnil, -⟩ | ⟨-, hlogs, -⟩
    · exact absurd hnil hrest
    · have hlen := congrArg length hlogs
      rw [length_append, hsent] at hlen
      dsimp only at hlen
      omega
  have hlogs : Consensus.overlay lm.logs (book.take (prev + entries.length)) = logs₁ ++ rest ∧
      (logs₁ ++ rest).take last = logs₁ ++ rest := by
    rcases hres.logs with ⟨rfl, hlogs, rfl, hpre⟩ | ⟨-, hlogs, rfl, hnot⟩
    · dsimp only at hlogs
      rw [Consensus.overlay, if_pos hpre, append_nil, hlogs, take_length]
      exact ⟨rfl, rfl⟩
    · dsimp only at hlogs
      rw [Consensus.overlay, if_neg hnot, hlogs, take_of_length_le hsent.le]
      exact ⟨rfl, rfl⟩
  refine .inr ⟨_, _, _, kept, rfl, hlogs.2.trans hlogs.1.symm, ⟨m, ?_⟩, hres.kept,
    fun task htask => ?_⟩
  · dsimp only
    rw [hlogs.2]
    exact hm.append hres.applied_le hfirst done
  · rcases mem_append.mp htask with htask | htask
    · exact (hres.tasks task htask).imp_right .inl
    · refine .inr (.inr ⟨_, rest, mem_singleton.mp htask, fun id => ?_⟩)
      by_cases hrest : rest = []
      · subst hrest
        exact .inl rfl
      · refine .inr ?_
        rw [hfirst hrest, writtenId_eq hrest, hlogs.2]

end

/-! ## The log manager between memory and disk -/

section

open LogEntry
open Storage (DiskClosure AppendBatcher)

variable {first : ℕ}

theorem dropWhile_unsafeGetTerm (lm : LogManager D κ ι) (es : List (LogEntry D)) (first : ℕ) :
    ((es.zipIdx first).map numbered).dropWhile
        (fun e => lm.toStorage.unsafeGetTerm e.id.index = e.id.term) =
      ((es.drop (lm.conflictingIndex first es)).zipIdx
        (first + lm.conflictingIndex first es)).map numbered := by
  induction es generalizing first with
  | nil => rfl
  | cons e es ih =>
    by_cases hterm : lm.unsafeGetTerm first = e.term
    · rw [conflictingIndex, if_pos hterm, zipIdx_cons, map_cons,
        dropWhile_cons_of_pos (by exact decide_eq_true hterm), ih, Nat.add_right_comm]
      rfl
    · rw [conflictingIndex, if_neg hterm, zipIdx_cons, map_cons,
        dropWhile_cons_of_neg (by exact mt of_decide_eq_true hterm)]
      rfl

theorem unsafeTruncateSuffix_toStorage {kept : ℕ} (hkept : kept ≤ lm.logs.length) :
    lm.toStorage.unsafeTruncateSuffix kept = (lm.unsafeTruncateSuffix kept).toStorage := by
  unfold unsafeTruncateSuffix Storage.LogManager.unsafeTruncateSuffix
  rw [toStorage_appliedId]
  split_ifs
  · rfl
  · have hmemory : (lm.logsInMemory.map numbered).rdropWhile (fun e => kept < e.id.index) =
        (lm.logsInMemory.rdropWhile fun e => kept < e.2).map numbered := by
      rw [rdropWhile, ← map_reverse, dropWhile_map, ← map_reverse]
      rfl
    simp only [unsafeGetTerm, toStorage, lastLogIndex, length_take_of_le hkept, hmemory, map_append]
    rfl

theorem append_toStorage (lm : LogManager D κ ι) {first first' : ℕ} (hfirst : first' = first)
    (lastIndex : ℕ) (rest : List (LogEntry D)) (hlast : lastIndex ≤ lm.logs.length + rest.length)
    (done : κ) :
    { lm.toStorage with
        logsInMemory := lm.toStorage.logsInMemory ++ (rest.zipIdx first).map numbered
        diskQueue := lm.toStorage.diskQueue ++
          [DiskClosure.stable ((rest.zipIdx first).map numbered)]
        lastLogIndex := lastIndex } =
      toStorage { lm with
        logs := (lm.logs ++ rest).take lastIndex
        logsInMemory := lm.logsInMemory ++ rest.zipIdx first'
        diskQueue := lm.diskQueue ++ [.stable first' rest done] } := by
  have hlen : ((lm.logs ++ rest).take lastIndex).length = lastIndex :=
    length_take_of_le (length_append ▸ hlast)
  simp only [toStorage, lastLogIndex, map_append, hlen, hfirst]
  rfl

/-- Entries beyond the log are never there already. -/
theorem conflictingIndex_le_last (hpos : ∀ e ∈ entries, 0 < e.term)
    (hnew : ∀ index, lm.logs.length < index → lm.unsafeGetTerm index = 0)
    (hfirst : first ≤ lm.logs.length + 1) :
    first + lm.conflictingIndex first entries ≤ lm.logs.length + 1 := by
  by_contra hlt
  obtain ⟨e, he, hterm⟩ := unsafeGetTerm_of_lt_conflictingIndex
    (show lm.logs.length + 1 - first < lm.conflictingIndex first entries by omega)
  have hzero := hnew (first + (lm.logs.length + 1 - first)) (by omega)
  have hterm' := hpos e (mem_of_getElem? he)
  omega

/-- **The log manager of a group appends what the one between memory and disk does,** and cuts off
the same entries before. -/
theorem appendEntries_toStorage (hfirst : first ≠ 0) (hentries : entries ≠ [])
    (hpos : ∀ e ∈ entries, 0 < e.term)
    (hnew : ∀ index, lm.logs.length < index → lm.unsafeGetTerm index = 0) (done : κ) :
    (lm.toStorage.appendEntries ((entries.zipIdx first).map numbered)).1 =
      match lm.appendEntries first entries done with
      | .ok (lm', _) => lm'.toStorage
      | .error _ => lm.toStorage := by
  have hlen := length_pos_of_ne_nil hentries
  unfold appendEntries checkAndResolveConflict Storage.LogManager.appendEntries
    Storage.LogManager.checkAndResolveConflict
  rw [head?_map, getLast?_map, head?_zipIdx, getLast?_zipIdx, head?_eq_some_head hentries,
    getLast?_eq_some_getLast hentries, toStorage_lastLogIndex, toStorage_appliedId, lastLogIndex]
  dsimp only [map_some, numbered]
  rw [if_neg hfirst]
  by_cases hgap : lm.logs.length + 1 < first
  · simp only [if_pos hgap]
    rfl
  by_cases happlied : first + entries.length - 1 ≤ lm.appliedId.index
  · simp only [if_neg hgap, if_pos happlied]
    rfl
  by_cases hnext : first = lm.logs.length + 1
  · simp only [if_neg hgap, if_neg happlied, if_pos hnext]
    exact append_toStorage lm (Nat.add_sub_cancel ..) _ entries (by omega) done
  simp only [if_neg hgap, if_neg happlied, if_neg hnext, dropWhile_unsafeGetTerm]
  have hle := conflictingIndex_le lm first entries
  have hconflict := conflictingIndex_le_last hpos hnew (not_lt.mp hgap)
  generalize lm.conflictingIndex first entries = k at hconflict hle ⊢
  by_cases hall : k = entries.length
  · rw [if_pos hall, hall, drop_length]
    exact append_toStorage lm rfl lm.logs.length [] le_rfl done
  obtain ⟨e, rest, hrest⟩ : ∃ e rest, entries.drop k = e :: rest :=
    exists_cons_of_ne_nil (by rw [ne_eq, drop_eq_nil_iff]; omega)
  have hat : first + entries.length - (e :: rest).length = first + k := by
    rw [← hrest, length_drop]
    omega
  rw [if_neg hall, hrest, zipIdx_cons, map_cons]
  dsimp only [numbered]
  by_cases hcut : first + k ≤ lm.logs.length
  · have hkept : first + k - 1 ≤ (lm.unsafeTruncateSuffix (first + k - 1)).logs.length := by
      unfold unsafeTruncateSuffix
      split_ifs
      · omega
      · exact (length_take_of_le (by omega)).ge
    have hle' : first + k - 1 ≤ lm.logs.length := by omega
    simp only [if_pos hcut, unsafeTruncateSuffix_toStorage hle']
    exact append_toStorage _ hat _ (e :: rest) (by omega) done
  · simp only [if_neg hcut]
    exact append_toStorage _ hat _ (e :: rest) (by omega) done

/-- So it does with tasks of the leader itself, which come without an index. -/
theorem appendTasks_toStorage (hentries : entries ≠ []) (done : ℕ → κ) :
    (lm.toStorage.appendEntries (entries.map fun e => numbered (e, 0))).1 =
      (lm.appendTasks entries done).toStorage := by
  have hnumber : (entries.map fun e => numbered (e, 0)).mapIdx (fun i e =>
        { e with id := ⟨lm.logs.length + 1 + i, e.id.term⟩ }) =
      (entries.zipIdx (lm.logs.length + 1)).map numbered := by
    refine ext_getElem? fun i => ?_
    simp only [getElem?_mapIdx, getElem?_map, getElem?_zipIdx, Option.map_map]
    rfl
  unfold Storage.LogManager.appendEntries Storage.LogManager.checkAndResolveConflict
  rw [head?_map, getLast?_map, head?_eq_some_head hentries, getLast?_eq_some_getLast hentries,
    toStorage_lastLogIndex, lastLogIndex]
  simp only [map_some, numbered, if_true] at hnumber ⊢
  rw [hnumber, length_map]
  refine (append_toStorage lm rfl _ entries le_rfl (done (lm.logs.length + 1))).trans ?_
  rw [take_of_length_le length_append.le]
  rfl

/-- **The disk thread does the same with a task,** if it writes the entries of a closure at once. -/
theorem diskTask_toStorage {task : DiskTask D κ ι} {rest : List (DiskTask D κ ι)} {id : LogId}
    {lim : AppendBatcher.Limits (EntryData D)} (hlim : ¬ AppendBatcher.empty.full lim)
    (hqueue : lm.diskQueue = task :: rest) (hlast : lm.lastId = some id)
    (hfirst : ∀ first e es done, task = .stable first (e :: es) done →
      first = lm.storage.length + 1) :
    (lm.toStorage.iterate lim).map (fun r => r.1.flush.getD r.1) =
      some (lm.diskTask task rest id).toStorage := by
  obtain ⟨_, _, _, _, _, _, _, _, _, storage⟩ := lm
  cases hqueue
  cases hlast
  cases task with
  | stable first entries done =>
    cases entries with
    | nil =>
      rw [diskTask, append_nil]
      rfl
    | cons e es =>
      obtain rfl : first = storage.length + 1 := hfirst first e es done rfl
      have hentries : ((storage ++ e :: es).zipIdx 1).map numbered =
          (storage.zipIdx 1).map numbered ++
            ((e :: es).zipIdx (storage.length + 1)).map numbered := by
        rw [zipIdx_append, map_append, Nat.add_comm 1]
      have hid : writtenId (storage.length + 1) (e :: es) id =
          ((((e :: es).zipIdx (storage.length + 1)).map numbered).getLast?.map (·.id)).getD id := by
        rw [getLast?_map, getLast?_zipIdx, writtenId, getLast?_eq_some_getLast (cons_ne_nil e es)]
        rfl
      refine (congrArg (Option.map _) (if_neg hlim)).trans ?_
      simp only [diskTask, toStorage, hentries, hid]
      rfl
  | lastLogId caller => rfl
  | truncateSuffix kept term =>
    have htake : ((storage.take kept).zipIdx 1).map numbered =
        ((storage.zipIdx 1).map numbered).take kept := by
      refine ext_getElem? fun i => ?_
      simp only [getElem?_take, getElem?_map, getElem?_zipIdx]
      split_ifs <;> rfl
    simp only [diskTask, toStorage, htake]
    rfl

end

end LogManager

end Braft
