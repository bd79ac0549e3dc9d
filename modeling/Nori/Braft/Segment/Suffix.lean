import Nori.Braft.Segment.Truncate

/-!
# Truncating the end of a log in segments

Segments behind the index are unlinked from the last one on, and the segment with the index is
truncated; a closed segment is renamed first, since it is open afterwards. It stays in the map. If
it is popped later, it is popped twice, and the second attempt to unlink it fails.
-/

namespace Braft.Segments

open Butil Files Container SegmentLogStorage Layout Chunk List Option

/-- A beginning of a log with all entries up to an index. -/
structure KeepsUpTo (k : ℕ) (log log' : ListLog LogEntry) : Prop where
  first : log'.first = log.first
  kept : (log.truncateSuffix k).entries <+: log'.entries
  isPrefix : log'.entries <+: log.entries

variable {cfg : Config} {P : Option ℕ → Table FileName → Prop} {L : Layout} {c : Chunk}
  {A B X Y : List Chunk} {s : SegmentLogStorage} {fs fs₁ fs' : Fs} {log : ListLog LogEntry}
  {listed : Bool} {record : Option ℕ} {a b k : ℕ}

theorem KeepsUpTo.refl (k : ℕ) (log : ListLog LogEntry) : KeepsUpTo k log log :=
  ⟨rfl, take_prefix _ _, prefix_rfl⟩

section

variable (hX : L.closed = X ++ Y) (hafter : ∀ c ∈ Y ++ L.current.toList, k < c.first)
  (hfinish : k < L.finish)
include hX hafter hfinish

theorem exists_end : ∃ m, Linked L.start X m ∧ k + 1 ≤ m := by
  have hlinked := L.linked
  rw [hX, append_assoc] at hlinked
  obtain ⟨m, hlinkedX, hlinkedY⟩ := linked_append.mp hlinked
  refine ⟨m, hlinkedX, ?_⟩
  cases hrest : Y ++ L.current.toList with
  | nil =>
    rw [hrest] at hlinkedY
    have : m = L.finish := hlinkedY
    omega
  | cons c rest =>
    rw [hrest] at hlinkedY
    have := hafter c (hrest ▸ mem_cons_self)
    have := hlinkedY.1
    omega

/-- The layout with the first segments only has all entries up to the index, if the others lie
behind it. -/
theorem recovers_closed :
    Recovers cfg (KeepsUpTo k L.log) (some L.first) (filesOf cfg X none []) := by
  obtain ⟨m, hlinkedX, hm⟩ := exists_end hX hafter hfinish
  have hne : ∀ c ∈ X, c.entries ≠ [] := fun c hc => L.nonempty c (hX ▸ mem_append_left Y hc)
  have hlinked' : Linked L.start (X ++ (none : Option Chunk).toList) m := by
    rwa [toList_none, append_nil]
  have hentries : entriesOf (X ++ (none : Option Chunk).toList) <+: L.entries := by
    unfold entries chunks
    rw [hX, append_assoc, toList_none, append_nil, entriesOf_append]
    exact prefix_append _ _
  exact (L.withChunks X none hlinked' hne).recovers cfg
    ⟨rfl, truncateSuffix_isPrefix hentries hm, log_withChunks_isPrefix hentries⟩

end

/-- So do the layouts that are passed while the segments behind the index are unlinked. -/
theorem recovers_unlinked (hsplit : L.closed = A ++ B)
    (hafter : ∀ c ∈ B ++ L.current.toList, k < c.first) (hfinish : k < L.finish)
    (B₁ B₂ : List Chunk)
    (hB : B = B₁ ++ B₂) :
    Recovers cfg (KeepsUpTo k L.log) (some L.first) (filesOf cfg (A ++ B₁) none []) := by
  subst hB
  rw [append_assoc] at hafter
  exact recovers_closed (by rw [hsplit, append_assoc])
    (fun c hc => hafter c (mem_append_right _ hc)) hfinish

theorem recovers_bare (hk : k + 1 ≤ L.first) :
    Recovers cfg (KeepsUpTo k L.log) (some L.first) (filesOf cfg [] none []) := by
  refine (bare L.first L.first_pos).recovers cfg ?_
  rw [log_bare]
  refine ⟨rfl, ?_, nil_prefix⟩
  show L.log.entries.take (k + 1 - L.first) <+: []
  rw [Nat.sub_eq_zero_of_le hk, take_zero]

/-! ## Popping -/

theorem popSegmentsFromBack_open (h : L.current = some c) (hc : c.first ≤ k) :
    (L.storage listed).popSegmentsFromBack k =
      ⟨[], some (c.segment true), { L.storage listed with lastLogIndex := k }⟩ := by
  unfold popSegmentsFromBack storage
  rw [h]
  exact if_pos hc

theorem popSegmentsFromBack_closed (hcurrent : ∀ c, L.current = some c → k < c.first)
    (hlisted : listed = true → L.current ≠ none) :
    ∃ A B, L.closed = A ++ B ∧ (∀ c ∈ B, k < c.first) ∧
      ((A = [] ∧ (L.storage listed).popSegmentsFromBack k =
          ⟨(L.storage listed).openPopped ++ (B.map (segment false)).reverse, none,
            ⟨k + 1, k, [], none, false⟩⟩) ∨
        ∃ A' a, A = A' ++ [a] ∧ a.first ≤ k ∧ (L.storage listed).popSegmentsFromBack k =
          ⟨(L.storage listed).openPopped ++ (B.map (segment false)).reverse, some (a.segment false),
            ⟨L.first, k, (A' ++ [a]).map (segment false), none, false⟩⟩) := by
  set isAfter : Segment → Bool := fun seg => k < seg.firstIndex with hisAfter
  set isAfter' : Chunk → Bool := fun c => k < c.first with hisAfter'
  have hrest : (L.closed.map (segment false)).rdropWhile isAfter =
      (L.closed.rdropWhile isAfter').map (segment false) := by
    unfold rdropWhile
    rw [← map_reverse, dropWhile_map, map_reverse]
    rfl
  have hpopped : (L.closed.map (segment false)).rtakeWhile isAfter =
      (L.closed.rtakeWhile isAfter').map (segment false) := by
    unfold rtakeWhile
    rw [← map_reverse, takeWhile_map, map_reverse]
    rfl
  have hpop : (L.storage listed).popSegmentsFromBack k = popListed k (L.storage listed).openPopped
        ⟨L.first, k, L.closed.map (segment false), none, false⟩ := by
    cases hcur : L.current with
    | none =>
      have hfalse : listed = false := Bool.eq_false_iff.mpr fun h => hlisted h hcur
      rw [openPopped_none hcur, hfalse]
      unfold popSegmentsFromBack storage
      rw [hcur]
      rfl
    | some c =>
      unfold popSegmentsFromBack storage
      rw [hcur]
      exact if_neg (not_le.mpr (hcurrent c hcur))
  have hafter : ∀ c ∈ L.closed.rtakeWhile isAfter', k < c.first := fun c hc => by
    have hc : isAfter' c = true := mem_rtakeWhile_imp hc
    exact of_decide_eq_true hc
  refine ⟨L.closed.rdropWhile isAfter', L.closed.rtakeWhile isAfter',
    (rdropWhile_append_rtakeWhile ..).symm, hafter, ?_⟩
  rw [hpop]
  unfold popListed
  dsimp only
  rw [hrest, hpopped]
  rcases eq_nil_or_concat' (L.closed.rdropWhile isAfter') with hA | ⟨A', a, hA⟩
  · refine .inl ⟨hA, ?_⟩
    rw [hA]
    rfl
  · refine .inr ⟨A', a, hA, ?_, ?_⟩
    · have hne : L.closed.rdropWhile isAfter' ≠ [] := by rw [hA]; simp
      have hget : (L.closed.rdropWhile isAfter').getLast hne = a :=
        Option.some.inj ((getLast?_eq_some_getLast hne).symm.trans (by rw [hA, getLast?_concat]))
      have hlast := rdropWhile_last_not isAfter' L.closed hne
      rw [hget] at hlast
      exact not_lt.mp fun h => hlast (decide_eq_true h)
    · rw [hA, map_append, map_singleton, getLast?_concat]

theorem unlinkWhile_popped (henv : cfg.env.Reliable) (hdisk : L.OnDisk cfg [] fs.disk)
    (hsplit : L.closed = A ++ B)
    (hb : P (some L.first) (filesOf cfg L.closed L.current []))
    (hP : ∀ B₁ B₂, B = B₁ ++ B₂ → P (some L.first) (filesOf cfg (A ++ B₁) none [])) :
    ∃ fs', unlinkWhile cfg ((L.storage false).openPopped ++
        (B.map (segment false)).reverse) fs = (true, fs') ∧
      fs.Reaches FileName.IsTmp P (some L.first) (filesOf cfg A none []) fs' := by
  obtain ⟨m, hlinked, -⟩ := linked_append.mp L.linked
  have hne := L.nonempty
  unfold Layout.OnDisk at hdisk
  rw [hsplit] at hdisk hlinked hne hb
  cases hcurrent : L.current with
  | none =>
    rw [hcurrent] at hdisk
    rw [openPopped_none hcurrent, nil_append]
    exact unlinkWhile_closed henv hdisk hlinked hne hP
  | some c =>
    rw [hcurrent] at hdisk hb
    obtain ⟨fs₁, hunlink, hshows₁, hvia₁⟩ := unlink_open henv hdisk hb (hP B [] (append_nil B).symm)
    obtain ⟨fs', hrest, hshows', hvia'⟩ := unlinkWhile_closed henv hshows₁ hlinked hne hP
    refine ⟨fs', ?_, hshows', hvia₁.trans hvia'⟩
    rw [openPopped_some hcurrent, if_neg Bool.false_ne_true, singleton_append, unlinkWhile, hunlink]
    exact hrest

/-! ## Truncating a segment -/

theorem encodeAll_take (getChecksum : GetChecksum) (kind : ChecksumType) (es : List LogEntry)
    (n : ℕ) : (encodeAll getChecksum kind es).take (size (es.take n)) =
      encodeAll getChecksum kind (es.take n) := by
  conv_lhs => rw [← take_append_drop n es, encodeAll_append]
  rw [← length_encodeAll getChecksum kind, take_append_drop]
  exact take_left

theorem truncate_size {isOpen : Bool} (hfirst : c.first ≤ k) (hnext : k + 1 < c.next) :
    (((c.segment isOpen).offsetAndTerm[k + 1 - c.first]?).map Prod.fst).getD 0 =
      size (c.entries.take (k + 1 - c.first)) := by
  unfold ListLog.next at hnext
  show (((offsetsFrom 0 c.entries)[k + 1 - c.first]?).map Prod.fst).getD 0 = _
  rw [offsetsFrom_getElem?, getElem?_eq_getElem (by omega)]
  exact Nat.zero_add _

theorem segment_take (hfirst : c.first ≤ k) (hnext : k + 1 < c.next) :
    (c.take (k + 1 - c.first)).segment true = ⟨c.first, k, true,
      size (c.entries.take (k + 1 - c.first)),
      (offsetsFrom 0 c.entries).take (k + 1 - c.first)⟩ := by
  unfold ListLog.next at hnext
  unfold Chunk.segment
  congr 1
  · show c.first + (c.entries.take (k + 1 - c.first)).length - 1 = k
    rw [length_take]
    omega
  · exact (offsetsFrom_take 0 c.entries _).symm

theorem truncate_of_le {isOpen : Bool} (h : c.next ≤ k + 1) :
    (c.segment isOpen).truncate cfg k fs = (true, c.segment isOpen, fs) := by
  refine if_pos ?_
  show c.next - 1 ≤ k
  omega

theorem truncate_of_reopen {isOpen : Bool} (hfirst : c.first ≤ k) (hnext : k + 1 < c.next)
    (hreopen : (c.segment isOpen).reopen cfg fs = (true, c.segment true, fs₁))
    (hexec : fs₁.exec cfg.env (.truncate (.inprogress c.first)
      (size (c.entries.take (k + 1 - c.first)))) = (true, fs')) :
    (c.segment isOpen).truncate cfg k fs =
      (true, (c.take (k + 1 - c.first)).segment true, fs') := by
  have hlast : ¬ (c.segment isOpen).lastIndex ≤ k := by
    show ¬ c.next - 1 ≤ k
    omega
  unfold Segment.truncate
  rw [if_neg hlast, hreopen]
  dsimp only
  rw [show (c.segment isOpen).firstIndex = c.first from rfl, truncate_size hfirst hnext,
    show (c.segment true).fileName = .inprogress c.first from rfl, hexec, segment_take hfirst hnext]
  rfl

theorem next_take (hfirst : c.first ≤ k) (hnext : k + 1 < c.next) :
    (c.take (k + 1 - c.first)).next = k + 1 := by
  unfold ListLog.next at hnext
  show c.first + (c.entries.take (k + 1 - c.first)).length = k + 1
  rw [length_take]
  omega

theorem truncate_open (henv : cfg.env.Reliable)
    (hshows : Shows FileName.IsTmp record (filesOf cfg A (some c) []) fs.disk)
    (hb : P record (filesOf cfg A (some c) []))
    (ha : P record (filesOf cfg A (some (c.take (k + 1 - c.first))) [])) :
    ∃ fs', fs.exec cfg.env (.truncate (.inprogress c.first)
        (size (c.entries.take (k + 1 - c.first)))) = (true, fs') ∧
      fs.Reaches FileName.IsTmp P record
        (filesOf cfg A (some (c.take (k + 1 - c.first))) []) fs' := by
  have hafter : filesOf cfg A (some (c.take (k + 1 - c.first))) [] =
      A.map (closedFile cfg) ++ (.inprogress c.first,
        (encodeAll cfg.getChecksum cfg.checksumType c.entries ++ []).take
          (size (c.entries.take (k + 1 - c.first)))) :: [] := by
    rw [append_nil, encodeAll_take]
    show A.map (closedFile cfg) ++ [(.inprogress c.first, _ ++ [])] = _
    rw [append_nil]
    rfl
  rw [hafter] at ha ⊢
  exact FileSystem.exec_truncate henv hshows Bool.false_ne_true
    (inprogress_notMem_append cfg A c.first) _ hb ha

theorem truncate_segment_open (henv : cfg.env.Reliable) (hfirst : c.first ≤ k)
    (hnext : k + 1 < c.next)
    (hshows : Shows FileName.IsTmp record (filesOf cfg A (some c) []) fs.disk)
    (hb : P record (filesOf cfg A (some c) []))
    (ha : P record (filesOf cfg A (some (c.take (k + 1 - c.first))) [])) :
    ∃ fs', (c.segment true).truncate cfg k fs =
        (true, (c.take (k + 1 - c.first)).segment true, fs') ∧
      fs.Reaches FileName.IsTmp P record
        (filesOf cfg A (some (c.take (k + 1 - c.first))) []) fs' := by
  obtain ⟨fs', hexec, hshows', hvia⟩ := truncate_open henv hshows hb ha
  exact ⟨fs', truncate_of_reopen hfirst hnext (if_pos rfl) hexec, hshows', hvia⟩

theorem truncate_segment_closed (henv : cfg.env.Reliable) (hfirst : c.first ≤ k)
    (hnext : k + 1 < c.next) (hlinked : Linked a (A ++ [c]) b) (hne : ∀ c ∈ A, c.entries ≠ [])
    (hshows : Shows FileName.IsTmp record (filesOf cfg (A ++ [c]) none []) fs.disk)
    (hb : P record (filesOf cfg (A ++ [c]) none []))
    (hm : P record (filesOf cfg A (some c) []))
    (ha : P record (filesOf cfg A (some (c.take (k + 1 - c.first))) [])) :
    ∃ fs', (c.segment false).truncate cfg k fs =
        (true, (c.take (k + 1 - c.first)).segment true, fs') ∧
      fs.Reaches FileName.IsTmp P record
        (filesOf cfg A (some (c.take (k + 1 - c.first))) []) fs' := by
  have hopen : filesOf cfg A (some c) [] = A.map (closedFile cfg) ++
      (.inprogress c.first, encodeAll cfg.getChecksum cfg.checksumType c.entries) :: [] := by
    show A.map (closedFile cfg) ++ [(.inprogress c.first, _ ++ [])] = _
    rw [append_nil]
  have hm' := hm
  rw [filesOf_concat] at hshows hb
  rw [hopen] at hm'
  obtain ⟨fs₁, hrename, hshows₁, hvia₁⟩ := FileSystem.exec_rename henv hshows
    (Segment.not_isTmp_fileName (c.segment false)) (last_notMem cfg hlinked hne)
    (inprogress_notMem_append cfg A c.first) hb hm'
  rw [← hopen] at hshows₁
  obtain ⟨fs', hexec, hshows', hvia⟩ := truncate_open henv hshows₁ hm ha
  have hreopen : (c.segment false).reopen cfg fs = (true, c.segment true, fs₁) := by
    unfold Segment.reopen
    rw [if_neg (show ¬ (c.segment false).isOpen = true from Bool.false_ne_true),
      show (c.segment false).firstIndex = c.first from rfl,
      show (c.segment false).fileName = .closed c.first (c.next - 1) from rfl, hrename]
    rfl
  exact ⟨fs', truncate_of_reopen hfirst hnext hreopen hexec, hshows', hvia₁.trans hvia⟩

/-! ## The operation -/

/-- A successful outcome: the log ends at the index, and so does any log that a crash leaves, or
later. -/
structure Truncated (cfg : Config) (k : ℕ) (log : ListLog LogEntry) (fs : Fs) (r : Outcome Bool) :
    Prop where
  ret : r.ret = true
  holds : ∃ L listed, Holds cfg r.storage r.fs.disk (log.truncateSuffix k) L listed
  passes : Passes cfg (KeepsUpTo k log) fs r.fs

theorem keepsUpTo_truncateSuffix (k : ℕ) (log : ListLog LogEntry) :
    KeepsUpTo k log (log.truncateSuffix k) := ⟨rfl, prefix_rfl, take_prefix _ _⟩

theorem eq_nil_of_linked (htidy : L.Tidy) (hlinked : Linked a A c.first)
    (hA : ∀ c' ∈ A, c' ∈ L.closed)
    (hc : c.first ≤ k) (hfirst : k < L.first) : A = [] := by
  refine eq_nil_iff_forall_not_mem.mpr fun c' hc' => ?_
  have := (hlinked.mem_range hc').2
  have := htidy.first_lt c' (mem_append_left _ (hA c' hc')) (L.nonempty c' (hA c' hc'))
  omega

theorem tidy_take (htidy : L.Tidy) (hA : ∀ c' ∈ A, c' ∈ L.closed) (hc : c.first ≤ k)
    (hnext : k + 1 < c.next) (hfirst : L.first ≤ k)
    (hlinked : Linked L.start (A ++ (some (c.take (k + 1 - c.first))).toList) (k + 1))
    (hne : ∀ c ∈ A, c.entries ≠ []) : (L.withChunks A _ hlinked hne).Tidy := by
  refine ⟨Nat.le_succ_of_le hfirst, forall_mem_append.mpr
    ⟨fun c' hc' => htidy.first_lt c' (mem_append_left _ (hA c' hc')),
      forall_mem_singleton.mpr fun _ => ?_⟩⟩
  rw [next_take hc hnext]
  exact Nat.lt_succ_of_le hfirst

theorem truncateSuffix_reset (hfirst : L.first = k + 1) :
    L.log.truncateSuffix k = (bare L.first L.first_pos).log := by
  rw [log_bare]
  show ListLog.mk L.first (L.log.entries.take (k + 1 - L.first)) = _
  rw [hfirst, Nat.sub_self, take_zero]

/-- An outcome without segments. -/
structure Emptied (cfg : Config) (k : ℕ) (L : Layout) (fs : Fs) (r : Outcome Bool) : Prop where
  ret : L.first < L.finish → r.ret = true
  storage : L.first = k + 1 → r.storage = ⟨L.first, k, [], none, false⟩
  shows : Shows FileName.IsTmp (some L.first) (filesOf cfg [] none []) r.fs.disk
  passes : Passes cfg (KeepsUpTo k L.log) fs r.fs

theorem Emptied.truncated {r : Outcome Bool} (h : Emptied cfg k L fs r) (hfirst : L.first = k + 1)
    (hne : L.first < L.finish) : Truncated cfg k L.log fs r := by
  refine ⟨h.ret hne, ⟨bare L.first L.first_pos, false, tidy_bare _, ?_, nofun, h.shows,
    (truncateSuffix_reset hfirst).symm⟩, h.passes⟩
  have hk : k = L.first - 1 := by omega
  rw [h.storage hfirst, hk]
  rfl

section Cases

variable (henv : cfg.env.Reliable) (htidy : L.Tidy) (hdisk : L.OnDisk cfg [] fs.disk)
include henv htidy hdisk

theorem truncateSuffix_open (hlisted : listed = true → L.current ≠ none)
    (hcurrent : L.current = some c) (hc : c.first ≤ k) (hfirst : L.first ≤ k)
    (hfinish : k < L.finish) :
    Truncated cfg k L.log fs ((L.storage listed).truncateSuffix cfg k fs) := by
  have hlinked := L.linked_current hcurrent
  have hop : (L.storage listed).truncateSuffix cfg k fs =
      match (c.segment true).truncate cfg k fs with
      | (ok, seg', fs) => ⟨ok, ⟨L.first, k, L.closed.map (segment false), some seg',
          listed⟩, fs⟩ := by
    unfold truncateSuffix
    rw [popSegmentsFromBack_open hcurrent hc]
    dsimp only
    rw [if_pos (show (L.storage listed).firstLogIndex ≤ k from hfirst)]
    unfold truncateLast storage
    rw [hcurrent]
    rfl
  rw [hop]
  by_cases hnext : c.next ≤ k + 1
  · -- nothing is behind the index
    have hk : k = L.finish - 1 := by omega
    rw [truncate_of_le hnext]
    refine ⟨rfl, ⟨L, listed, htidy, ?_, hlisted, hdisk, ?_⟩, .refl hdisk (.refl k L.log)⟩
    · unfold storage
      rw [hcurrent, ← hk]
      rfl
    · exact (ListLog.truncateSuffix_of_next_le (by rw [htidy.next_log]; omega)).symm
  · replace hnext : k + 1 < c.next := not_le.mp hnext
    have hlinked' : Linked L.start (L.closed ++ (some (c.take (k + 1 - c.first))).toList) (k + 1) :=
      linked_concat.mpr ⟨hlinked.1, next_take hc hnext⟩
    have hentries : entriesOf (L.closed ++ (some (c.take (k + 1 - c.first))).toList) <+:
        L.entries := by
      unfold entries chunks
      rw [hcurrent, entriesOf_append, entriesOf_append, prefix_append_right_inj]
      show c.entries.take _ ++ [] <+: c.entries ++ []
      rw [append_nil, append_nil]
      exact take_prefix _ _
    have hlog : (L.withChunks L.closed _ hlinked' L.nonempty).log = L.log.truncateSuffix k :=
      log_withChunks_eq hentries (Nat.le_succ_of_le hfirst) rfl
    have hbefore := L.recovers cfg (KeepsUpTo.refl k L.log)
    have hafter := (L.withChunks L.closed _ hlinked' L.nonempty).recovers (Q := KeepsUpTo k L.log)
      cfg (by rw [hlog]; exact keepsUpTo_truncateSuffix k L.log)
    have hshows := hdisk
    unfold Layout.OnDisk at hshows
    rw [hcurrent] at hshows hbefore
    obtain ⟨fs', htruncate, hdisk', hvia⟩ :=
      truncate_segment_open henv hc hnext hshows hbefore hafter
    rw [htruncate]
    have htidy' := tidy_take htidy (fun _ h => h) hc hnext hfirst hlinked' L.nonempty
    exact ⟨rfl, ⟨_, listed, htidy', rfl, nofun, hdisk', hlog⟩, hvia⟩

theorem truncateSuffix_open_all (hcurrent : L.current = some c) (hc : c.first ≤ k)
    (hfirst : k + 1 ≤ L.first) :
    Emptied cfg k L fs ((L.storage listed).truncateSuffix cfg k fs) := by
  have hclosed : L.closed = [] := eq_nil_of_linked htidy (L.linked_current hcurrent).1
    (fun _ h => h) hc (by omega)
  have hshows := hdisk
  have hbefore := L.recovers cfg (KeepsUpTo.refl k L.log)
  unfold Layout.OnDisk at hshows
  rw [hcurrent, hclosed] at hshows hbefore
  obtain ⟨fs', hunlink, hshows', hvia⟩ := unlink_open henv hshows hbefore (recovers_bare hfirst)
  have hbehind : ¬ (L.storage listed).firstLogIndex ≤ k := by
    show ¬ L.first ≤ k
    omega
  have hop : (L.storage listed).truncateSuffix cfg k fs =
      ⟨true, ⟨L.first, k, [], none, false⟩, fs'⟩ := by
    unfold truncateSuffix
    rw [popSegmentsFromBack_open hcurrent hc]
    dsimp only
    rw [if_neg hbehind, nil_append, unlinkWhile, hunlink]
    unfold dropLastSegment storage
    rw [hcurrent, hclosed]
    rfl
  rw [hop]
  exact ⟨fun _ => rfl, fun _ => rfl, hshows', hvia⟩

omit htidy in
theorem truncateSuffix_all (hafter : ∀ c ∈ L.closed ++ L.current.toList, k < c.first)
    (hfinish : k < L.finish)
    (hpop : (L.storage false).popSegmentsFromBack k =
      ⟨(L.storage false).openPopped ++ (L.closed.map (segment false)).reverse, none,
        ⟨k + 1, k, [], none, false⟩⟩) :
    Emptied cfg k L fs ((L.storage false).truncateSuffix cfg k fs) := by
  obtain ⟨fs', hunlink, hshows', hvia⟩ := unlinkWhile_popped (A := []) (B := L.closed) henv hdisk
    rfl (L.recovers cfg (KeepsUpTo.refl k L.log)) (recovers_unlinked rfl hafter hfinish)
  have hpopped : L.first < L.finish →
      (L.storage false).openPopped ++ (L.closed.map (segment false)).reverse ≠ [] := by
    intro hne hnil
    obtain ⟨hopen, hclosed⟩ := append_eq_nil_iff.mp hnil
    have hlinked := L.linked
    rw [map_eq_nil_iff.mp (reverse_eq_nil_iff.mp hclosed)] at hlinked
    cases hcurrent : L.current with
    | none =>
      rw [hcurrent] at hlinked
      have : L.start = L.finish := hlinked
      have := L.start_le
      omega
    | some c =>
      rw [openPopped_some hcurrent] at hopen
      cases hopen
  unfold truncateSuffix
  rw [hpop]
  dsimp only
  rw [hunlink]
  refine ⟨fun hne => ?_, fun hfirst => ?_, hshows', hvia⟩
  · rw [decide_eq_true (hpopped hne)]
    rfl
  · rw [hfirst]

section Closed

variable {c : Chunk} (hsplit : L.closed = (A ++ [c]) ++ B)
  (hafter : ∀ c ∈ B ++ L.current.toList, k < c.first) (hc : c.first ≤ k)
  (hfinish : k < L.finish)
  (hpop : (L.storage false).popSegmentsFromBack k =
    ⟨(L.storage false).openPopped ++ (B.map (segment false)).reverse,
      some (c.segment false), ⟨L.first, k, (A ++ [c]).map (segment false), none, false⟩⟩)
include hsplit hafter hc hfinish hpop

theorem truncateSuffix_closed_all (hfirst : k + 1 ≤ L.first) :
    Emptied cfg k L fs ((L.storage false).truncateSuffix cfg k fs) := by
  have hlinked := L.linked
  rw [hsplit, append_assoc, append_assoc] at hlinked
  obtain ⟨m, hlinkedA, rfl, -⟩ := linked_append.mp hlinked
  obtain rfl : A = [] := eq_nil_of_linked htidy hlinkedA
    (fun c' hc' => by rw [hsplit]; simp [hc']) hc (by omega)
  have hclosed : L.closed = [] ++ (c :: B) := hsplit
  obtain ⟨fs', hunlink, hshows', hvia⟩ :=
    unlinkWhile_popped (A := []) (B := c :: B) henv hdisk hclosed
    (L.recovers cfg (KeepsUpTo.refl k L.log)) fun B₁ B₂ hB => by
      cases B₁ with
      | nil => exact recovers_bare hfirst
      | cons c' B₁ =>
        obtain ⟨rfl, hB'⟩ := cons.inj hB
        exact recovers_unlinked hsplit hafter hfinish B₁ B₂ hB'
  have hop : (L.storage false).truncateSuffix cfg k fs =
      ⟨true, ⟨L.first, k, [], none, false⟩, fs'⟩ := by
    unfold truncateSuffix
    rw [hpop]
    dsimp only
    rw [if_neg (show ¬ L.first ≤ k by omega), append_assoc]
    rw [map_cons, reverse_cons] at hunlink
    rw [hunlink]
    rfl
  rw [hop]
  exact ⟨fun _ => rfl, fun _ => rfl, hshows', hvia⟩

theorem truncateSuffix_closed (hfirst : L.first ≤ k) :
    Truncated cfg k L.log fs ((L.storage false).truncateSuffix cfg k fs) := by
  obtain ⟨m, hlinked, hm⟩ := exists_end hsplit hafter hfinish
  obtain ⟨hlinkedA, rfl⟩ := linked_concat.mp hlinked
  have hA : ∀ c' ∈ A ++ [c], c' ∈ L.closed := fun c' hc' => hsplit ▸ mem_append_left B hc'
  have hne : ∀ c' ∈ A ++ [c], c'.entries ≠ [] := fun c' hc' => L.nonempty c' (hA c' hc')
  have hneA : ∀ c' ∈ A, c'.entries ≠ [] := fun c' hc' => hne c' (mem_append_left _ hc')
  have hbefore : Recovers cfg (KeepsUpTo k L.log) (some L.first) (filesOf cfg (A ++ [c]) none []) :=
    recovers_closed hsplit hafter hfinish
  obtain ⟨fs₁, hunlink, hshows₁, hvia₁⟩ := unlinkWhile_popped henv hdisk hsplit
    (L.recovers cfg (KeepsUpTo.refl k L.log)) (recovers_unlinked hsplit hafter hfinish)
  have hop : (L.storage false).truncateSuffix cfg k fs = truncateLast cfg k (c.segment false)
        ⟨L.first, k, (A ++ [c]).map (segment false), none, false⟩ fs₁ := by
    unfold truncateSuffix
    rw [hpop]
    dsimp only
    rw [if_pos hfirst, hunlink]
  have hlast : ((A ++ [c]).map (segment false)).dropLast = A.map (segment false) := by
    rw [map_append, map_singleton, dropLast_concat]
  have hentries : ∀ c' : Chunk, c'.entries <+: c.entries → entriesOf (A ++ [c']) <+: L.entries := by
    intro c' hc'
    unfold entries chunks
    rw [hsplit, entriesOf_append, append_assoc, append_assoc, entriesOf_append,
      prefix_append_right_inj, entriesOf_cons, entriesOf_nil, append_nil,
      singleton_append, entriesOf_cons]
    exact hc'.trans (prefix_append _ _)
  rw [hop]
  by_cases hnext : c.next ≤ k + 1
  · -- nothing is behind the index in this segment
    have hk : c.next = k + 1 := by omega
    have hlinked' : Linked L.start (A ++ [c] ++ (none : Option Chunk).toList) c.next := by
      rw [toList_none, append_nil]
      exact hlinked
    have hlog : (L.withChunks (A ++ [c]) none hlinked' hne).log = L.log.truncateSuffix k :=
      log_withChunks_eq (by
        rw [toList_none, append_nil]
        exact hentries c prefix_rfl) (Nat.le_succ_of_le hfirst) hk
    have hres : truncateLast cfg k (c.segment false)
        ⟨L.first, k, (A ++ [c]).map (segment false), none, false⟩ fs₁ =
        ⟨true, ⟨L.first, k, (A ++ [c]).map (segment false), none, false⟩, fs₁⟩ := by
      unfold truncateLast
      rw [truncate_of_le hnext]
      show Outcome.mk true (mk L.first k
        (((A ++ [c]).map (segment false)).dropLast ++ [c.segment false]) none false) fs₁ = _
      rw [hlast, map_append, map_singleton]
    rw [hres]
    refine ⟨rfl, ⟨L.withChunks (A ++ [c]) none hlinked' hne, false, ⟨?_, ?_⟩, ?_, nofun, hshows₁,
      hlog⟩, hvia₁⟩
    · show L.first ≤ c.next
      omega
    · intro c' hc' hne'
      have hc' : c' ∈ A ++ [c] := by simpa [withChunks, chunks] using hc'
      exact htidy.first_lt c' (mem_append_left _ (hA c' hc')) hne'
    · have hk' : k = c.next - 1 := by omega
      show mk L.first k _ none false = ⟨L.first, c.next - 1, _, none, false⟩
      exact congrArg (fun last => mk L.first last ((A ++ [c]).map (segment false)) none false) hk'
  · replace hnext : k + 1 < c.next := not_le.mp hnext
    have hlinked₁ : Linked L.start (A ++ (some c).toList) c.next := hlinked
    have hlinked₂ : Linked L.start (A ++ (some (c.take (k + 1 - c.first))).toList) (k + 1) :=
      linked_concat.mpr ⟨hlinkedA, next_take hc hnext⟩
    have hlog : (L.withChunks A _ hlinked₂ hneA).log = L.log.truncateSuffix k :=
      log_withChunks_eq (hentries _ <| take_prefix _ _) (Nat.le_succ_of_le hfirst) rfl
    have hmid := (L.withChunks A _ hlinked₁ hneA).recovers (Q := KeepsUpTo k L.log) cfg
      ⟨rfl, truncateSuffix_isPrefix (hentries c prefix_rfl) hm,
        log_withChunks_isPrefix (hentries c prefix_rfl)⟩
    have hend := (L.withChunks A _ hlinked₂ hneA).recovers (Q := KeepsUpTo k L.log) cfg
      (by rw [hlog]; exact keepsUpTo_truncateSuffix k L.log)
    obtain ⟨fs', htruncate, hdisk', hvia'⟩ := truncate_segment_closed henv hc hnext hlinked hneA
      hshows₁ hbefore hmid hend
    have hres : truncateLast cfg k (c.segment false)
        ⟨L.first, k, (A ++ [c]).map (segment false), none, false⟩ fs₁ =
        ⟨true, (L.withChunks A _ hlinked₂ hneA).storage true, fs'⟩ := by
      unfold truncateLast
      rw [htruncate]
      show Outcome.mk true (mk L.first k (((A ++ [c]).map (segment false)).dropLast) _ true) fs' = _
      rw [hlast]
      rfl
    have htidy' := tidy_take htidy (fun c' hc' => hA c' (mem_append_left _ hc')) hc hnext hfirst
      hlinked₂ hneA
    rw [hres]
    exact ⟨rfl, ⟨_, true, htidy', rfl, nofun, hdisk', hlog⟩, hvia₁.trans hvia'⟩

end Closed

end Cases

theorem truncateSuffix_cases (henv : cfg.env.Reliable) (h : Holds cfg s fs.disk log L listed)
    (hlast : k < log.next) (hok : listed = true → ∀ c, L.current = some c → c.first ≤ k) :
    Truncated cfg k log fs (s.truncateSuffix cfg k fs) ∨
      k + 1 ≤ L.first ∧ Emptied cfg k L fs (s.truncateSuffix cfg k fs) := by
  obtain ⟨htidy, rfl, hlisted, hdisk, rfl⟩ := h
  rw [htidy.next_log] at hlast
  by_cases hcurrent : ∃ c, L.current = some c ∧ c.first ≤ k
  · obtain ⟨c, hcurrent, hc⟩ := hcurrent
    by_cases hk : L.first ≤ k
    · exact .inl (truncateSuffix_open henv htidy hdisk hlisted hcurrent hc hk hlast)
    · have hk := not_le.mp hk
      exact .inr ⟨hk, truncateSuffix_open_all henv htidy hdisk hcurrent hc hk⟩
  · have hbehind : ∀ c, L.current = some c → k < c.first := fun c hc =>
      not_le.mp fun hle => hcurrent ⟨c, hc, hle⟩
    obtain rfl : listed = false := Bool.eq_false_iff.mpr fun h => by
      obtain ⟨c, hc⟩ := ne_none_iff_exists'.mp (hlisted h)
      exact hcurrent ⟨c, hc, hok h c hc⟩
    obtain ⟨A, B, hsplit, hB, hcases⟩ := popSegmentsFromBack_closed hbehind hlisted
    have hafter : ∀ c ∈ B ++ L.current.toList, k < c.first :=
      forall_mem_append.mpr ⟨hB, fun c hc => hbehind c (mem_toList.mp hc)⟩
    rcases hcases with ⟨rfl, hpop⟩ | ⟨A', a, rfl, ha, hpop⟩
    · rw [nil_append] at hsplit
      rw [← hsplit] at hafter hpop
      obtain ⟨m, hm, hle⟩ := exists_end (X := []) rfl hafter hlast
      have hm : L.start = m := hm
      have hstart := L.start_le
      exact .inr ⟨by omega, truncateSuffix_all henv hdisk hafter hlast hpop⟩
    · by_cases hk : L.first ≤ k
      · exact .inl (truncateSuffix_closed henv htidy hdisk hsplit hafter ha hlast hpop hk)
      · have hk := not_le.mp hk
        exact .inr ⟨hk, truncateSuffix_closed_all henv htidy hdisk hsplit hafter ha hlast hpop hk⟩

/-- **Truncating the end.** The log ends at the index afterwards, if the open segment is not popped
while it is in the map; a crash leaves a beginning of the log with all entries up to the index. -/
theorem truncateSuffix_spec (henv : cfg.env.Reliable) (h : Holds cfg s fs.disk log L listed)
    (hfirst : log.first ≤ k + 1) (hlast : k < log.next) (hne : log.first < log.next)
    (hok : listed = true → ∀ c, L.current = some c → c.first ≤ k) :
    Truncated cfg k log fs (s.truncateSuffix cfg k fs) := by
  rcases truncateSuffix_cases henv h hlast hok with htruncated | ⟨hk, hemptied⟩
  · exact htruncated
  · obtain ⟨htidy, rfl, -, -, rfl⟩ := h
    rw [htidy.next_log] at hne
    exact hemptied.truncated (le_antisymm hfirst hk) hne

/-- If the open segment is popped and in the map, it is unlinked twice, which fails. The disk is one
on the way still. -/
theorem truncateSuffix_listed (henv : cfg.env.Reliable) (h : Holds cfg s fs.disk log L true)
    (hcurrent : L.current = some c) (hc : k < c.first) :
    (s.truncateSuffix cfg k fs).ret = false ∧
      Passes cfg (KeepsUpTo k log) fs (s.truncateSuffix cfg k fs).fs := by
  obtain ⟨htidy, rfl, hlisted, hdisk, rfl⟩ := h
  have hlast : k < L.finish := by
    have := (L.linked_current hcurrent).2
    have := c.first_le_next
    omega
  have hbehind : ∀ c' ∈ L.current.toList, k < c'.first := by
    rw [hcurrent]
    exact forall_mem_singleton.mpr hc
  have hclosed : L.closed = L.closed ++ [] := (append_nil _).symm
  have hbefore := L.recovers cfg (KeepsUpTo.refl k L.log)
  have hafter : Recovers cfg (KeepsUpTo k L.log) (some L.first) (filesOf cfg L.closed none []) :=
    recovers_closed hclosed hbehind hlast
  have hshows := hdisk
  unfold Layout.OnDisk at hshows
  rw [hcurrent] at hshows hbefore
  obtain ⟨fs₁, hunlink, hshows₁, hvia₁⟩ := unlink_open henv hshows hbefore hafter
  set fs₂ : Fs := { fs₁ with tried := fs₁.tried + 1 } with hfs₂
  have hvia : Passes cfg (KeepsUpTo k L.log) fs fs₂ :=
    FileSystem.Via.trans hvia₁ ⟨[], (append_nil _).symm, ⟨_, _, hafter, hshows₁⟩, rfl⟩
  have hpopped : ∀ rest, unlinkWhile cfg ((L.storage true).openPopped ++ rest) fs =
      (false, fs₂) := by
    intro rest
    rw [openPopped_some hcurrent, if_pos rfl, cons_append, unlinkWhile, hunlink]
    dsimp only
    rw [singleton_append, unlinkWhile, unlink_missing henv (open_missing hshows₁)]
  have hop : ∃ s', (L.storage true).truncateSuffix cfg k fs = ⟨false, s', fs₂⟩ := by
    obtain ⟨A, B, -, -, ⟨-, hpop⟩ | ⟨A', a, -, -, hpop⟩⟩ := popSegmentsFromBack_closed
      (fun c' hc' => hbehind c' (mem_toList.mpr hc')) hlisted
    · unfold truncateSuffix
      rw [hpop]
      dsimp only
      rw [hpopped]
      exact ⟨_, rfl⟩
    · unfold truncateSuffix
      rw [hpop]
      dsimp only
      split_ifs
      · rw [hpopped]
        exact ⟨_, rfl⟩
      · rw [append_assoc, hpopped]
        exact ⟨_, rfl⟩
  obtain ⟨s', hop⟩ := hop
  rw [hop]
  exact ⟨rfl, hvia⟩

theorem truncateSuffix_of_le (h : Holds cfg s fs.disk log L listed) (hk : log.next ≤ k) :
    (s.truncateSuffix cfg k fs).fs = fs := by
  obtain ⟨htidy, rfl, hlisted, -, rfl⟩ := h
  rw [htidy.next_log] at hk
  have hfirst : L.first ≤ k := htidy.first_le.trans hk
  cases hcurrent : L.current with
  | some c =>
    have hnext := (L.linked_current hcurrent).2
    have hc := c.first_le_next
    unfold truncateSuffix
    rw [popSegmentsFromBack_open hcurrent (by omega)]
    dsimp only
    rw [if_pos (show (L.storage listed).firstLogIndex ≤ k from hfirst)]
    dsimp only [unlinkWhile]
    unfold truncateLast storage
    rw [hcurrent, truncate_of_le (by omega)]
    rfl
  | none =>
    obtain ⟨A, B, hsplit, hB, hcases⟩ := popSegmentsFromBack_closed (k := k)
      (fun c hc => by rw [hcurrent] at hc; cases hc) hlisted
    have hmem : ∀ c ∈ L.closed, c.next ≤ L.finish := fun c hc =>
      ((L.linked_closed hcurrent).mem_range hc).2
    obtain rfl : B = [] := eq_nil_iff_forall_not_mem.mpr fun c hc => by
      have := hB c hc
      have := hmem c (hsplit ▸ mem_append_right A hc)
      have := c.first_le_next
      omega
    rw [openPopped_none hcurrent] at hcases
    unfold truncateSuffix
    rcases hcases with ⟨-, hpop⟩ | ⟨A', a, rfl, ha, hpop⟩
    · rw [hpop]
      rfl
    · have hnext := hmem a (by rw [hsplit]; simp)
      rw [hpop]
      dsimp only
      rw [if_pos hfirst]
      change (truncateLast cfg k (a.segment false) _ fs).fs = fs
      unfold truncateLast
      rw [truncate_of_le (by omega)]
      rfl

/-- **A crash while the end is truncated** leaves a beginning of the log with all entries up to the
index, wherever the index lies. -/
theorem truncateSuffix_passes (henv : cfg.env.Reliable) (h : Holds cfg s fs.disk log L listed) :
    Passes cfg (KeepsUpTo k log) fs (s.truncateSuffix cfg k fs).fs := by
  by_cases hnext : log.next ≤ k
  · rw [truncateSuffix_of_le h hnext]
    exact .refl h.onDisk (h.log_eq ▸ .refl k log)
  by_cases hpopped : listed = true ∧ ∃ c, L.current = some c ∧ k < c.first
  · obtain ⟨rfl, c, hcurrent, hc⟩ := hpopped
    exact (truncateSuffix_listed henv h hcurrent hc).2
  have hok : listed = true → ∀ c, L.current = some c → c.first ≤ k := fun hlisted c hc =>
    not_lt.mp fun hlt => hpopped ⟨hlisted, c, hc, hlt⟩
  rcases truncateSuffix_cases henv h (not_le.mp hnext) hok with htruncated | ⟨-, hemptied⟩
  · exact htruncated.passes
  · exact h.log_eq ▸ hemptied.passes

end Braft.Segments
