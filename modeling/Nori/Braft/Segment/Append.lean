import Nori.Braft.Segment.Layout

/-!
# Appending to segments
-/

namespace Braft.Segments

open Butil Files Container SegmentLogStorage Chunk ListLog FileSystem Option List

/-- The record and the files of a layout, the log of which has a property. The last entry need not
be complete. -/
def Recovers (cfg : Config) (Q : ListLog LogEntry → Prop) (record : Option ℕ)
    (table : Table FileName) : Prop :=
  ∃ (L : Layout) (tail : Bytes), Partial cfg.getChecksum cfg.checksumType tail ∧
    record = some L.first ∧ table = filesOf cfg L.closed L.current tail ∧ Q L.log

/-- All disks between two states have a layout, the log of which has a property. -/
def Passes (cfg : Config) (Q : ListLog LogEntry → Prop) : Fs → Fs → Prop :=
  FileSystem.Via (Shown FileName.IsTmp (Recovers cfg Q))

variable {cfg : Config} {Q : ListLog LogEntry → Prop} {L : Layout} {c : Chunk} {e : LogEntry}
  {s : SegmentLogStorage} {fs fs' fs'' : Fs} {log : ListLog LogEntry} {listed : Bool}

theorem Passes.trans (h : Passes cfg Q fs fs') (h' : Passes cfg Q fs' fs'') :
    Passes cfg Q fs fs'' := FileSystem.Via.trans h h'

theorem Layout.recovers (cfg : Config) (L : Layout) (hQ : Q L.log) :
    Recovers cfg Q (some L.first) (filesOf cfg L.closed L.current []) :=
  ⟨L, [], .inl rfl, rfl, rfl, hQ⟩

theorem Passes.refl (hdisk : L.OnDisk cfg [] fs.disk) (hQ : Q L.log) : Passes cfg Q fs fs :=
  FileSystem.Via.refl ⟨_, _, L.recovers cfg hQ, hdisk⟩

/-! ## Names -/

theorem inprogress_notMem_append (cfg : Config) (cs : List Chunk) (a : ℕ) :
    FileName.inprogress a ∉ (cs.map (closedFile cfg) ++ []).map Prod.fst := by
  simp [closedFile]

theorem closed_notMem {cs : List Chunk} (h : ∀ c' ∈ cs, c'.first ≠ c.first) :
    FileName.closed c.first (c.next - 1) ∉ (cs.map (closedFile cfg)).map Prod.fst := by
  intro hmem
  obtain ⟨_, hin, hname⟩ := mem_map.mp hmem
  obtain ⟨c', hc', rfl⟩ := mem_map.mp hin
  exact h c' hc' (FileName.closed.inj hname).1

theorem filesOf_concat (cfg : Config) (cs : List Chunk) (c : Chunk) (tail : Bytes) :
    filesOf cfg (cs ++ [c]) none tail = cs.map (closedFile cfg) ++ [c.closedFile cfg] := by
  unfold filesOf
  rw [List.map_append, toList_none, List.map_nil, List.append_nil]
  rfl

/-! ## Growing -/

namespace Layout

theorem start_le_finish (L : Layout) : L.start ≤ L.finish := L.linked.le

theorem finish_pos (L : Layout) : 0 < L.finish := lt_of_lt_of_le L.start_pos L.start_le_finish

theorem linked_closed (h : L.current = none) : Linked L.start L.closed L.finish := by
  have := L.linked
  rwa [h, toList_none, List.append_nil] at this

theorem linked_current (h : L.current = some c) :
    Linked L.start L.closed c.first ∧ c.next = L.finish := by
  have := L.linked
  rwa [h, toList_some, linked_concat] at this

/-- A new segment is created. -/
def create (L : Layout) (h : L.current = none) : Layout :=
  { L with
    current := some (.empty L.finish (lt_of_lt_of_le L.start_pos L.start_le_finish))
    linked := linked_concat.mpr ⟨linked_closed h, rfl⟩ }

/-- The open segment is closed. -/
def close (L : Layout) (h : L.current = some c) (hne : c.entries ≠ []) : Layout :=
  { L with
    closed := L.closed ++ [c]
    current := none
    linked := by
      rw [Option.toList_none, List.append_nil]
      exact linked_concat.mpr (linked_current h)
    nonempty := forall_mem_append.mpr ⟨L.nonempty, forall_mem_singleton.mpr hne⟩ }

/-- An entry is appended to the open segment. -/
def snoc (L : Layout) (h : L.current = some c) (e : LogEntry) (hindex : e.index = L.finish)
    (hfits : e.data.length < 2 ^ 32) : Layout :=
  { L with
    finish := L.finish + 1
    current := some (c.snoc e (hindex.trans (linked_current h).2.symm) hfits)
    linked := by
      obtain ⟨hclosed, hnext⟩ := linked_current h
      refine linked_concat.mpr ⟨hclosed, ?_⟩
      exact (ListLog.next_append c.toListLog [e]).trans (by rw [hnext]; rfl) }

theorem chunks_create (h : L.current = none) : (L.create h).chunks =
    L.chunks ++ [.empty L.finish L.finish_pos] := by
  unfold chunks create
  rw [h, toList_none, List.append_nil]
  rfl

theorem chunks_close (h : L.current = some c) (hne : c.entries ≠ []) :
    (L.close h hne).chunks = L.chunks := by
  unfold chunks close
  rw [h, toList_none, List.append_nil]
  rfl

theorem log_create (h : L.current = none) : (L.create h).log = L.log := by
  unfold log entries
  rw [chunks_create, entriesOf_append]
  show ListLog.mk L.first ((entriesOf L.chunks ++ []).drop (L.first - L.start)) = _
  rw [List.append_nil]

theorem log_close (h : L.current = some c) (hne : c.entries ≠ []) :
    (L.close h hne).log = L.log := by
  unfold log entries
  rw [chunks_close]
  rfl

theorem entries_snoc (h : L.current = some c) (hindex : e.index = L.finish)
    (hfits : e.data.length < 2 ^ 32) :
    (L.snoc h e hindex hfits).entries = L.entries ++ [e] := by
  unfold entries chunks snoc
  rw [h]
  dsimp only [toList_some]
  rw [entriesOf_append, entriesOf_append, append_assoc, entriesOf_cons, entriesOf_cons,
    entriesOf_nil, List.append_nil, List.append_nil]
  rfl

theorem log_snoc (htidy : L.Tidy) (h : L.current = some c) (hindex : e.index = L.finish)
    (hfits : e.data.length < 2 ^ 32) : (L.snoc h e hindex hfits).log = L.log.append [e] := by
  have hlen := L.length_entries
  have hle := htidy.first_le
  unfold log
  rw [entries_snoc]
  dsimp only [snoc, append]
  rw [drop_append_of_le_length (by omega)]

theorem Tidy.create (htidy : L.Tidy) (h : L.current = none) : (L.create h).Tidy := by
  refine ⟨htidy.first_le, ?_⟩
  rw [chunks_create]
  exact forall_mem_append.mpr
    ⟨htidy.first_lt, forall_mem_singleton.mpr fun hne => absurd rfl hne⟩

theorem Tidy.close (htidy : L.Tidy) (h : L.current = some c) (hne : c.entries ≠ []) :
    (L.close h hne).Tidy := by
  refine ⟨htidy.first_le, fun c' hc' => ?_⟩
  rw [chunks_close] at hc'
  exact htidy.first_lt c' hc'

theorem Tidy.snoc (htidy : L.Tidy) (h : L.current = some c) (hindex : e.index = L.finish)
    (hfits : e.data.length < 2 ^ 32) : (L.snoc h e hindex hfits).Tidy := by
  refine ⟨Nat.le_succ_of_le htidy.first_le, fun c' hc' hne => ?_⟩
  have hle := htidy.first_le
  rcases mem_append.mp hc' with hc' | hc'
  · exact htidy.first_lt c' (mem_append_left _ hc') hne
  · -- the segment that grows ends behind the log as it was
    have hc' : c' = c.snoc e (hindex.trans (linked_current h).2.symm) hfits := mem_singleton.mp hc'
    have hnext : c'.next = c.next + 1 := by
      rw [hc']
      exact next_append c.toListLog [e]
    have hfinish := (linked_current h).2
    show L.first < c'.next
    omega

end Layout

/-! ## The operations -/

section

variable (henv : cfg.env.Reliable)
include henv

theorem create_spec (hdisk : L.OnDisk cfg [] fs.disk) (hcurrent : L.current = none) (hQ : Q L.log) :
    ∃ fs', fs.exec cfg.env (.create (.inprogress L.finish)) = (true, fs') ∧
      (L.create hcurrent).OnDisk cfg [] fs'.disk ∧ Passes cfg Q fs fs' := by
  have hbefore := L.recovers cfg hQ
  have hafter := (L.create hcurrent).recovers (Q := Q) cfg (by rw [L.log_create hcurrent]; exact hQ)
  unfold Layout.OnDisk at hdisk
  rw [hcurrent] at hdisk hbefore
  exact exec_create henv hdisk (inprogress_notMem_append cfg L.closed L.finish) hbefore hafter

open Layout

theorem ensureOpen_spec (h : Holds cfg s fs.disk log L listed)
    (hQ : Q log) : ∃ c L' listed' s' fs', s.ensureOpen cfg fs = ⟨true, s', fs'⟩ ∧
      Holds cfg s' fs'.disk log L' listed' ∧ L'.current = some c ∧ Passes cfg Q fs fs' := by
  obtain ⟨htidy, rfl, hlisted, hdisk, rfl⟩ := h
  unfold ensureOpen
  dsimp only [storage]
  cases hcurrent : L.current with
  | some c =>
    refine ⟨c, L, listed, L.storage listed, fs, ?_, ⟨htidy, rfl, hlisted, hdisk, rfl⟩, hcurrent,
      .refl hdisk hQ⟩
    unfold storage
    rw [hcurrent]
    rfl
  | none =>
    have hfinish : L.finish - 1 + 1 = L.finish := Nat.sub_add_cancel L.finish_pos
    obtain ⟨fs', hexec, hdisk', hvia⟩ := create_spec henv hdisk hcurrent hQ
    refine ⟨_, L.create hcurrent, false, _, fs', ?_,
      ⟨htidy.create hcurrent, rfl, nofun, hdisk', L.log_create hcurrent⟩, rfl, hvia⟩
    rw [hfinish, show (Segment.new L.finish).fileName = .inprogress L.finish from rfl, hexec]
    rfl

theorem close_spec (hdisk : L.OnDisk cfg [] fs.disk)
    (hcurrent : L.current = some c) (hne : c.entries ≠ []) (hQ : Q L.log) :
    ∃ fs', (c.segment true).close cfg fs = (true, c.segment false, fs') ∧
      (L.close hcurrent hne).OnDisk cfg [] fs'.disk ∧ Passes cfg Q fs fs' := by
  have hfiles : filesOf cfg (L.close hcurrent hne).closed (L.close hcurrent hne).current [] = _ :=
    filesOf_concat cfg L.closed c []
  have hbefore : Recovers cfg Q (some L.first)
      (L.closed.map (closedFile cfg) ++ c.openFile cfg [] :: []) := by
    have := L.recovers cfg hQ
    rwa [hcurrent] at this
  have hafter : Recovers cfg Q (some L.first)
      (L.closed.map (closedFile cfg) ++ c.closedFile cfg :: []) := by
    have := (L.close hcurrent hne).recovers (Q := Q) cfg (by rw [L.log_close]; exact hQ)
    rwa [hfiles] at this
  have hshows := hdisk
  unfold Layout.OnDisk at hshows
  rw [hcurrent] at hshows
  have hsync : ∃ fs₁, (if (c.segment true).firstIndex < (c.segment true).lastIndex ∧
      (cfg.raftSyncSegments && cfg.enableSync) = true then
        fs.exec cfg.env (.sync (c.segment true).fileName) else (true, fs)) = (true, fs₁) ∧
      Shows FileName.IsTmp (some L.first) (filesOf cfg L.closed (some c) []) fs₁.disk ∧
      Passes cfg Q fs fs₁ := by
    split_ifs
    · exact exec_sync henv hshows (Segment.not_isTmp_fileName (c.segment true)) hbefore
    · exact ⟨fs, rfl, hshows, .refl hdisk hQ⟩
  obtain ⟨fs₁, hexec₁, hshows₁, hvia₁⟩ := hsync
  have hfresh : FileName.closed c.first (c.next - 1) ∉
      (L.closed.map (closedFile cfg) ++ []).map Prod.fst := by
    rw [List.append_nil]
    refine closed_notMem fun c' hc' => ?_
    have := (L.linked_current hcurrent).1.mem_range hc'
    have := c'.first_lt_next (L.nonempty c' hc')
    omega
  have hfile : c.openFile cfg [] = (.inprogress c.first, (c.closedFile cfg).2) := by
    unfold openFile
    rw [List.append_nil]
    rfl
  rw [hfile] at hbefore
  have hopen : filesOf cfg L.closed (some c) [] =
      L.closed.map (closedFile cfg) ++ (.inprogress c.first, (c.closedFile cfg).2) :: [] := by
    rw [← hfile]
    rfl
  rw [hopen] at hshows₁
  obtain ⟨fs', hexec', hshows', hvia'⟩ := exec_rename henv hshows₁ Bool.false_ne_true
    (inprogress_notMem_append cfg L.closed c.first) hfresh hbefore hafter
  refine ⟨fs', ?_, ?_, hvia₁.trans hvia'⟩
  · unfold Segment.close
    rw [hexec₁]
    dsimp only
    rw [if_pos rfl, show (⟨(c.segment true).firstIndex, (c.segment true).lastIndex, false,
      (c.segment true).bytes, (c.segment true).offsetAndTerm⟩ : Segment) = c.segment false from rfl,
      show (c.segment false).fileName = .closed c.first (c.next - 1) from rfl,
      show (c.segment true).firstIndex = c.first from rfl, hexec']
  · unfold Layout.OnDisk
    rw [hfiles]
    exact hshows'

theorem rollOver_spec (h : Holds cfg s fs.disk log L listed)
    (hcurrent : L.current = some c) (hQ : Q log) :
    ∃ c' L' listed' s' fs', s.rollOver cfg fs = ⟨some (Chunk.segment true c'), s', fs'⟩ ∧
      Holds cfg s' fs'.disk log L' listed' ∧ L'.current = some c' ∧ Passes cfg Q fs fs' := by
  have hopen : s.openSegment = some (c.segment true) := by
    rw [h.storage_eq]
    dsimp only [storage]
    rw [hcurrent]
    rfl
  unfold rollOver
  rw [hopen]
  dsimp only
  by_cases hsize : size c.entries ≤ cfg.maxSegmentSize
  · refine ⟨c, L, listed, s, fs, if_pos hsize, h, hcurrent, ?_⟩
    exact .refl h.onDisk (by rw [h.log_eq]; exact hQ)
  · have hne : c.entries ≠ [] := by
      intro hempty
      rw [hempty, size_nil] at hsize
      omega
    obtain ⟨htidy, rfl, -, hdisk, rfl⟩ := h
    obtain ⟨fs₁, hclose, hdisk₁, hvia₁⟩ := close_spec henv hdisk hcurrent hne hQ
    have hlog : (L.close hcurrent hne).log = L.log := L.log_close hcurrent hne
    obtain ⟨fs', hexec, hdisk', hvia'⟩ := create_spec (Q := Q) henv hdisk₁ rfl
      (by rw [hlog]; exact hQ)
    have hfinish : L.finish - 1 + 1 = L.finish := Nat.sub_add_cancel L.finish_pos
    refine ⟨_, (L.close hcurrent hne).create rfl, false, _, fs', ?_,
      ⟨(htidy.close hcurrent hne).create rfl, rfl, nofun, hdisk', (log_create _).trans hlog⟩,
      rfl, hvia₁.trans hvia'⟩
    rw [if_neg (show ¬ (c.segment true).bytes ≤ cfg.maxSegmentSize from hsize), hclose]
    dsimp only [storage]
    rw [hfinish, show (Segment.new L.finish).fileName =
      .inprogress (L.close hcurrent hne).finish from rfl, hexec]
    dsimp only [create, close]
    rw [map_append]
    rfl

theorem getOpenSegment_spec (h : Holds cfg s fs.disk log L listed)
    (hQ : Q log) : ∃ c L' listed' s' fs',
      s.getOpenSegment cfg fs = ⟨some (Chunk.segment true c), s', fs'⟩ ∧
      Holds cfg s' fs'.disk log L' listed' ∧ L'.current = some c ∧ Passes cfg Q fs fs' := by
  obtain ⟨c₁, L₁, listed₁, s₁, fs₁, hensure, hholds₁, hcurrent₁, hvia₁⟩ :=
    ensureOpen_spec henv h hQ
  obtain ⟨c, L', listed', s', fs', hroll, hholds', hcurrent', hvia'⟩ :=
    rollOver_spec henv hholds₁ hcurrent₁ hQ
  refine ⟨c, L', listed', s', fs', ?_, hholds', hcurrent', hvia₁.trans hvia'⟩
  unfold getOpenSegment
  rw [hensure]
  exact hroll

omit henv in
theorem openFile_snoc (cfg : Config) (hindex : e.index = c.next) (hfits : e.data.length < 2 ^ 32) :
    (c.snoc e hindex hfits).openFile cfg [] =
      (.inprogress c.first, encodeAll cfg.getChecksum cfg.checksumType c.entries ++
        encode cfg.getChecksum cfg.checksumType e) := by
  have hlast : encodeAll cfg.getChecksum cfg.checksumType [e] =
      encode cfg.getChecksum cfg.checksumType e := append_nil _
  unfold openFile
  rw [List.append_nil, ← hlast, ← encodeAll_append]
  rfl

theorem append_spec (htidy : L.Tidy) (hdisk : L.OnDisk cfg [] fs.disk)
    (hcurrent : L.current = some c) (hindex : e.index = L.finish) (hfits : e.data.length < 2 ^ 32)
    (hQ : Q L.log) (hQ' : Q (L.log.append [e])) :
    ∃ fs', (c.segment true).append cfg e fs = (true,
        (c.snoc e (hindex.trans (L.linked_current hcurrent).2.symm) hfits).segment true, fs') ∧
      (L.snoc hcurrent e hindex hfits).OnDisk cfg [] fs'.disk ∧ Passes cfg Q fs fs' := by
  set data := encode cfg.getChecksum cfg.checksumType e with hdata
  set written := encodeAll cfg.getChecksum cfg.checksumType c.entries with hwritten
  have hnext := (L.linked_current hcurrent).2
  have hsnoc : e.index = c.next := hindex.trans hnext.symm
  have hpos := c.first_pos
  have hlast : c.next - 1 + 1 = c.next := by
    have := c.first_le_next
    omega
  have hfiles : filesOf cfg (L.snoc hcurrent e hindex hfits).closed
      (L.snoc hcurrent e hindex hfits).current [] =
        L.closed.map (closedFile cfg) ++ [(.inprogress c.first, written ++ data)] := by
    rw [← openFile_snoc cfg hsnoc hfits]
    rfl
  -- what is written so far is a part of the entry, or all of it
  have hparts : ∀ part, part <+: data → Recovers cfg Q (some L.first)
      (L.closed.map (closedFile cfg) ++ (.inprogress c.first, written ++ part) :: []) := by
    intro part hpart
    rcases lt_or_ge part.length data.length with hlt | hge
    · refine ⟨L, part, .inr ⟨e, hfits, hpart, hlt⟩, rfl, ?_, hQ⟩
      rw [hcurrent]
      rfl
    · obtain rfl : part = data := hpart.eq_of_length_le hge
      have := (L.snoc hcurrent e hindex hfits).recovers (Q := Q) cfg
        (by rw [Layout.log_snoc htidy]; exact hQ')
      rwa [hfiles] at this
  have hshows := hdisk
  unfold Layout.OnDisk at hshows
  rw [hcurrent, show filesOf cfg L.closed (some c) [] = L.closed.map (closedFile cfg) ++
    (.inprogress c.first, written ++ []) :: [] from rfl, List.append_nil] at hshows
  obtain ⟨fs', hwrite, hshows', hvia⟩ := writeAll_shows henv hshows
    Bool.false_ne_true (inprogress_notMem_append cfg L.closed c.first) data hparts
  refine ⟨fs', ?_, ?_, hvia⟩
  · unfold Segment.append
    have hfollows : e.index = (c.segment true).lastIndex + 1 := hsnoc.trans hlast.symm
    rw [if_neg (show ¬ (c.segment true).isOpen = false from nofun),
      if_neg (fun h : e.index ≠ (c.segment true).lastIndex + 1 => h hfollows)]
    dsimp only
    rw [show (c.segment true).fileName = .inprogress c.first from rfl, hwrite]
    dsimp only [Chunk.segment, Chunk.snoc, append]
    rw [offsetsFrom_append, size_append, Nat.zero_add, length_encode, size_cons, size_nil,
      Nat.add_zero, hlast]
    congr 3
    exact (next_append c.toListLog [e]).symm ▸ rfl
  · unfold Layout.OnDisk
    rw [hfiles]
    exact hshows'

/-- **One entry.** It follows the others of the log. -/
theorem appendEntry_spec (h : Holds cfg s fs.disk log L listed)
    (hindex : e.index = log.next) (hfits : e.data.length < 2 ^ 32) (hQ : Q log)
    (hQ' : Q (log.append [e])) :
    ∃ L' listed' s' fs', s.appendEntry cfg e fs = ⟨true, s', fs'⟩ ∧
      Holds cfg s' fs'.disk (log.append [e]) L' listed' ∧ Passes cfg Q fs fs' := by
  obtain ⟨c, L₁, listed₁, s₁, fs₁, hopen, ⟨htidy₁, rfl, hlisted₁, hdisk₁, rfl⟩, hcurrent₁, hvia₁⟩ :=
    getOpenSegment_spec henv h hQ
  have hfinish : e.index = L₁.finish := hindex.trans htidy₁.next_log
  obtain ⟨fs', happend, hdisk', hvia'⟩ :=
    append_spec henv htidy₁ hdisk₁ hcurrent₁ hfinish hfits hQ hQ'
  refine ⟨L₁.snoc hcurrent₁ e hfinish hfits, listed₁, _, fs', ?_,
    ⟨htidy₁.snoc hcurrent₁ hfinish hfits, rfl, nofun, hdisk',
      Layout.log_snoc htidy₁ hcurrent₁ hfinish hfits⟩, hvia₁.trans hvia'⟩
  unfold appendEntry
  rw [hopen]
  dsimp only
  rw [happend]
  have hlast : L₁.finish - 1 + 1 = L₁.finish + 1 - 1 := Nat.sub_add_cancel L₁.finish_pos
  dsimp only [Layout.storage, Layout.snoc, map_some]
  rw [hlast]

end

/-- Entries with the indexes from one on. -/
def NumberedFrom (next : ℕ) (es : List LogEntry) : Prop :=
  es.map LogEntry.index = range' next es.length

theorem numberedFrom_cons {next : ℕ} {es : List LogEntry} :
    NumberedFrom next (e :: es) ↔ e.index = next ∧ NumberedFrom (next + 1) es := by
  unfold NumberedFrom
  rw [map_cons, length_cons, range'_succ, cons.injEq]

section

variable {es : List LogEntry} (henv : cfg.env.Reliable)
include henv

theorem sync_spec (hdisk : L.OnDisk cfg [] fs.disk) (hcurrent : L.current = some c) (hQ : Q L.log) :
    ∃ fs', (c.segment true).sync cfg fs = (true, fs') ∧ L.OnDisk cfg [] fs'.disk ∧
      Passes cfg Q fs fs' := by
  unfold Segment.sync
  split_ifs
  · have hbefore := L.recovers cfg hQ
    unfold Layout.OnDisk at hdisk ⊢
    rw [hcurrent] at hdisk hbefore ⊢
    exact exec_sync henv hdisk (Segment.not_isTmp_fileName (c.segment true)) hbefore
  · exact ⟨fs, rfl, hdisk, .refl hdisk hQ⟩
  · exact ⟨fs, rfl, hdisk, .refl hdisk hQ⟩

variable (h : Holds cfg s fs.disk log L listed) (hfits : Fits es)
include h hfits

/-- All entries are appended, or those before the first one that does not follow. -/
theorem appendLoop_spec (hQ : ∀ n, Q (log.append (es.take n))) :
    ∃ ret s' fs', s.appendLoop cfg es fs = ⟨ret, s', fs'⟩ ∧ Passes cfg Q fs fs' ∧
      (NumberedFrom log.next es ∧ ret = (es.length, true) ∧
          (∃ L' listed', Holds cfg s' fs'.disk (log.append es) L' listed') ∨
        ¬ NumberedFrom log.next es ∧ ret.2 = false) := by
  have hnone := hQ 0
  rw [take_zero, ListLog.append_nil] at hnone
  induction es generalizing s fs log L listed with
  | nil =>
    refine ⟨_, s, fs, rfl, .refl h.onDisk ?_, .inl ⟨rfl, rfl, L, listed, ?_⟩⟩
    · rw [h.log_eq]
      exact hnone
    · rwa [ListLog.append_nil]
  | cons e es ih =>
    unfold appendLoop
    by_cases hindex : e.index = log.next
    · have hone := hQ 1
      rw [take_succ_cons, take_zero] at hone
      obtain ⟨L₁, listed₁, s₁, fs₁, happend, hholds₁, hvia₁⟩ :=
        appendEntry_spec henv h hindex (hfits e mem_cons_self) hnone hone
      obtain ⟨ret, s', fs', hloop, hvia', hcases⟩ := ih hholds₁
        (fun e' he' => hfits e' (mem_cons_of_mem _ he'))
        (fun n => by
          rw [append_append]
          exact hQ (n + 1)) hone
      rw [happend]
      dsimp only
      rw [hloop]
      refine ⟨_, s', fs', rfl, hvia₁.trans hvia', ?_⟩
      rw [next_append] at hcases
      rcases hcases with ⟨hrest, rfl, L', listed', hholds'⟩ | ⟨hrest, hret⟩
      · rw [append_append] at hholds'
        exact .inl ⟨numberedFrom_cons.mpr ⟨hindex, hrest⟩, rfl, L', listed', hholds'⟩
      · exact .inr ⟨fun hall => hrest (numberedFrom_cons.mp hall).2, hret⟩
    · obtain ⟨c, L₁, listed₁, s₁, fs₁, hopen, hholds₁, hcurrent₁, hvia₁⟩ :=
        getOpenSegment_spec henv h hnone
      have hlast : e.index ≠ (c.segment true).lastIndex + 1 := by
        have hnext := hholds₁.tidy.next_log
        rw [hholds₁.log_eq] at hnext
        have hfinish := (L₁.linked_current hcurrent₁).2
        have hpos := c.first_pos
        have hle := c.first_le_next
        show e.index ≠ c.next - 1 + 1
        omega
      have hrefused : s.appendEntry cfg e fs = ⟨false, s₁, fs₁⟩ := by
        unfold appendEntry
        rw [hopen]
        dsimp only
        unfold Segment.append
        rw [if_neg (show ¬ (c.segment true).isOpen = false from nofun), if_pos hlast]
      rw [hrefused]
      exact ⟨_, s₁, fs₁, rfl, hvia₁, .inr ⟨fun hall => hindex (numberedFrom_cons.mp hall).1, rfl⟩⟩

/-- **Appending.** All entries are appended; a crash leaves some of the first. -/
theorem appendEntries_spec (hnumbered : NumberedFrom log.next es) :
    ∃ L' listed' s' fs', s.appendEntries cfg es fs = ⟨es.length, s', fs'⟩ ∧
      Holds cfg s' fs'.disk (log.append es) L' listed' ∧
      Passes cfg (fun log' => ∃ n, log' = log.append (es.take n)) fs fs' := by
  obtain ⟨_, s₁, fs₁, hloop, hvia₁, ⟨-, rfl, L₁, listed₁, hholds₁⟩ | ⟨hnot, -⟩⟩ :=
    appendLoop_spec (Q := fun log' => ∃ n, log' = log.append (es.take n)) henv h hfits
      fun n => ⟨n, rfl⟩
  swap
  · exact absurd hnumbered hnot
  cases es with
  | nil =>
    refine ⟨L, listed, s, fs, rfl, by rwa [ListLog.append_nil], .refl h.onDisk ⟨0, ?_⟩⟩
    rw [h.log_eq, take_nil, ListLog.append_nil]
  | cons e es =>
    obtain ⟨hindex, -⟩ := numberedFrom_cons.mp hnumbered
    have hfollows : s.lastLogIndex + 1 = e.index := h.reads.last.trans hindex.symm
    unfold appendEntries
    dsimp only
    rw [if_neg (fun hne => hne hfollows), hloop]
    rw [if_pos rfl]
    obtain ⟨htidy₁, rfl, hlisted₁, hdisk₁, hlog₁⟩ := hholds₁
    cases hcurrent : L₁.current with
    | none =>
      refine ⟨L₁, listed₁, _, fs₁, ?_, ⟨htidy₁, rfl, hlisted₁, hdisk₁, hlog₁⟩, hvia₁⟩
      dsimp only [Layout.storage]
      rw [hcurrent]
      rfl
    | some c =>
      obtain ⟨fs', hsync, hdisk', hvia'⟩ := sync_spec henv hdisk₁ hcurrent
        (Q := fun log' => ∃ n, log' = log.append ((e :: es).take n))
        ⟨(e :: es).length, by rw [hlog₁, take_length]⟩
      refine ⟨L₁, listed₁, _, fs', ?_, ⟨htidy₁, rfl, hlisted₁, hdisk', hlog₁⟩, hvia₁.trans hvia'⟩
      dsimp only [Layout.storage]
      rw [hcurrent]
      dsimp only [map_some]
      rw [hsync]

/-- **A crash while entries are appended** leaves some of the first, whatever the indexes are. -/
theorem appendEntries_passes :
    Passes cfg (fun log' => ∃ n, log' = log.append (es.take n)) fs
      (s.appendEntries cfg es fs).fs := by
  by_cases hnumbered : NumberedFrom log.next es
  · obtain ⟨-, -, s', fs', happend, -, hvia⟩ := appendEntries_spec henv h hfits hnumbered
    rw [happend]
    exact hvia
  · have hstay : Passes cfg (fun log' => ∃ n, log' = log.append (es.take n)) fs fs :=
      .refl h.onDisk ⟨0, by rw [h.log_eq, take_zero, ListLog.append_nil]⟩
    obtain ⟨ret, s', fs', hloop, hvia, ⟨hall, -⟩ | ⟨-, hret⟩⟩ := appendLoop_spec
      (Q := fun log' => ∃ n, log' = log.append (es.take n)) henv h hfits fun n => ⟨n, rfl⟩
    · exact absurd hall hnumbered
    cases es with
    | nil => exact hstay
    | cons e es =>
      unfold appendEntries
      dsimp only
      rw [hloop]
      dsimp only
      rw [hret, if_neg Bool.false_ne_true]
      split_ifs
      · exact hstay
      · exact hvia

end

end Braft.Segments
