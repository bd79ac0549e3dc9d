import Nori.Braft.Segment.Refinement

/-!
# Which entries are synced

With `raft_sync` on, `append_entries` syncs the segment of the last entry when all entries are
written. Segments that are filled before are not synced when they are closed, unless
`raft_sync_segments` is on, and a segment with a single entry is not synced at all. So the entries
of a call are on disk for good just if they all go to one segment, which has two entries or more at
the end.
-/

namespace Braft.Segments

open Butil Files Container SegmentLogStorage Segment List FileSystem

/-- The first index of the segment that a file belongs to. -/
def FileName.firstIndex? : FileName → Option ℕ
  | .closed firstIndex _ => some firstIndex
  | .inprogress firstIndex => some firstIndex
  | .tmp _ => none

/-- Between two states the file of an entry's segment was synced, and it had the entry then where
the storage looks for it. -/
def Durable (cfg : Config) (fs : Fs) (r : Outcome ℤ) (e : LogEntry) : Prop :=
  ∃ (seg : Segment) (offset length term : ℕ), r.storage.getSegment e.index = some seg ∧
    seg.getMeta e.index = some (offset, length, term) ∧
    ∃ (mid : Fs) (name : FileName) (file : Bytes) (after : List (Step FileName ℕ)),
      Via (fun _ => True) fs mid ∧ r.fs.done = mid.done ++ .sync name :: after ∧
      name.firstIndex? = some seg.firstIndex ∧ mid.disk.files name = some file ∧
      (file.drop offset).take length = encode cfg.getChecksum cfg.checksumType e

/-- What the storage knows of the open segment is right: its last index, the number of its entries
and the length of its file. -/
structure Writable (s : SegmentLogStorage) (d : LogDisk) : Prop where
  first_le : s.firstLogIndex ≤ s.lastLogIndex + 1
  isOpen : ∀ seg ∈ s.openSegment, seg.isOpen = true
  last : ∀ seg ∈ s.openSegment, seg.lastIndex = s.lastLogIndex
  entries : ∀ seg ∈ s.openSegment, seg.firstIndex + seg.offsetAndTerm.length = s.lastLogIndex + 1
  file : ∀ seg ∈ s.openSegment, ∃ file, d.files seg.fileName = some file ∧ file.length = seg.bytes

/-- How many entries and bytes the segment has that the next entry goes to. -/
def SegmentLogStorage.openCounts (cfg : Config) (s : SegmentLogStorage) : ℕ × ℕ :=
  match s.openSegment with
  | some seg =>
    if seg.bytes ≤ cfg.maxSegmentSize then (seg.offsetAndTerm.length, seg.bytes) else (0, 0)
  | none => (0, 0)

/-- All entries go to one segment, and there are two or more in it. -/
def Together (cfg : Config) (s : SegmentLogStorage) (es : List LogEntry) : Prop :=
  es = [] ∨ 2 ≤ (s.openCounts cfg).1 + es.length ∧
    ∀ i, 0 < i → i < es.length → (s.openCounts cfg).2 + size (es.take i) ≤ cfg.maxSegmentSize

section Writable

variable {cfg : Config} {s : SegmentLogStorage} {fs : Fs} {e : LogEntry}

def isSync : Step FileName ℕ → Bool
  | .sync _ => true
  | _ => false

theorem firstIndex_le_of_getSegment {index : ℕ} {seg : Segment}
    (h : s.getSegment index = some seg) :
    seg.firstIndex ≤ index := by
  have hfound : s.segments.findRev? (fun seg => seg.firstIndex ≤ index) = some seg →
      seg.firstIndex ≤ index := by
    intro hfind
    rw [findRev?_eq_find?_reverse] at hfind
    have hle := find?_some hfind
    exact of_decide_eq_true hle
  unfold getSegment at h
  split_ifs at h
  split at h
  · split_ifs at h with hle
    · cases h
      exact hle
    · exact hfound h
  · exact hfound h

/-- An entry is durable by a sync, among the steps taken, of a segment that begins with it or
before. -/
theorem Durable.exists_sync {r : Outcome ℤ} (h : Durable cfg fs r e) :
    ∃ steps name first, r.fs.done = fs.done ++ steps ∧ .sync name ∈ steps ∧
      name.firstIndex? = some first ∧ first ≤ e.index := by
  obtain ⟨seg, -, -, -, hseg, -, mid, name, -, after, ⟨before, hmid, -⟩, hafter, hname, -⟩ := h
  rw [hmid, append_assoc] at hafter
  exact ⟨_, name, seg.firstIndex, hafter, mem_append_right _ mem_cons_self, hname,
    firstIndex_le_of_getSegment hseg⟩

theorem Holds.writable {log : ListLog LogEntry} {L : Layout} {listed : Bool}
    (h : Holds cfg s fs.disk log L listed) : Writable s fs.disk := by
  obtain ⟨htidy, rfl, -, hdisk, -⟩ := h
  have hpos := L.finish_pos
  have hle := htidy.first_le
  have hopen : ∀ seg ∈ (L.storage listed).openSegment,
      ∃ c, L.current = some c ∧ seg = c.segment true := by
    intro seg hseg
    obtain ⟨c, hc, rfl⟩ := Option.map_eq_some_iff.mp hseg
    exact ⟨c, hc, rfl⟩
  refine ⟨?_, ?_, ?_, ?_, ?_⟩
  · show L.first ≤ L.finish - 1 + 1
    omega
  all_goals
    intro seg hseg
    obtain ⟨c, hc, rfl⟩ := hopen seg hseg
  · rfl
  · show c.next - 1 = L.finish - 1
    rw [(L.linked_current hc).2]
  · show c.first + (offsetsFrom 0 c.entries).length = L.finish - 1 + 1
    rw [length_offsetsFrom, show c.first + c.entries.length = c.next from rfl,
      (L.linked_current hc).2]
    omega
  · refine ⟨_, hdisk.open_file hc, ?_⟩
    rw [append_nil, length_encodeAll]
    rfl

end Writable

/-! ## Writing to one segment -/

section Writing

variable {cfg : Config} {s : SegmentLogStorage} {fs fs' : Fs} {e : LogEntry} {es : List LogEntry}

/-- Steps were taken, none of which is a sync. -/
def Unsynced (fs fs' : Fs) : Prop :=
  ∃ steps, fs'.done = fs.done ++ steps ∧ Through (fun _ => True) fs.disk steps fs'.disk ∧
    ∀ step ∈ steps, isSync step = false

namespace Unsynced

theorem refl (fs : Fs) : Unsynced fs fs := ⟨[], by rw [append_nil], ⟨trivial, rfl⟩, nofun⟩

theorem trans {fs'' : Fs} (h : Unsynced fs fs') (h' : Unsynced fs' fs'') : Unsynced fs fs'' := by
  obtain ⟨steps, hdone, hsteps, hnone⟩ := h
  obtain ⟨steps', hdone', hsteps', hnone'⟩ := h'
  exact ⟨steps ++ steps', by rw [hdone', hdone, append_assoc], hsteps.trans hsteps',
    forall_mem_append.mpr ⟨hnone, hnone'⟩⟩

theorem via (h : Unsynced fs fs') : Via (fun _ => True) fs fs' := by
  obtain ⟨steps, hdone, hsteps, -⟩ := h
  exact ⟨steps, hdone, hsteps⟩

/-- What is written in pieces is not synced. -/
theorem writeAll {name : FileName} {data : Bytes} {ok : Bool}
    (h : fs.writeAll cfg.env name data = (ok, fs')) (hvia : Via (fun _ => True) fs fs') :
    Unsynced fs fs' := by
  obtain ⟨steps, hdone, hsteps⟩ := hvia
  obtain ⟨steps', hdone', hwrites⟩ := done_writeAll cfg.env name data fs
  rw [h] at hdone'
  cases append_cancel_left (hdone.symm.trans hdone')
  refine ⟨steps, hdone, hsteps, fun step hstep => ?_⟩
  obtain ⟨part, rfl⟩ := hwrites step hstep
  rfl

end Unsynced

/-- The open segment, which has had some entries and a content, has got more entries. -/
structure Writing (cfg : Config) (s : SegmentLogStorage) (d : LogDisk) (first : ℕ)
    (offs : List (ℕ × ℕ)) (content : Bytes) (es : List LogEntry) : Prop where
  opened : s.openSegment = some ⟨first, s.lastLogIndex, true, content.length + size es,
    offs ++ offsetsFrom content.length es⟩
  file : d.files (.inprogress first) =
    some (content ++ encodeAll cfg.getChecksum cfg.checksumType es)
  last : s.lastLogIndex + 1 = first + offs.length + es.length
  first_le : s.firstLogIndex ≤ first + offs.length

variable {first : ℕ} {offs : List (ℕ × ℕ)} {content : Bytes}

theorem exec_unsynced {step : Step FileName ℕ} {d : LogDisk} (henv : cfg.env.Reliable)
    (h : fs.disk.apply step = some d) (hstep : isSync step = false) :
    ∃ fs', fs.exec cfg.env step = (true, fs') ∧ fs'.disk = d ∧ Unsynced fs fs' :=
  ⟨_, exec_of_apply henv h, rfl, [step], rfl, ⟨trivial, d, h, trivial, rfl⟩,
    forall_mem_singleton.mpr hstep⟩

/-- A segment that is written to can be written to again. -/
theorem Writing.writable (h : Writing cfg s fs.disk first offs content es) :
    Writable s fs.disk := by
  have hlast := h.last
  have hfirst := h.first_le
  refine ⟨by omega, ?_, ?_, ?_, ?_⟩
  all_goals
    intro seg hseg
    cases hseg.symm.trans h.opened
  · rfl
  · rfl
  · dsimp only
    rw [length_append, length_offsetsFrom]
    omega
  · exact ⟨_, h.file, by rw [length_append, length_encodeAll]⟩

theorem writing_new (d : LogDisk) (hle : s.firstLogIndex ≤ s.lastLogIndex + 1)
    (segments : List Segment) :
    Writing cfg { s with
        segments
        openSegment := some (new (s.lastLogIndex + 1))
        openListed := false }
      (d.put (.inprogress (s.lastLogIndex + 1)) (some [])) (s.lastLogIndex + 1) [] [] [] :=
  ⟨rfl, Disk.put_self _ _ _, rfl, hle⟩

theorem close_unsynced {seg : Segment} {file : Bytes} (henv : cfg.env.Reliable)
    (hsegments : cfg.raftSyncSegments = false)
    (hopen : seg.isOpen = true) (hfile : fs.disk.files seg.fileName = some file) :
    ∃ fs', seg.close cfg fs = (true, { seg with isOpen := false }, fs') ∧ Unsynced fs fs' := by
  have hname : seg.fileName = .inprogress seg.firstIndex := if_pos hopen
  obtain ⟨d, happly⟩ : ∃ d, fs.disk.apply (.rename (.inprogress seg.firstIndex)
      { seg with isOpen := false }.fileName) = some d := by
    rw [Disk.apply, ← hname, hfile]
    exact ⟨_, rfl⟩
  obtain ⟨fs', hrename, -, hsteps⟩ := exec_unsynced henv happly rfl
  refine ⟨fs', ?_, hsteps⟩
  unfold close
  rw [hsegments, Bool.false_and, if_neg (fun hsync => Bool.false_ne_true hsync.2)]
  dsimp only
  rw [if_pos rfl, hrename]

theorem appendLoop_cons {s₁ s' : SegmentLogStorage} {fs₁ : Fs}
    (happend : s.appendEntry cfg e fs = ⟨true, s₁, fs₁⟩)
    (hloop : s₁.appendLoop cfg es fs₁ = ⟨(es.length, true), s', fs'⟩) :
    s.appendLoop cfg (e :: es) fs = ⟨((e :: es).length, true), s', fs'⟩ := by
  rw [appendLoop, happend]
  dsimp only
  rw [hloop, length_cons]

section

variable (henv : cfg.env.Reliable) (hsegments : cfg.raftSyncSegments = false)
include henv

section

include hsegments

theorem getOpenSegment_writing (h : Writable s fs.disk) :
    ∃ first offs content seg s' fs', s.getOpenSegment cfg fs = ⟨some seg, s', fs'⟩ ∧
      s'.openSegment = some seg ∧ s'.lastLogIndex = s.lastLogIndex ∧
      Writing cfg s' fs'.disk first offs content [] ∧
      s.openCounts cfg = (offs.length, content.length) ∧
      Unsynced fs fs' := by
  unfold getOpenSegment ensureOpen openCounts
  cases hopen : s.openSegment with
  | none =>
    obtain ⟨fs', hcreate, hdisk, hsteps⟩ := exec_unsynced henv
      (show fs.disk.apply (.create (.inprogress (s.lastLogIndex + 1))) = some _ from rfl) rfl
    dsimp only
    rw [show (new (s.lastLogIndex + 1)).fileName = .inprogress (s.lastLogIndex + 1)
      from rfl, hcreate]
    refine ⟨s.lastLogIndex + 1, [], [], new (s.lastLogIndex + 1),
      { s with openSegment := some (new (s.lastLogIndex + 1)), openListed := false }, fs',
      ?_, rfl, rfl, ?_, rfl, hsteps⟩
    · unfold rollOver
      dsimp only
      rw [if_pos (show (new (s.lastLogIndex + 1)).bytes ≤ cfg.maxSegmentSize from
        Nat.zero_le _)]
    · rw [hdisk]
      exact writing_new fs.disk h.first_le s.segments
  | some seg =>
    dsimp only
    unfold rollOver
    rw [hopen]
    dsimp only
    obtain ⟨file, hfile, hlen⟩ := h.file seg hopen
    have hisOpen := h.isOpen seg hopen
    by_cases hsize : seg.bytes ≤ cfg.maxSegmentSize
    · rw [if_pos hsize, if_pos hsize]
      refine ⟨seg.firstIndex, seg.offsetAndTerm, file, seg, s, fs, rfl, hopen, rfl,
        ⟨?_, ?_, ?_, ?_⟩, by rw [hlen], .refl fs⟩
      · rw [hopen, size_nil, Nat.add_zero, hlen, ← h.last seg hopen, ← hisOpen]
        exact congrArg some (by rw [offsetsFrom, append_nil])
      · rw [show encodeAll cfg.getChecksum cfg.checksumType [] = [] from rfl, append_nil, ← hfile]
        exact congrArg _ (if_pos hisOpen).symm
      · exact (h.entries seg hopen).symm
      · rw [h.entries seg hopen]
        exact h.first_le
    · rw [if_neg hsize, if_neg hsize]
      obtain ⟨fs₁, hclose, hsteps₁⟩ := close_unsynced henv hsegments hisOpen hfile
      obtain ⟨fs', hcreate, hdisk, hsteps'⟩ := exec_unsynced henv
        (show fs₁.disk.apply (.create (.inprogress (s.lastLogIndex + 1))) = some _ from rfl) rfl
      rw [hclose]
      dsimp only
      rw [show (new (s.lastLogIndex + 1)).fileName = .inprogress (s.lastLogIndex + 1)
        from rfl, hcreate]
      refine ⟨s.lastLogIndex + 1, [], [], new (s.lastLogIndex + 1), _, fs', rfl, rfl, rfl,
        ?_, rfl, hsteps₁.trans hsteps'⟩
      rw [hdisk]
      exact writing_new fs₁.disk h.first_le _

end

section

variable (h : Writing cfg s fs.disk first offs content es)
include h

theorem append_writing {seg : Segment} (hopen : s.openSegment = some seg)
    (hindex : e.index = s.lastLogIndex + 1) :
    ∃ seg' fs', seg.append cfg e fs = (true, seg', fs') ∧
      Writing cfg { s with openSegment := some seg', lastLogIndex := s.lastLogIndex + 1 } fs'.disk
        first offs content (es ++ [e]) ∧ Unsynced fs fs' := by
  cases hopen.symm.trans h.opened
  obtain ⟨fs', hwrite, hdisk, hvia⟩ := writeAll_spec (P := fun _ => True) henv
    (encode cfg.getChecksum cfg.checksumType e) h.file fun _ _ => trivial
  have hlast : encodeAll cfg.getChecksum cfg.checksumType [e] =
      encode cfg.getChecksum cfg.checksumType e := append_nil _
  refine ⟨⟨first, s.lastLogIndex + 1, true, content.length + size es +
    (encode cfg.getChecksum cfg.checksumType e).length, offs ++ offsetsFrom content.length es ++
      [(content.length + size es, e.term)]⟩, fs', ?_, ⟨?_, ?_, ?_, h.first_le⟩,
    .writeAll hwrite hvia⟩
  · unfold append
    rw [if_neg (show ¬ true = false from nofun)]
    dsimp only
    rw [if_neg (fun hne => hne hindex), show (fileName _) = .inprogress first from rfl, hwrite]
  · rw [offsetsFrom_append, size_append, length_encode, size_cons, size_nil, Nat.add_zero,
      Nat.add_assoc, append_assoc]
    rfl
  · rw [hdisk, Disk.put_self, encodeAll_append, hlast, append_assoc]
  · dsimp only
    rw [length_append, length_singleton, h.last]
    omega

theorem appendEntry_writing (hsize : content.length + size es ≤ cfg.maxSegmentSize)
    (hindex : e.index = s.lastLogIndex + 1) :
    ∃ s' fs', s.appendEntry cfg e fs = ⟨true, s', fs'⟩ ∧
      Writing cfg s' fs'.disk first offs content (es ++ [e]) ∧
      s'.lastLogIndex = s.lastLogIndex + 1 ∧ Unsynced fs fs' := by
  have hopen : s.getOpenSegment cfg fs = ⟨s.openSegment, s, fs⟩ := by
    unfold getOpenSegment ensureOpen
    rw [h.opened]
    dsimp only
    unfold rollOver
    rw [h.opened]
    exact if_pos hsize
  obtain ⟨seg', fs', happend, hwriting, hsteps⟩ := append_writing henv h h.opened hindex
  refine ⟨_, fs', ?_, hwriting, rfl, hsteps⟩
  unfold appendEntry
  rw [hopen, h.opened]
  dsimp only
  rw [happend]

end

section

include hsegments

/-- An entry goes to the open segment, or to a new one where that is full. -/
theorem appendEntry_writable (h : Writable s fs.disk) (hindex : e.index = s.lastLogIndex + 1) :
    ∃ first offs content s' fs', s.appendEntry cfg e fs = ⟨true, s', fs'⟩ ∧
      Writing cfg s' fs'.disk first offs content [e] ∧ s'.lastLogIndex = s.lastLogIndex + 1 ∧
      s.openCounts cfg = (offs.length, content.length) ∧
      s.lastLogIndex + 1 = first + offs.length ∧ Unsynced fs fs' := by
  obtain ⟨first, offs, content, seg, s₁, fs₁, hopen, hseg, hlast₁, hwriting₁, hcounts, hsteps₁⟩ :=
    getOpenSegment_writing henv hsegments h
  obtain ⟨seg', fs₂, happend, hwriting₂, hsteps₂⟩ := append_writing henv hwriting₁ hseg
    (by rw [hlast₁]; exact hindex)
  refine ⟨first, offs, content, _, fs₂, ?_, hwriting₂, congrArg (· + 1) hlast₁, hcounts,
    hlast₁ ▸ hwriting₁.last, hsteps₁.trans hsteps₂⟩
  unfold appendEntry
  rw [hopen]
  dsimp only
  rw [happend]

/-- All entries go to the segment that is open, or one that begins after the last entry before is
open at the end. -/
theorem appendLoop_cases {rest : List LogEntry} (h : Writing cfg s fs.disk first offs content es)
    (hnumbered : NumberedFrom (s.lastLogIndex + 1) rest) :
    ∃ s' fs', s.appendLoop cfg rest fs = ⟨(rest.length, true), s', fs'⟩ ∧ Unsynced fs fs' ∧
      ((∀ i < rest.length, content.length + size (es ++ rest.take i) ≤ cfg.maxSegmentSize) ∧
          Writing cfg s' fs'.disk first offs content (es ++ rest) ∨
        (∃ i < rest.length, cfg.maxSegmentSize < content.length + size (es ++ rest.take i)) ∧
          ∃ first' offs' content' es', s.lastLogIndex < first' ∧
            Writing cfg s' fs'.disk first' offs' content' es') := by
  induction rest generalizing s fs first offs content es with
  | nil => exact ⟨s, fs, rfl, .refl fs, .inl ⟨nofun, by rwa [append_nil]⟩⟩
  | cons e rest ih =>
    obtain ⟨hindex, hrest⟩ := numberedFrom_cons.mp hnumbered
    have htake (i : ℕ) : es ++ (e :: rest).take (i + 1) = es ++ [e] ++ rest.take i := by
      rw [take_succ_cons, append_assoc, singleton_append]
    by_cases hfits : content.length + size es ≤ cfg.maxSegmentSize
    · obtain ⟨s₁, fs₁, happend, hwriting₁, hlast₁, hsteps₁⟩ :=
        appendEntry_writing henv h hfits hindex
      obtain ⟨s', fs', hloop, hsteps', hcases⟩ := ih hwriting₁ (by rwa [hlast₁])
      refine ⟨s', fs', appendLoop_cons happend hloop, hsteps₁.trans hsteps', ?_⟩
      rcases hcases with ⟨hall, hwriting'⟩ |
        ⟨⟨i, hi, hover⟩, first', offs', content', es', hlt, hwriting'⟩
      · refine .inl ⟨fun i hi => ?_, by rwa [append_assoc, singleton_append] at hwriting'⟩
        cases i with
        | zero => rwa [take_zero, append_nil]
        | succ i =>
          rw [htake]
          exact hall i (Nat.lt_of_succ_lt_succ hi)
      · exact .inr ⟨⟨i + 1, Nat.succ_lt_succ hi, by rwa [htake]⟩, first', offs', content', es',
          by omega, hwriting'⟩
    · -- the segment is full
      obtain ⟨first₁, offs₁, content₁, s₁, fs₁, happend, hwriting₁, hlast₁, hcounts, hstart,
        hsteps₁⟩ :=
        appendEntry_writable henv hsegments h.writable hindex
      have hoffs : 0 = offs₁.length := by
        rw [openCounts, h.opened] at hcounts
        exact (congrArg Prod.fst (if_neg hfits)).symm.trans (congrArg Prod.fst hcounts)
      obtain ⟨s', fs', hloop, hsteps', hcases⟩ := ih hwriting₁ (by rwa [hlast₁])
      refine ⟨s', fs', appendLoop_cons happend hloop, hsteps₁.trans hsteps', .inr ⟨⟨0, ?_, ?_⟩, ?_⟩⟩
      · exact Nat.succ_pos _
      · rw [take_zero, append_nil]
        exact Nat.not_le.mp hfits
      · rcases hcases with ⟨-, hwriting'⟩ | ⟨-, first', offs', content', es', hlt, hwriting'⟩
        · exact ⟨first₁, offs₁, content₁, _, by omega, hwriting'⟩
        · exact ⟨first', offs', content', es', by omega, hwriting'⟩

end

end

theorem Writing.exists_entry (h : Writing cfg s fs.disk first offs content es)
    (hnumbered : NumberedFrom (first + offs.length) es) (he : e ∈ es) :
    ∃ seg offset length term, s.getSegment e.index = some seg ∧ seg.firstIndex = first ∧
      seg.getMeta e.index = some (offset, length, term) ∧
      ((content ++ encodeAll cfg.getChecksum cfg.checksumType es).drop offset).take length =
        encode cfg.getChecksum cfg.checksumType e := by
  obtain ⟨j, hj⟩ := mem_iff_getElem?.mp he
  obtain ⟨hlt, -⟩ := List.getElem?_eq_some_iff.mp hj
  have hindex : e.index = first + offs.length + j := by
    have hmap : (es.map LogEntry.index)[j]? = some e.index := by rw [getElem?_map, hj]; rfl
    rw [hnumbered, getElem?_range' hlt, Option.some.injEq] at hmap
    omega
  have hlast := h.last
  have hfirst := h.first_le
  refine ⟨⟨first, s.lastLogIndex, true, content.length + size es,
    offs ++ offsetsFrom content.length es⟩, content.length + size (es.take j),
    headerSize + e.data.length, e.term, ?_, rfl, ?_, ?_⟩
  · unfold getSegment
    rw [if_neg (by omega), if_neg (by omega), h.opened]
    exact if_pos (by dsimp only; omega)
  · rw [hindex]
    exact Chunk.getMeta_of_offsets rfl rfl hlast hj
  · rw [Chunk.encodeAll_split _ _ hj, ← length_encodeAll cfg.getChecksum cfg.checksumType,
      ← length_append, append_assoc (encodeAll _ _ _), ← append_assoc content,
      drop_left]
    exact take_left' (length_encode e)

/-- What the last step of `append_entries` does: the open segment is synced, if it has two entries
or more. -/
theorem appendEntries_eq {s' : SegmentLogStorage} (henv : cfg.env.Reliable)
    (hsync : cfg.raftSync = true) (henable : cfg.enableSync = true)
    (hindex : e.index = s.lastLogIndex + 1)
    (hloop : s.appendLoop cfg (e :: es) fs = ⟨((e :: es).length, true), s', fs'⟩)
    {part : List LogEntry} (h : Writing cfg s' fs'.disk first offs content part) :
    s.appendEntries cfg (e :: es) fs = ⟨(e :: es).length, s', if first < s'.lastLogIndex then
      ⟨fs'.disk, fs'.done ++ [.sync (.inprogress first)], fs'.tried + 1⟩ else fs'⟩ := by
  unfold appendEntries
  dsimp only
  rw [if_neg (fun hne => hne hindex.symm), hloop, if_pos rfl, h.opened]
  dsimp only
  unfold sync
  split_ifs with hlt hflags
  · rw [show fileName _ = .inprogress first from rfl,
      exec_of_apply henv (show fs'.disk.apply (.sync (.inprogress first)) = some fs'.disk by
        rw [Disk.apply, h.file]; rfl)]
  · rw [hsync, henable] at hflags
    exact absurd rfl hflags
  · rfl

/-- **Entries that are told to be appended are on disk for good just if** they go to one segment
with two entries or more. All calls to the file system succeed and are done, `raft_sync` is on and
`raft_sync_segments` is off. -/
theorem appendEntries_durable_iff (henv : cfg.env.Reliable) (hsync : cfg.raftSync = true)
    (henable : cfg.enableSync = true) (hsegments : cfg.raftSyncSegments = false)
    (h : Writable s fs.disk) (hnumbered : NumberedFrom (s.lastLogIndex + 1) es) :
    (s.appendEntries cfg es fs).ret = es.length ∧
      ((∀ e ∈ es, Durable cfg fs (s.appendEntries cfg es fs) e) ↔ Together cfg s es) := by
  cases es with
  | nil => exact ⟨rfl, iff_of_true nofun (.inl rfl)⟩
  | cons e₀ es =>
    obtain ⟨hindex, hrest⟩ := numberedFrom_cons.mp hnumbered
    obtain ⟨first, offs, content, s₁, fs₁, happend, hwriting₁, hlast₁, hcounts, hstart, hsteps₁⟩ :=
      appendEntry_writable henv hsegments h hindex
    obtain ⟨s', fs', hloop, hsteps', hcases⟩ :=
      appendLoop_cases henv hsegments hwriting₁ (by rwa [hlast₁])
    have hsteps := hsteps₁.trans hsteps'
    unfold Together
    rw [hcounts]
    rcases hcases with ⟨hall, hwriting⟩ |
      ⟨⟨i, hi, hover⟩, first', offs', content', es', hlt, hwriting⟩
    all_goals
      rw [appendEntries_eq henv hsync henable hindex (appendLoop_cons happend hloop) hwriting]
      refine ⟨rfl, ?_⟩
    · have hlast := hwriting.last
      rw [singleton_append] at hwriting hlast
      by_cases hcount : 2 ≤ offs.length + (e₀ :: es).length
      · refine iff_of_true (fun e he => ?_) (.inr ⟨hcount, fun i hpos hi => ?_⟩)
        · rw [if_pos (by omega)]
          obtain ⟨seg, offset, length, term, hget, hfirst, hmeta, hdata⟩ :=
            hwriting.exists_entry (hstart ▸ hnumbered) he
          exact ⟨seg, offset, length, term, hget, hmeta, fs', .inprogress first, _, [], hsteps.via,
            rfl, congrArg some hfirst.symm, hwriting.file, hdata⟩
        · obtain ⟨i, rfl⟩ : ∃ j, i = j + 1 := ⟨i - 1, by omega⟩
          exact hall i (Nat.lt_of_succ_lt_succ hi)
      · -- the only entry of its segment
        refine iff_of_false (fun hdurable => ?_) fun htogether =>
          hcount (htogether.resolve_left (cons_ne_nil _ _)).1
        obtain ⟨steps, hdone, -, hnone⟩ := hsteps
        obtain ⟨steps', name, -, hdone', hmem, -⟩ := (hdurable e₀ mem_cons_self).exists_sync
        rw [if_neg (by omega), hdone] at hdone'
        rw [← append_cancel_left hdone'] at hmem
        exact Bool.false_ne_true (hnone _ hmem).symm
    · -- the segment that is synced begins after the first entry
      refine iff_of_false (fun hdurable => ?_) fun htogether => Nat.not_le.mpr hover
        ((htogether.resolve_left (cons_ne_nil _ _)).2 (i + 1) (Nat.succ_pos i)
          (Nat.succ_lt_succ hi))
      obtain ⟨steps, hdone, -, hnone⟩ := hsteps
      obtain ⟨steps', name, first₂, hdone', hmem, hname, hle⟩ :=
        (hdurable e₀ mem_cons_self).exists_sync
      have hsub : steps' ⊆ steps ++ [.sync (.inprogress first')] := by
        split_ifs at hdone' <;> rw [hdone] at hdone'
        · rw [append_assoc] at hdone'
          exact (append_cancel_left hdone') ▸ Subset.refl _
        · exact (append_cancel_left hdone') ▸ subset_append_left _ _
      rcases mem_append.mp (hsub hmem) with hmem | hmem
      · exact Bool.false_ne_true (hnone _ hmem).symm
      · cases mem_singleton.mp hmem
        cases hname
        omega

end Writing

/-! ## Entries that are not synced -/

namespace Sample

def firstEntry : Outcome ℤ := (after []).segments.appendEntries cfg [noOp 1] (after []).fs

/-- Five entries with two segments that are closed on the way. -/
def fiveEntries : Outcome ℤ :=
  (after []).segments.appendEntries cfg [noOp 1, noOp 2, noOp 3, noOp 4, noOp 5] (after []).fs

/-- One more entry goes to the segment that is open. -/
def oneMore : Outcome ℤ :=
  (after [.append [noOp 1]]).segments.appendEntries cfg [noOp 2] (after [.append [noOp 1]]).fs

end Sample

open Segments.Sample

theorem appendEntries_durable_iff_second : oneMore.ret = 1 ∧ ∀ e ∈ [noOp 2],
      Durable cfg (after [.append [noOp 1]]).fs oneMore e := by
  have hrun : [ListLog.Op.append [noOp 1]].foldlM
      (Transition.System.guardStep Storages.Safe (Storages.step cfg))
      (Storages.init cfg) = some (after [.append [noOp 1]]) := rfl
  obtain ⟨L, listed, hholds⟩ := (Storages.related_of_reachable reliable
    ⟨_, rfl, Transition.System.run_restrict_of_foldlM hrun⟩).segments
  obtain ⟨hret, hiff⟩ := @appendEntries_durable_iff _ _ _ [noOp 2] reliable rfl rfl rfl
    hholds.writable rfl
  refine ⟨hret, hiff.mpr (.inr ⟨by decide, fun i hi hlt => ?_⟩)⟩
  rw [length_singleton] at hlt
  omega

/-- **Entries that are not synced.** All calls succeed, `raft_sync` is on and all other flags have
their defaults. The first entry of a log is told to be appended, and no file was synced; of five
entries that need three segments all are told to be appended, and no file was synced either. -/
theorem first_entry_not_synced :
    cfg.env.Reliable ∧ cfg.raftSync = true ∧ cfg.raftSyncSegments = false ∧
      cfg.enableSync = true ∧ firstEntry.ret = 1 ∧ fiveEntries.ret = 5 ∧
      ¬ Durable cfg (after []).fs firstEntry (noOp 1) ∧
      ∀ i ∈ [1, 2, 3, 4, 5], ¬ Durable cfg (after []).fs fiveEntries (noOp i) := by
  have hnone : ∀ r : Outcome ℤ, (∀ step ∈ r.fs.done, isSync step = false) → ∀ e,
      ¬ Durable cfg (after []).fs r e := by
    intro r hr e he
    obtain ⟨steps, name, -, hdone, hmem, -⟩ := he.exists_sync
    exact Bool.false_ne_true (hr (.sync name) (hdone ▸ mem_append_right _ hmem)).symm
  refine ⟨reliable, rfl, rfl, rfl, rfl, rfl, hnone _ ?_ _, fun i _ => hnone _ ?_ _⟩ <;> decide

end Braft.Segments
