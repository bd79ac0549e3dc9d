import Mathlib.Data.List.DropRight
import Nori.Braft.Segment.Format
import Nori.Container.ListLog
import Nori.Container.OrderedMap
import Nori.Files.FileSystem

/-!
# Log storages

`SegmentLogStorage` keeps the log in segment files: closed ones, of which the name tells the first
and the last index, and one that is open, to which entries are appended until it is too large. A
meta file has the first index of the log. `MemoryLogStorage` keeps the log in memory.

`_segments` is a map of segments by their first index and `_open_segment` a pointer to a segment.
Both can point to the same segment: `truncate_suffix` opens a closed segment again without taking it
out of the map. Here `segments` has the segments of the map but for this one, and `openListed` says
whether the open segment is in the map too; as its first index is the largest, it would be the last
one there.

Files are named here where the source has descriptors. Both are the same file unless a call to
rename one has failed.
-/

namespace Braft.Segments

open Butil Files Container

/-- The names of files: `log_<first>_<last>`, `log_inprogress_<first>`, and one of these with the
suffix of files that are to be unlinked. -/
inductive FileName
  | closed (firstIndex lastIndex : ℕ)
  | inprogress (firstIndex : ℕ)
  | tmp (name : FileName)
deriving DecidableEq

abbrev LogDisk := Disk FileName ℕ

abbrev Fs := FileSystem FileName ℕ

/-- Flags, and how checksums are computed. -/
structure Config where
  getChecksum : GetChecksum
  checksumType : ChecksumType
  maxSegmentSize : ℕ
  raftSync : Bool
  raftSyncSegments : Bool
  enableSync : Bool
  env : Env

/-! ## Segments -/

structure Segment where
  firstIndex : ℕ
  lastIndex : ℕ
  isOpen : Bool
  bytes : ℕ
  offsetAndTerm : List (ℕ × ℕ)
deriving DecidableEq

namespace Segment

/-- A new segment that is open. -/
def new (firstIndex : ℕ) : Segment := ⟨firstIndex, firstIndex - 1, true, 0, []⟩

def fileName (seg : Segment) : FileName :=
  if seg.isOpen then .inprogress seg.firstIndex else .closed seg.firstIndex seg.lastIndex

/-- `append`; an entry that does not follow is refused. What was written of an entry stays in the
file if a write fails. -/
def append (cfg : Config) (e : LogEntry) (seg : Segment) (fs : Fs) : Bool × Segment × Fs :=
  if seg.isOpen = false then (false, seg, fs)
  else if e.index ≠ seg.lastIndex + 1 then (false, seg, fs)
  else
    let data := encode cfg.getChecksum cfg.checksumType e
    match fs.writeAll cfg.env seg.fileName data with
    | (false, fs) => (false, seg, fs)
    | (true, fs) =>
      (true, { seg with
          offsetAndTerm := seg.offsetAndTerm ++ [(seg.bytes, e.term)]
          lastIndex := seg.lastIndex + 1
          bytes := seg.bytes + data.length }, fs)

/-- `sync`: nothing is to be done for a segment with a single entry. -/
def sync (cfg : Config) (seg : Segment) (fs : Fs) : Bool × Fs :=
  if seg.firstIndex < seg.lastIndex then
    if cfg.raftSync && cfg.enableSync then fs.exec cfg.env (.sync seg.fileName) else (true, fs)
  else (true, fs)

/-- `close`: the file is renamed. -/
def close (cfg : Config) (seg : Segment) (fs : Fs) : Bool × Segment × Fs :=
  let (ok, fs) :=
    if seg.firstIndex < seg.lastIndex ∧ (cfg.raftSyncSegments && cfg.enableSync) then
      fs.exec cfg.env (.sync seg.fileName)
    else (true, fs)
  if ok then
    let closed := { seg with isOpen := false }
    let (ok, fs) := fs.exec cfg.env (.rename (.inprogress seg.firstIndex) closed.fileName)
    (ok, closed, fs)
  else (false, seg, fs)

/-- `unlink`: the file is renamed, and then unlinked in the background. -/
def unlink (cfg : Config) (seg : Segment) (fs : Fs) : Bool × Fs :=
  match fs.exec cfg.env (.rename seg.fileName (.tmp seg.fileName)) with
  | (false, fs) => (false, fs)
  | (true, fs) => (true, (fs.exec cfg.env (.unlink (.tmp seg.fileName))).2)

/-- The file of a closed segment is renamed back to that of an open one. -/
def reopen (cfg : Config) (seg : Segment) (fs : Fs) : Bool × Segment × Fs :=
  if seg.isOpen then (true, seg, fs)
  else
    match fs.exec cfg.env (.rename seg.fileName (.inprogress seg.firstIndex)) with
    | (true, fs) => (true, { seg with isOpen := true }, fs)
    | (false, fs) => (false, seg, fs)

/-- `truncate`: a segment that is closed is opened again first. -/
def truncate (cfg : Config) (lastIndexKept : ℕ) (seg : Segment) (fs : Fs) : Bool × Segment × Fs :=
  if seg.lastIndex ≤ lastIndexKept then (true, seg, fs)
  else
    let firstTruncated := lastIndexKept + 1 - seg.firstIndex
    let size := ((seg.offsetAndTerm[firstTruncated]?).map Prod.fst).getD 0
    match seg.reopen cfg fs with
    | (false, seg, fs) => (false, seg, fs)
    | (true, seg, fs) =>
      match fs.exec cfg.env (.truncate seg.fileName size) with
      | (false, fs) => (false, seg, fs)
      | (true, fs) =>
        (true, { seg with
            offsetAndTerm := seg.offsetAndTerm.take firstTruncated
            lastIndex := lastIndexKept
            bytes := size }, fs)

/-- `_get_meta`: offset, length and term of an entry. -/
def getMeta (index : ℕ) (seg : Segment) : Option (ℕ × ℕ × ℕ) :=
  if seg.lastIndex < index ∨ index < seg.firstIndex ∨ seg.lastIndex + 1 = seg.firstIndex then none
  else do
    let (offset, term) ← seg.offsetAndTerm[index - seg.firstIndex]?
    let next :=
      if index < seg.lastIndex then
        ((seg.offsetAndTerm[index - seg.firstIndex + 1]?).map Prod.fst).getD 0
      else seg.bytes
    return (offset, next - offset, term)

/-- The entry that `get` makes of a header and data. An entry without operation has no data. There
is no entry for a type or a term that `append` cannot have written. -/
def entryOf (index : ℕ) (header : EntryHeader) (data : Bytes) : Option LogEntry :=
  match EntryType.ofCode header.type with
  | none => none
  | some type =>
    if hterm : header.term < 2 ^ 63 then
      some ⟨index, header.term, type, if type = .noOp then [] else data, hterm, fun h => if_pos h⟩
    else none

/-- `get`: the entry at an index, with that index. -/
def get (cfg : Config) (disk : LogDisk) (index : ℕ) (seg : Segment) : Option LogEntry :=
  match seg.getMeta index, disk.files seg.fileName with
  | some (offset, length, _), some file =>
    match loadEntry cfg.getChecksum file offset length with
    | .error _ => none
    | .ok (header, data) => entryOf index header data
  | _, _ => none

def getTerm (index : ℕ) (seg : Segment) : ℕ :=
  match seg.getMeta index with
  | some (_, _, term) => term
  | none => 0

/-- `load`: the complete entries of the file are found, and what is behind them is cut off. A
closed segment has as many entries as its name says. -/
def load (cfg : Config) (seg : Segment) (fs : Fs) : Bool × Segment × Fs :=
  match fs.disk.files seg.fileName with
  | none => (false, seg, fs)
  | some file =>
    match scan cfg.getChecksum file file.length 0 with
    | .error _ => (false, seg, fs)
    | .ok (offsetAndTerm, size) =>
      let actualLast := seg.firstIndex + offsetAndTerm.length - 1
      if seg.isOpen = false ∧ actualLast ≠ seg.lastIndex then (false, seg, fs)
      else
        let seg := { seg with offsetAndTerm, lastIndex := actualLast, bytes := size }
        if size ≠ file.length then
          let (ok, fs) := fs.exec cfg.env (.truncate seg.fileName size)
          (ok, seg, fs)
        else (true, seg, fs)

end Segment

/-! ## `SegmentLogStorage` -/

structure SegmentLogStorage where
  firstLogIndex : ℕ
  lastLogIndex : ℕ
  segments : List Segment
  openSegment : Option Segment
  openListed : Bool
deriving DecidableEq

/-- The outcome of an operation, and what it leaves. -/
structure Outcome (α : Type) where
  ret : α
  storage : SegmentLogStorage
  fs : Fs

namespace SegmentLogStorage

/-- The first half of `open_segment`: there is an open segment. -/
def ensureOpen (cfg : Config) (s : SegmentLogStorage) (fs : Fs) : Outcome Bool :=
  match s.openSegment with
  | some _ => ⟨true, s, fs⟩
  | none =>
    let seg := Segment.new (s.lastLogIndex + 1)
    match fs.exec cfg.env (.create seg.fileName) with
    | (true, fs) => ⟨true, { s with openSegment := some seg, openListed := false }, fs⟩
    | (false, fs) => ⟨false, s, fs⟩

/-- The second half: an open segment that is too large is closed, and a new one is created. If that
fails, the old segment takes its place again. -/
def rollOver (cfg : Config) (s : SegmentLogStorage) (fs : Fs) : Outcome (Option Segment) :=
  match s.openSegment with
  | none => ⟨none, s, fs⟩
  | some seg =>
    if seg.bytes ≤ cfg.maxSegmentSize then ⟨some seg, s, fs⟩
    else
      match seg.close cfg fs with
      | (false, seg, fs) => ⟨none, { s with openSegment := some seg, openListed := false }, fs⟩
      | (true, seg, fs) =>
        let new := Segment.new (s.lastLogIndex + 1)
        match fs.exec cfg.env (.create new.fileName) with
        | (true, fs) =>
          ⟨some new, { s with
              segments := s.segments ++ [seg]
              openSegment := some new
              openListed := false }, fs⟩
        | (false, fs) => ⟨none, { s with openSegment := some seg, openListed := false }, fs⟩

/-- `open_segment` -/
def getOpenSegment (cfg : Config) (s : SegmentLogStorage) (fs : Fs) : Outcome (Option Segment) :=
  match s.ensureOpen cfg fs with
  | ⟨false, s, fs⟩ => ⟨none, s, fs⟩
  | ⟨true, s, fs⟩ => s.rollOver cfg fs

/-- One entry is appended to the open segment. -/
def appendEntry (cfg : Config) (e : LogEntry) (s : SegmentLogStorage) (fs : Fs) : Outcome Bool :=
  match s.getOpenSegment cfg fs with
  | ⟨none, s, fs⟩ => ⟨false, s, fs⟩
  | ⟨some seg, s, fs⟩ =>
    match seg.append cfg e fs with
    | (false, _, fs) => ⟨false, s, fs⟩
    | (true, seg, fs) =>
      ⟨true, { s with openSegment := some seg, lastLogIndex := s.lastLogIndex + 1 }, fs⟩

/-- The loop of `append_entries`: how many entries were appended, and whether all were. -/
def appendLoop (cfg : Config) : List LogEntry → SegmentLogStorage → Fs → Outcome (ℕ × Bool)
  | [], s, fs => ⟨(0, true), s, fs⟩
  | e :: es, s, fs =>
    match s.appendEntry cfg e fs with
    | ⟨false, s, fs⟩ => ⟨(0, false), s, fs⟩
    | ⟨true, s, fs⟩ =>
      let r := appendLoop cfg es s fs
      { r with ret := (r.ret.1 + 1, r.ret.2) }

/-- `append_entries`: the last segment is synced when all entries are written, and the outcome of
that is not looked at. -/
def appendEntries (cfg : Config) (entries : List LogEntry) (s : SegmentLogStorage) (fs : Fs) :
    Outcome ℤ :=
  match entries with
  | [] => ⟨0, s, fs⟩
  | e :: _ =>
    if s.lastLogIndex + 1 ≠ e.index then ⟨-1, s, fs⟩
    else
      let r := appendLoop cfg entries s fs
      if r.ret.2 then
        match r.storage.openSegment with
        | some seg => ⟨r.ret.1, r.storage, (seg.sync cfg r.fs).2⟩
        | none => ⟨r.ret.1, r.storage, r.fs⟩
      else ⟨r.ret.1, r.storage, r.fs⟩

/-- `get_segment`: the last segment that begins at the index or before. -/
def getSegment (index : ℕ) (s : SegmentLogStorage) : Option Segment :=
  if s.firstLogIndex = s.lastLogIndex + 1 then none
  else if index < s.firstLogIndex ∨ s.lastLogIndex < index then none
  else
    match s.openSegment with
    | some seg =>
      if seg.firstIndex ≤ index then some seg
      else s.segments.findRev? fun seg => seg.firstIndex ≤ index
    | none => s.segments.findRev? fun seg => seg.firstIndex ≤ index

def getEntry (cfg : Config) (disk : LogDisk) (index : ℕ) (s : SegmentLogStorage) :
    Option LogEntry := do
  let seg ← s.getSegment index
  seg.get cfg disk index

def getTerm (index : ℕ) (s : SegmentLogStorage) : ℕ :=
  match s.getSegment index with
  | some seg => seg.getTerm index
  | none => 0

/-- Segments are unlinked, whatever comes of it. -/
def unlinkAll (cfg : Config) (popped : List Segment) (fs : Fs) : Fs :=
  popped.foldl (fun fs seg => (seg.unlink cfg fs).2) fs

/-- The open segment where segments are popped: twice, if it is in the map too. -/
def openPopped (s : SegmentLogStorage) : List Segment :=
  match s.openSegment with
  | some seg => if s.openListed then [seg, seg] else [seg]
  | none => []

/-- `pop_segments`: the segments that lie before an index. -/
def popSegments (firstIndexKept : ℕ) (s : SegmentLogStorage) : List Segment × SegmentLogStorage :=
  let isBefore (seg : Segment) : Bool := seg.lastIndex < firstIndexKept
  let popped := s.segments.takeWhile isBefore
  let s := { s with firstLogIndex := firstIndexKept, segments := s.segments.dropWhile isBefore }
  match s.segments, s.openSegment with
  | _ :: _, _ => (popped, s)
  | [], some seg =>
    if seg.lastIndex < firstIndexKept then
      (popped ++ s.openPopped,
        { s with openSegment := none, openListed := false, lastLogIndex := firstIndexKept - 1 })
    else (popped, s)
  | [], none => (popped, { s with lastLogIndex := firstIndexKept - 1 })

/-- `truncate_prefix` -/
def truncatePrefix (cfg : Config) (firstIndexKept : ℕ) (s : SegmentLogStorage) (fs : Fs) :
    Outcome Bool :=
  if firstIndexKept ≤ s.firstLogIndex then ⟨true, s, fs⟩
  else
    match fs.exec cfg.env (.save firstIndexKept) with
    | (false, fs) => ⟨false, s, fs⟩
    | (true, fs) =>
      let (popped, s) := s.popSegments firstIndexKept
      ⟨true, s, unlinkAll cfg popped fs⟩

/-- What `pop_segments_from_back` finds: segments to be unlinked, from the last one on, and the
last one that stays, which is the open one or the last one of the map. -/
structure PoppedBack where
  popped : List Segment
  lastSegment : Option Segment
  storage : SegmentLogStorage

/-- The second half of `pop_segments_from_back`, where no segment is open (any more). -/
def popListed (lastIndexKept : ℕ) (popped : List Segment) (s : SegmentLogStorage) : PoppedBack :=
  let isAfter (seg : Segment) : Bool := lastIndexKept < seg.firstIndex
  let rest := s.segments.rdropWhile isAfter
  let popped := popped ++ (s.segments.rtakeWhile isAfter).reverse
  match rest.getLast? with
  | some seg => ⟨popped, some seg, { s with segments := rest }⟩
  | none => ⟨popped, none, { s with segments := rest, firstLogIndex := lastIndexKept + 1 }⟩

/-- `pop_segments_from_back` -/
def popSegmentsFromBack (lastIndexKept : ℕ) (s : SegmentLogStorage) : PoppedBack :=
  let s := { s with lastLogIndex := lastIndexKept }
  match s.openSegment with
  | some seg =>
    if seg.firstIndex ≤ lastIndexKept then ⟨[], some seg, s⟩
    else
      { s with openSegment := none, openListed := false }.popListed lastIndexKept s.openPopped
  | none => s.popListed lastIndexKept []

/-- Segments are unlinked one after the other, until one cannot be. -/
def unlinkWhile (cfg : Config) : List Segment → Fs → Bool × Fs
  | [], fs => (true, fs)
  | seg :: rest, fs =>
    match seg.unlink cfg fs with
    | (true, fs) => unlinkWhile cfg rest fs
    | (false, fs) => (false, fs)

/-- The last segment is truncated where it is. One that was closed is the open one then, and stays
in the map. -/
def truncateLast (cfg : Config) (lastIndexKept : ℕ) (seg : Segment) (s : SegmentLogStorage)
    (fs : Fs) : Outcome Bool :=
  match seg.truncate cfg lastIndexKept fs, s.openSegment with
  | (ok, seg', fs), some _ => ⟨ok, { s with openSegment := some seg' }, fs⟩
  | (ok, seg', fs), none =>
    if ok && !seg.isOpen && seg'.isOpen then
      ⟨ok,
        { s with
          segments := s.segments.dropLast, openSegment := some seg', openListed := true }, fs⟩
    else ⟨ok, { s with segments := s.segments.dropLast ++ [seg'] }, fs⟩

/-- The last segment is dropped: what was truncated from both sides is all there was. -/
def dropLastSegment (s : SegmentLogStorage) : SegmentLogStorage :=
  match s.openSegment with
  | some _ => { s with openSegment := none, openListed := false }
  | none => { s with segments := s.segments.dropLast }

/-- `truncate_suffix`; it is an error if there was no segment. -/
def truncateSuffix (cfg : Config) (lastIndexKept : ℕ) (s : SegmentLogStorage) (fs : Fs) :
    Outcome Bool :=
  let ⟨popped, lastSegment, s⟩ := s.popSegmentsFromBack lastIndexKept
  match lastSegment with
  | none =>
    match unlinkWhile cfg popped fs with
    | (ok, fs) => ⟨ok && popped ≠ [], s, fs⟩
  | some seg =>
    if s.firstLogIndex ≤ s.lastLogIndex then
      match unlinkWhile cfg popped fs with
      | (false, fs) => ⟨false, s, fs⟩
      | (true, fs) => s.truncateLast cfg lastIndexKept seg fs
    else
      match unlinkWhile cfg (popped ++ [seg]) fs with
      | (ok, fs) => ⟨ok, s.dropLastSegment, fs⟩

/-- `reset` -/
def reset (cfg : Config) (nextLogIndex : ℕ) (s : SegmentLogStorage) (fs : Fs) : Outcome Bool :=
  if nextLogIndex = 0 then ⟨false, s, fs⟩
  else
    let popped := s.segments ++ s.openPopped
    let s : SegmentLogStorage := ⟨nextLogIndex, nextLogIndex - 1, [], none, false⟩
    match fs.exec cfg.env (.save nextLogIndex) with
    | (false, fs) => ⟨false, s, fs⟩
    | (true, fs) => ⟨true, s, unlinkAll cfg popped fs⟩

/-! ### `init` -/

/-- Segments whose files were found. -/
structure Listing where
  segments : OrderedMap ℕ Segment
  openSegment : Option Segment

/-- One name that `list_segments` reads. There cannot be two open segments. -/
def listFile (cfg : Config) (name : FileName) (l : Listing) (fs : Fs) : Option Listing × Fs :=
  match name with
  | .tmp _ => (some l, (fs.exec cfg.env (.unlink name)).2)
  | .closed firstIndex lastIndex =>
    (some { l with
      segments := l.segments.assign firstIndex ⟨firstIndex, lastIndex, false, 0, []⟩ }, fs)
  | .inprogress firstIndex =>
    match l.openSegment with
    | none => (some { l with openSegment := some (Segment.new firstIndex) }, fs)
    | some _ => (none, fs)

/-- The directory is read, in the order in which the system has its names. -/
def listFiles (cfg : Config) : List FileName → Listing → Fs → Option Listing × Fs
  | [], l, fs => (some l, fs)
  | name :: names, l, fs =>
    match listFile cfg name l fs with
    | (some l, fs) => listFiles cfg names l fs
    | (none, fs) => (none, fs)

/-- The segments that the map has must follow one another from the first index of the log on; those
that lie before it are unlinked. -/
def checkSegments (cfg : Config) (firstLogIndex : ℕ) :
    Option ℕ → List Segment → Fs → Option (List Segment) × Fs
  | _, [], fs => (some [], fs)
  | lastLogIndex, seg :: rest, fs =>
    if seg.lastIndex < seg.firstIndex then (none, fs)
    else if lastLogIndex.any fun last => seg.firstIndex ≠ last + 1 then (none, fs)
    else if lastLogIndex = none ∧ firstLogIndex < seg.firstIndex then (none, fs)
    else if lastLogIndex = none ∧ seg.lastIndex < firstLogIndex then
      checkSegments cfg firstLogIndex none rest (seg.unlink cfg fs).2
    else
      match checkSegments cfg firstLogIndex (some seg.lastIndex) rest fs with
      | (kept, fs) => (kept.map (seg :: ·), fs)

/-- Closed segments are loaded. -/
def loadClosed (cfg : Config) : List Segment → Fs → Option (List Segment) × Fs
  | [], fs => (some [], fs)
  | seg :: rest, fs =>
    match seg.load cfg fs with
    | (false, _, fs) => (none, fs)
    | (true, seg, fs) =>
      match loadClosed cfg rest fs with
      | (loaded, fs) => (loaded.map (seg :: ·), fs)

/-- The last index of the last segment, 0 if there is none. -/
def lastIndexOf (segments : List Segment) : ℕ := (segments.getLast?.map Segment.lastIndex).getD 0

/-- The last index that `load_segments` ends with. -/
def lastLogIndexOf (firstLogIndex lastLogIndex : ℕ) : ℕ :=
  if lastLogIndex = 0 then firstLogIndex - 1 else lastLogIndex

/-- `load_segments`; the open segment is unlinked if it lies before the first index. -/
def loadSegments (cfg : Config) (firstLogIndex : ℕ) (segments : List Segment)
    (openSegment : Option Segment) (fs : Fs) : Option SegmentLogStorage × Fs :=
  match loadClosed cfg segments fs with
  | (none, fs) => (none, fs)
  | (some segments, fs) =>
    let last := lastIndexOf segments
    match openSegment with
    | none => (some ⟨firstLogIndex, lastLogIndexOf firstLogIndex last, segments, none, false⟩, fs)
    | some seg =>
      match seg.load cfg fs with
      | (false, _, fs) => (none, fs)
      | (true, seg, fs) =>
        if seg.lastIndex < firstLogIndex then
          (some ⟨firstLogIndex, lastLogIndexOf firstLogIndex last, segments, none, false⟩,
            (seg.unlink cfg fs).2)
        else
          (some ⟨firstLogIndex, lastLogIndexOf firstLogIndex seg.lastIndex, segments, some seg,
            false⟩, fs)

/-- `init`, of a directory whose names are listed in some order. There is no storage if it fails.
Without a meta file, all files are removed. -/
def init (cfg : Config) (names : List FileName) (fs : Fs) : Option SegmentLogStorage × Fs :=
  match fs.disk.record with
  | none =>
    let fs := names.foldl (fun fs name => (fs.exec cfg.env (.unlink name)).2) fs
    match fs.exec cfg.env (.save 1) with
    | (true, fs) => (some ⟨1, 0, [], none, false⟩, fs)
    | (false, fs) => (none, fs)
  | some firstLogIndex =>
    match listFiles cfg names ⟨∅, none⟩ fs with
    | (none, fs) => (none, fs)
    | (some l, fs) =>
      match checkSegments cfg firstLogIndex none (l.segments.entries.map Prod.snd) fs with
      | (none, fs) => (none, fs)
      | (some segments, fs) => loadSegments cfg firstLogIndex segments l.openSegment fs

end SegmentLogStorage

/-! ## `MemoryLogStorage` -/

structure MemoryLogStorage where
  firstLogIndex : ℕ
  lastLogIndex : ℕ
  logEntryData : List LogEntry
deriving DecidableEq

namespace MemoryLogStorage

def init : MemoryLogStorage := ⟨1, 0, []⟩

def getEntry (index : ℕ) (m : MemoryLogStorage) : Option LogEntry :=
  if index < m.firstLogIndex ∨ m.lastLogIndex < index then none
  else m.logEntryData[index - m.firstLogIndex]?

def getTerm (index : ℕ) (m : MemoryLogStorage) : ℕ :=
  match m.getEntry index with
  | some e => e.term
  | none => 0

/-- `append_entry`: an entry that does not follow is left out. -/
def appendEntry (m : MemoryLogStorage) (e : LogEntry) : MemoryLogStorage :=
  if e.index ≠ m.lastLogIndex + 1 then m
  else { m with logEntryData := m.logEntryData ++ [e], lastLogIndex := m.lastLogIndex + 1 }

/-- `append_entries`, which tells the number of entries whatever comes of them. -/
def appendEntries (entries : List LogEntry) (m : MemoryLogStorage) : ℤ × MemoryLogStorage :=
  (entries.length, entries.foldl appendEntry m)

def truncatePrefix (firstIndexKept : ℕ) (m : MemoryLogStorage) : Bool × MemoryLogStorage :=
  (true,
    { firstLogIndex := firstIndexKept
      lastLogIndex := if m.lastLogIndex < firstIndexKept then firstIndexKept - 1 else m.lastLogIndex
      logEntryData := m.logEntryData.dropWhile fun e => e.index < firstIndexKept })

def truncateSuffix (lastIndexKept : ℕ) (m : MemoryLogStorage) : Bool × MemoryLogStorage :=
  (true,
    { firstLogIndex :=
        if lastIndexKept < m.firstLogIndex then lastIndexKept + 1 else m.firstLogIndex
      lastLogIndex := lastIndexKept
      logEntryData := m.logEntryData.rdropWhile fun e => lastIndexKept < e.index })

def reset (nextLogIndex : ℕ) (m : MemoryLogStorage) : Bool × MemoryLogStorage :=
  if nextLogIndex = 0 then (false, m) else (true, ⟨nextLogIndex, nextLogIndex - 1, []⟩)

end MemoryLogStorage

end Braft.Segments
