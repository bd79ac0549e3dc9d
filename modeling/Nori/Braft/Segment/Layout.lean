import Nori.Braft.Segment.Storage
import Nori.Files.Directory

/-!
# How a log lies in segments

A layout says which entries are in which segment, and from which index on the log is valid. The
storage, the files and the log are all functions of it. Reading the storage gives what the log has.
-/

namespace Braft.Segments

open Butil Files Container SegmentLogStorage ListLog Option List

/-- Entries with consecutive indexes, each with data that fits. -/
structure Chunk extends ListLog LogEntry where
  first_pos : 0 < first
  numbered : entries.map LogEntry.index = range' first entries.length
  fits : Fits entries

/-- The bytes that entries have in a file. -/
def size (es : List LogEntry) : ℕ := (es.map fun e => headerSize + e.data.length).sum

@[simp] theorem size_nil : size [] = 0 := rfl

@[simp] theorem size_cons (e : LogEntry) (es : List LogEntry) :
    size (e :: es) = headerSize + e.data.length + size es := sum_cons

@[simp] theorem size_append (es es' : List LogEntry) : size (es ++ es') = size es + size es' := by
  unfold size
  rw [map_append, sum_append]

theorem length_encodeAll (getChecksum : GetChecksum) (kind : ChecksumType) (es : List LogEntry) :
    (encodeAll getChecksum kind es).length = size es := by
  induction es with
  | nil => rfl
  | cons e es ih => rw [length_encodeAll_cons, ih, size_cons]

theorem encodeAll_append (getChecksum : GetChecksum) (kind : ChecksumType)
    (es es' : List LogEntry) : encodeAll getChecksum kind (es ++ es') =
      encodeAll getChecksum kind es ++ encodeAll getChecksum kind es' := by
  unfold encodeAll
  rw [map_append, flatten_append]

variable (offset : ℕ) (es : List LogEntry)

theorem offsetsFrom_append (es es' : List LogEntry) :
    offsetsFrom offset (es ++ es') =
      offsetsFrom offset es ++ offsetsFrom (offset + size es) es' := by
  induction es generalizing offset with
  | nil => rfl
  | cons e es ih =>
    rw [cons_append, offsetsFrom, ih, offsetsFrom, size_cons, Nat.add_assoc, cons_append]

@[simp] theorem length_offsetsFrom : (offsetsFrom offset es).length = es.length := by
  induction es generalizing offset with
  | nil => rfl
  | cons e es ih => rw [offsetsFrom, length_cons, ih, length_cons]

theorem offsetsFrom_getElem? (j : ℕ) :
    (offsetsFrom offset es)[j]? = es[j]?.map fun e => (offset + size (es.take j), e.term) := by
  induction es generalizing offset j with
  | nil => rfl
  | cons e es ih =>
    cases j with
    | zero => rfl
    | succ j =>
      rw [offsetsFrom, getElem?_cons_succ, ih, getElem?_cons_succ, take_succ_cons,
        size_cons, Nat.add_assoc]

theorem offsetsFrom_take (n : ℕ) :
    (offsetsFrom offset es).take n = offsetsFrom offset (es.take n) := by
  induction es generalizing offset n with
  | nil => rw [take_nil, offsetsFrom, take_nil]
  | cons e es ih =>
    cases n with
    | zero => rfl
    | succ n => rw [offsetsFrom, take_succ_cons, ih, take_succ_cons, offsetsFrom]

namespace Chunk

variable {c : Chunk} {i : ℕ}

/-- The segment with these entries. -/
def segment (isOpen : Bool) (c : Chunk) : Segment :=
  ⟨c.first, c.next - 1, isOpen, size c.entries, offsetsFrom 0 c.entries⟩

theorem first_le_next (c : Chunk) : c.first ≤ c.next := Nat.le_add_right _ _

theorem first_lt_next (h : c.entries ≠ []) : c.first < c.next := by
  have := length_pos_of_ne_nil h
  unfold ListLog.next
  omega

variable {e : LogEntry} {j : ℕ} {es : List LogEntry}

theorem index_eq (h : c.entries[j]? = some e) : e.index = c.first + j := by
  have hmap : (c.entries.map LogEntry.index)[j]? = some e.index := by rw [getElem?_map, h]; rfl
  obtain ⟨hj, -⟩ := List.getElem?_eq_some_iff.mp h
  rw [c.numbered, getElem?_range' hj, Option.some.injEq] at hmap
  omega

/-- An empty chunk. -/
def empty (first : ℕ) (hfirst : 0 < first) : Chunk := ⟨⟨first, []⟩, hfirst, rfl, nofun⟩

/-- One more entry. -/
def snoc (c : Chunk) (e : LogEntry) (hindex : e.index = c.next) (hfits : e.data.length < 2 ^ 32) :
    Chunk where
  toListLog := c.append [e]
  first_pos := c.first_pos
  numbered := by
    dsimp only [ListLog.append]
    rw [map_append, length_append, c.numbered, length_singleton, range'_concat,
      map_singleton, hindex, Nat.one_mul]
    rfl
  fits := forall_mem_append.mpr ⟨c.fits, forall_mem_singleton.mpr hfits⟩

/-- The first entries. -/
def take (c : Chunk) (n : ℕ) : Chunk where
  toListLog := ⟨c.first, c.entries.take n⟩
  first_pos := c.first_pos
  numbered := by
    rw [map_take, c.numbered, length_take]
    rcases le_total n c.entries.length with hn | hn
    · rw [take_range'_of_length_ge hn, min_eq_left hn]
    · rw [take_range'_of_length_le hn, min_eq_right hn]
  fits := fun e he => c.fits e (mem_of_mem_take he)

/-! ### Reading a segment -/

theorem exists_entry (hfirst : c.first ≤ i) (hnext : i < c.next) :
    ∃ e, c.entries[i - c.first]? = some e := by
  unfold ListLog.next at hnext
  exact ⟨_, getElem?_eq_getElem (by omega)⟩

theorem size_take_succ (h : es[j]? = some e) :
    size (es.take (j + 1)) = size (es.take j) + (headerSize + e.data.length) := by
  rw [take_add_one, h, toList_some, size_append, size_cons, size_nil, Nat.add_zero]

theorem getMeta_of_offsets {seg : Segment} {offs : List (ℕ × ℕ)} {b : ℕ}
    (hoffsets : seg.offsetAndTerm = offs ++ offsetsFrom b es)
    (hbytes : seg.bytes = b + size es)
    (hlast : seg.lastIndex + 1 = seg.firstIndex + offs.length + es.length)
    (he : es[j]? = some e) :
    seg.getMeta (seg.firstIndex + offs.length + j) =
      some (b + size (es.take j), headerSize + e.data.length, e.term) := by
  obtain ⟨hj, -⟩ := List.getElem?_eq_some_iff.mp he
  have hget : ∀ n, seg.offsetAndTerm[offs.length + n]? =
      es[n]?.map fun e => (b + size (es.take n), e.term) := by
    intro n
    rw [hoffsets, getElem?_append_right (by omega), Nat.add_sub_cancel_left, offsetsFrom_getElem?]
  have hindex : seg.firstIndex + offs.length + j - seg.firstIndex = offs.length + j := by omega
  have hcursor : (if seg.firstIndex + offs.length + j < seg.lastIndex then
      ((seg.offsetAndTerm[offs.length + j + 1]?).map Prod.fst).getD 0 else seg.bytes) =
      b + size (es.take j) + (headerSize + e.data.length) := by
    rw [Nat.add_assoc b, ← size_take_succ he]
    split_ifs with hlater
    · rw [Nat.add_assoc offs.length, hget, getElem?_eq_getElem (by omega)]
      rfl
    · rw [take_of_length_le (by omega), hbytes]
  unfold Segment.getMeta
  rw [if_neg (by omega), hindex, hget, he, hcursor]
  dsimp only [map_some, bind_eq_bind, bind_some, Option.pure_def]
  rw [Nat.add_sub_cancel_left]

theorem getMeta_segment {isOpen : Bool} (hfirst : c.first ≤ i)
    (he : c.entries[i - c.first]? = some e) :
    (c.segment isOpen).getMeta i =
      some (size (c.entries.take (i - c.first)), headerSize + e.data.length, e.term) := by
  have hpos := c.first_pos
  have hlen : c.next = c.first + c.entries.length := rfl
  have hoffsets : (c.segment isOpen).offsetAndTerm = [] ++ offsetsFrom 0 c.entries := rfl
  have hlast : c.next - 1 + 1 = c.first + 0 + c.entries.length := by omega
  have hmeta := getMeta_of_offsets hoffsets (Nat.zero_add (size c.entries)).symm hlast he
  rw [Nat.zero_add] at hmeta
  rw [← hmeta]
  show (c.segment isOpen).getMeta i = (c.segment isOpen).getMeta (c.first + 0 + (i - c.first))
  congr 1
  omega

theorem encodeAll_split (getChecksum : GetChecksum) (kind : ChecksumType) (h : es[j]? = some e) :
    encodeAll getChecksum kind es = encodeAll getChecksum kind (es.take j) ++
      encode getChecksum kind e ++ encodeAll getChecksum kind (es.drop (j + 1)) := by
  obtain ⟨hj, hget⟩ := List.getElem?_eq_some_iff.mp h
  have hes : es = es.take j ++ e :: es.drop (j + 1) := by
    rw [← hget, getElem_cons_drop, take_append_drop]
  conv_lhs => rw [hes, encodeAll_append]
  rw [append_assoc]
  rfl

theorem entryOf_headerOf (getChecksum : GetChecksum) (kind : ChecksumType) (e : LogEntry) :
    Segment.entryOf e.index (headerOf getChecksum kind e) e.data = some e := by
  have htype : EntryType.ofCode (headerOf getChecksum kind e).type = some e.type :=
    e.type.ofCode_code
  have hdata : (if e.type = .noOp then [] else e.data) = e.data := by
    split_ifs with h
    · exact (e.data_noOp h).symm
    · rfl
  unfold Segment.entryOf
  rw [htype]
  refine (dif_pos e.term_lt).trans ?_
  congr 2

theorem get_segment {cfg : Config} {disk : LogDisk} {isOpen : Bool}
    (hfile : disk.files (c.segment isOpen).fileName =
      some (encodeAll cfg.getChecksum cfg.checksumType c.entries))
    (hfirst : c.first ≤ i) (he : c.entries[i - c.first]? = some e) :
    (c.segment isOpen).get cfg disk i = some e := by
  have hindex : i = e.index := by
    rw [index_eq he]
    omega
  unfold Segment.get
  rw [getMeta_segment hfirst he, hfile]
  dsimp only
  rw [encodeAll_split _ _ he, ← length_encodeAll cfg.getChecksum cfg.checksumType,
    loadEntry_encode (c.fits e (mem_of_getElem? he)) (le_refl _), hindex]
  exact entryOf_headerOf _ _ e

theorem getTerm_segment {isOpen : Bool} (hfirst : c.first ≤ i)
    (he : c.entries[i - c.first]? = some e) : (c.segment isOpen).getTerm i = e.term := by
  unfold Segment.getTerm
  rw [getMeta_segment hfirst he]

end Chunk

/-! ## Layouts -/

/-- Chunks that follow one another, from an index up to another. -/
def Linked : ℕ → List Chunk → ℕ → Prop
  | a, [], b => a = b
  | a, c :: cs, b => c.first = a ∧ Linked c.next cs b

/-- All entries of chunks. -/
def entriesOf (cs : List Chunk) : List LogEntry := cs.flatMap fun c => c.entries

section Linked

variable {a b m : ℕ} {c : Chunk} {cs cs' : List Chunk}

@[simp] theorem entriesOf_nil : entriesOf [] = [] := rfl

@[simp] theorem entriesOf_cons (c : Chunk) (cs : List Chunk) :
    entriesOf (c :: cs) = c.entries ++ entriesOf cs := flatMap_cons

@[simp] theorem entriesOf_append (cs cs' : List Chunk) :
    entriesOf (cs ++ cs') = entriesOf cs ++ entriesOf cs' := flatMap_append

theorem linked_append : Linked a (cs ++ cs') b ↔ ∃ m, Linked a cs m ∧ Linked m cs' b := by
  induction cs generalizing a with
  | nil => exact ⟨fun h => ⟨a, rfl, h⟩, fun ⟨_, hm, h⟩ => hm ▸ h⟩
  | cons c cs ih =>
    constructor
    · rintro ⟨hc, hcs⟩
      obtain ⟨m, hm, hm'⟩ := ih.mp hcs
      exact ⟨m, ⟨hc, hm⟩, hm'⟩
    · rintro ⟨m, ⟨hc, hm⟩, hm'⟩
      exact ⟨hc, ih.mpr ⟨m, hm, hm'⟩⟩

theorem linked_concat : Linked a (cs ++ [c]) b ↔ Linked a cs c.first ∧ c.next = b := by
  rw [linked_append]
  constructor
  · rintro ⟨m, hm, rfl, hb⟩
    exact ⟨hm, hb⟩
  · rintro ⟨hm, hb⟩
    exact ⟨c.first, hm, rfl, hb⟩

variable (h : Linked a cs b)
include h

theorem Linked.length : a + (entriesOf cs).length = b := by
  induction cs generalizing a with
  | nil => exact h
  | cons c cs ih =>
    obtain ⟨rfl, hcs⟩ := h
    rw [← ih hcs, entriesOf_cons, length_append, ← Nat.add_assoc]
    rfl

theorem Linked.le : a ≤ b := h.length ▸ Nat.le_add_right _ _

theorem Linked.le_of_forall {k : ℕ} (ha : a ≤ k) (hcs : ∀ c ∈ cs, c.next ≤ k) : b ≤ k := by
  induction cs generalizing a with
  | nil => exact h ▸ ha
  | cons c cs ih => exact ih h.2 (hcs c mem_cons_self) fun c' hc' => hcs c' (mem_cons_of_mem _ hc')

theorem Linked.mem_range (hc : c ∈ cs) : a ≤ c.first ∧ c.next ≤ b := by
  obtain ⟨A, B, rfl⟩ := append_of_mem hc
  obtain ⟨m, hA, rfl, hB⟩ := linked_append.mp h
  exact ⟨hA.le, hB.le⟩

theorem Linked.getElem? {i : ℕ} (hc : c ∈ cs) (hfirst : c.first ≤ i)
    (hnext : i < c.next) : (entriesOf cs)[i - a]? = c.entries[i - c.first]? := by
  obtain ⟨A, B, rfl⟩ := append_of_mem hc
  obtain ⟨m, hA, rfl, hB⟩ := linked_append.mp h
  have hlen := hA.length
  unfold ListLog.next at hnext
  rw [entriesOf_append, entriesOf_cons, getElem?_append_right (by omega),
    getElem?_append_left (by omega)]
  congr 1
  omega

theorem Linked.exists_mem {i : ℕ} (ha : a ≤ i) (hb : i < b) :
    ∃ A c B, cs = A ++ c :: B ∧ c.first ≤ i ∧ i < c.next := by
  induction cs generalizing a with
  | nil =>
    cases h
    omega
  | cons c cs ih =>
    obtain ⟨rfl, hcs⟩ := h
    by_cases hi : i < c.next
    · exact ⟨[], c, cs, rfl, ha, hi⟩
    · obtain ⟨A, c', B, rfl, hc'⟩ := ih hcs (by omega)
      exact ⟨c :: A, c', B, rfl, hc'⟩

end Linked

/-- Segments, the last of which can be open, and the first index of the log. Closed segments have
entries. -/
structure Layout where
  first : ℕ
  start : ℕ
  finish : ℕ
  closed : List Chunk
  current : Option Chunk
  start_pos : 0 < start
  start_le : start ≤ first
  linked : Linked start (closed ++ current.toList) finish
  nonempty : ∀ c ∈ closed, c.entries ≠ []

/-- The names of files that are about to be unlinked. -/
def FileName.isTmp : FileName → Bool
  | .tmp _ => true
  | _ => false

def FileName.IsTmp (name : FileName) : Prop := name.isTmp = true

theorem Segment.not_isTmp_fileName (seg : Segment) : ¬ seg.fileName.IsTmp := by
  unfold Segment.fileName
  split_ifs <;> exact Bool.false_ne_true

section Files

variable (cfg : Config)

def Chunk.closedFile (c : Chunk) : FileName × Bytes :=
  (.closed c.first (c.next - 1), encodeAll cfg.getChecksum cfg.checksumType c.entries)

/-- The file of an open segment can end within an entry. -/
def Chunk.openFile (tail : Bytes) (c : Chunk) : FileName × Bytes :=
  (.inprogress c.first, encodeAll cfg.getChecksum cfg.checksumType c.entries ++ tail)

/-- The files of segments. -/
def filesOf (closed : List Chunk) (current : Option Chunk) (tail : Bytes) : Table FileName :=
  closed.map (Chunk.closedFile cfg) ++ current.toList.map (Chunk.openFile cfg tail)

end Files

namespace Layout

def chunks (L : Layout) : List Chunk := L.closed ++ L.current.toList

def entries (L : Layout) : List LogEntry := entriesOf L.chunks

/-- What is valid of the entries. -/
def log (L : Layout) : ListLog LogEntry := ⟨L.first, L.entries.drop (L.first - L.start)⟩

/-- The storage; `listed` says whether the open segment is in the map. -/
def storage (L : Layout) (listed : Bool) : SegmentLogStorage where
  firstLogIndex := L.first
  lastLogIndex := L.finish - 1
  segments := L.closed.map (Chunk.segment false)
  openSegment := L.current.map (Chunk.segment true)
  openListed := listed

/-- The log begins where the segments do, or within them, and no segment lies before it. -/
structure Tidy (L : Layout) : Prop where
  first_le : L.first ≤ L.finish
  first_lt : ∀ c ∈ L.chunks, c.entries ≠ [] → L.first < c.next

/-- The files of a disk. -/
def OnDisk (cfg : Config) (L : Layout) (tail : Bytes) (d : LogDisk) : Prop :=
  Shows FileName.IsTmp (some L.first) (filesOf cfg L.closed L.current tail) d

variable {L : Layout} {i : ℕ} {e : LogEntry}

theorem first_pos (L : Layout) : 0 < L.first := lt_of_lt_of_le L.start_pos L.start_le

theorem length_entries (L : Layout) : L.start + L.entries.length = L.finish := L.linked.length

theorem next_log (L : Layout) : L.log.next = max L.first L.finish := by
  have hlen := L.length_entries
  have hle := L.start_le
  dsimp only [log, ListLog.next]
  rw [length_drop]
  omega

theorem Tidy.next_log (h : L.Tidy) : L.log.next = L.finish := by
  rw [L.next_log, max_eq_right h.first_le]

theorem get_log {c : Chunk} (hc : c ∈ L.chunks) (hi : L.first ≤ i) (hfirst : c.first ≤ i)
    (hnext : i < c.next) : L.log.get i = c.entries[i - c.first]? := by
  have hlinked : Linked L.start L.chunks L.finish := L.linked
  have hle := L.start_le
  rw [get_of_le hi, ← hlinked.getElem? hc hfirst hnext]
  dsimp only [log, entries]
  rw [getElem?_drop]
  congr 1
  omega

end Layout

/-! ## Reading -/

/-- What can be read of a storage. -/
structure Reads (cfg : Config) (s : SegmentLogStorage) (d : LogDisk) (log : ListLog LogEntry) :
    Prop where
  first : s.firstLogIndex = log.first
  last : s.lastLogIndex + 1 = log.next
  getEntry : ∀ i, s.getEntry cfg d i = log.get i
  getTerm : ∀ i, s.getTerm i = ((log.get i).map LogEntry.term).getD 0

/-- A storage and its disk have a layout. -/
structure Holds (cfg : Config) (s : SegmentLogStorage) (d : LogDisk) (log : ListLog LogEntry)
    (L : Layout) (listed : Bool) : Prop where
  tidy : L.Tidy
  storage_eq : s = L.storage listed
  listed_open : listed = true → L.current ≠ none
  onDisk : L.OnDisk cfg [] d
  log_eq : L.log = log

section Reading

variable {cfg : Config} {d : LogDisk} {L : Layout} {listed : Bool} {i : ℕ} {c : Chunk}

theorem Layout.OnDisk.closed_file {tail : Bytes} (h : L.OnDisk cfg tail d)
    (hc : c ∈ L.closed) : d.files (c.segment false).fileName =
      some (encodeAll cfg.getChecksum cfg.checksumType c.entries) :=
  (h.files_iff _ _ (Segment.not_isTmp_fileName _)).mpr (mem_append_left _ (mem_map_of_mem hc))

theorem Layout.OnDisk.open_file {tail : Bytes} (h : L.OnDisk cfg tail d)
    (hc : L.current = some c) : d.files (c.segment true).fileName =
      some (encodeAll cfg.getChecksum cfg.checksumType c.entries ++ tail) := by
  refine (h.files_iff _ _ (Segment.not_isTmp_fileName _)).mpr
    (mem_append_right _ (mem_map_of_mem ?_))
  rw [hc]
  exact mem_singleton_self _

theorem findRev?_segments {A B : List Chunk} {a b : ℕ}
    (h : Linked a (A ++ c :: B) b) (hfirst : c.first ≤ i) (hnext : i < c.next) :
    ((A ++ c :: B).map (Chunk.segment false)).findRev? (fun seg => seg.firstIndex ≤ i) =
      some (c.segment false) := by
  obtain ⟨m, -, rfl, hB⟩ := linked_append.mp h
  have hback : (B.map (Chunk.segment false)).reverse.find? (fun seg => seg.firstIndex ≤ i) =
      none := by
    refine find?_eq_none.mpr fun seg hseg => ?_
    obtain ⟨c', hc', rfl⟩ := mem_map.mp (mem_reverse.mp hseg)
    have hlater := (hB.mem_range hc').1
    have : (c'.segment false).firstIndex = c'.first := rfl
    rw [decide_eq_true_eq]
    omega
  rw [findRev?_eq_find?_reverse, map_append, map_cons, reverse_append,
    reverse_cons, find?_append, find?_append, hback, find?_singleton,
    if_pos (decide_eq_true (show (c.segment false).firstIndex ≤ i from hfirst))]
  rfl

open Layout

theorem getSegment_eq (hi : L.first ≤ i) (hlast : i < L.finish) :
    (L.storage listed).getSegment i = match L.current.map (Chunk.segment true) with
      | some seg => if seg.firstIndex ≤ i then some seg
        else (L.closed.map (Chunk.segment false)).findRev? fun seg => seg.firstIndex ≤ i
      | none => (L.closed.map (Chunk.segment false)).findRev? fun seg => seg.firstIndex ≤ i := by
  have hpos := L.first_pos
  unfold getSegment
  rw [if_neg (by dsimp only [storage]; omega), if_neg (by dsimp only [storage]; omega)]
  rfl

theorem exists_segment (hdisk : L.OnDisk cfg [] d) (hi : L.first ≤ i) (hlast : i < L.finish) :
    ∃ (c : Chunk) (isOpen : Bool) (e : LogEntry),
      (L.storage listed).getSegment i = some (c.segment isOpen) ∧
      d.files (c.segment isOpen).fileName =
        some (encodeAll cfg.getChecksum cfg.checksumType c.entries) ∧
      c.first ≤ i ∧ c.entries[i - c.first]? = some e ∧ L.log.get i = some e := by
  have hlinked := L.linked
  have hstart := L.start_le
  have hsegment : ∃ (c : Chunk) (isOpen : Bool),
      (L.storage listed).getSegment i = some (c.segment isOpen) ∧
      d.files (c.segment isOpen).fileName =
        some (encodeAll cfg.getChecksum cfg.checksumType c.entries) ∧
      c ∈ L.chunks ∧ c.first ≤ i ∧ i < c.next := by
    have hclosed : ∀ b, Linked L.start L.closed b → i < b →
        ∃ c : Chunk, (L.closed.map (Chunk.segment false)).findRev? (fun seg => seg.firstIndex ≤ i) =
          some (c.segment false) ∧ c ∈ L.closed ∧ c.first ≤ i ∧ i < c.next := by
      intro b hb hib
      obtain ⟨A, c, B, hsplit, hfirst, hnext⟩ := hb.exists_mem (by omega) hib
      rw [hsplit] at hb ⊢
      exact ⟨c, findRev?_segments hb hfirst hnext, by simp, hfirst, hnext⟩
    rw [getSegment_eq hi hlast]
    cases hcurrent : L.current with
    | none =>
      rw [hcurrent, toList_none, List.append_nil] at hlinked
      obtain ⟨c, hfind, hmem, hrange⟩ := hclosed _ hlinked hlast
      exact ⟨c, false, hfind, hdisk.closed_file hmem, mem_append_left _ hmem, hrange⟩
    | some cur =>
      rw [hcurrent, toList_some, linked_concat] at hlinked
      rw [map_some]
      by_cases hcur : cur.first ≤ i
      · refine ⟨cur, true, if_pos hcur, ?_, ?_, hcur, by omega⟩
        · rw [hdisk.open_file hcurrent, List.append_nil]
        · unfold chunks
          rw [hcurrent]
          simp
      · obtain ⟨c, hfind, hmem, hrange⟩ := hclosed _ hlinked.1 (by omega)
        exact ⟨c, false, (if_neg hcur).trans hfind, hdisk.closed_file hmem,
          mem_append_left _ hmem, hrange⟩
  obtain ⟨c, isOpen, hget, hfile, hmem, hfirst, hnext⟩ := hsegment
  obtain ⟨e, he⟩ := Chunk.exists_entry hfirst hnext
  exact ⟨c, isOpen, e, hget, hfile, hfirst, he, (get_log hmem hi hfirst hnext).trans he⟩

/-- **A storage with a layout reads as its log.** -/
theorem Holds.reads {s : SegmentLogStorage} {log : ListLog LogEntry}
    (h : Holds cfg s d log L listed) : Reads cfg s d log := by
  obtain ⟨htidy, rfl, -, hdisk, rfl⟩ := h
  have hpos := L.first_pos
  have hnext := htidy.next_log
  have hle := htidy.first_le
  have houtside : ∀ i, i < L.first ∨ L.finish ≤ i →
      (L.storage listed).getSegment i = none ∧ L.log.get i = none := by
    intro i hi
    constructor
    · unfold getSegment
      by_cases hempty : L.first = L.finish
      · exact if_pos (by dsimp only [storage]; omega)
      · rw [if_neg (by dsimp only [storage]; omega)]
        exact if_pos (by dsimp only [storage]; omega)
    · rcases hi with hi | hi
      · exact get_of_lt hi
      · exact get_of_next_le (hnext.symm ▸ hi)
  refine ⟨rfl, ?_, fun i => ?_, fun i => ?_⟩
  · dsimp only [storage]
    omega
  · unfold getEntry
    by_cases hi : L.first ≤ i ∧ i < L.finish
    · obtain ⟨c, isOpen, e, hget, hfile, hfirst, he, hlog⟩ := exists_segment hdisk hi.1 hi.2
      rw [hget, hlog]
      exact Chunk.get_segment hfile hfirst he
    · obtain ⟨hget, hlog⟩ := houtside i (by omega)
      rw [hget, hlog]
      rfl
  · unfold getTerm
    by_cases hi : L.first ≤ i ∧ i < L.finish
    · obtain ⟨c, isOpen, e, hget, -, hfirst, he, hlog⟩ := exists_segment hdisk hi.1 hi.2
      rw [hget, hlog]
      exact Chunk.getTerm_segment hfirst he
    · obtain ⟨hget, hlog⟩ := houtside i (by omega)
      rw [hget, hlog]
      rfl

end Reading

end Braft.Segments
