import Nori.Braft.Segment.Truncate

/-!
# Loading segments

`init` finds the layout that a disk has: names are listed in any order, segments that lie before the
first index are unlinked, and what is left of an entry that was not written completely is cut off.
-/

namespace Braft.Segments

open Butil Files Container SegmentLogStorage Segment Layout List FileName

variable {cfg : Config} {L : Layout} {c : Chunk} {A B cs : List Chunk} {current : Option Chunk}
  {fs fs' : Fs} {record : Option ℕ} {table : Table FileName} {tail : Bytes} {a b k : ℕ}

/-! ## `list_segments` -/

/-- A closed segment as its name gives it. -/
def Chunk.named (c : Chunk) : Segment := ⟨c.first, c.next - 1, false, 0, []⟩

theorem Linked.pairwise (h : Linked a cs b) (hne : ∀ c ∈ cs, c.entries ≠ []) :
    cs.Pairwise fun c c' => c.first < c'.first := by
  induction cs generalizing a with
  | nil => exact .nil
  | cons c cs ih =>
    refine .cons (fun c' hc' => ?_) (ih h.2 fun c' hc' => hne c' (mem_cons_of_mem _ hc'))
    have := (h.2.mem_range hc').1
    have := c.first_lt_next (hne c mem_cons_self)
    omega

theorem Layout.pairwise_closed (L : Layout) : L.closed.Pairwise fun c c' => c.first < c'.first := by
  obtain ⟨m, hlinked, -⟩ := linked_append.mp L.linked
  exact hlinked.pairwise L.nonempty

theorem Layout.closed_inj {c' : Chunk} (hc : c ∈ L.closed) (hc' : c' ∈ L.closed)
    (h : c.first = c'.first) : c = c' := by
  have hnodup : (L.closed.map fun c => c.first).Nodup :=
    pairwise_map.mpr (L.pairwise_closed.imp ne_of_lt)
  exact inj_on_of_nodup_map hnodup hc hc' h

theorem mem_filesOf {name : FileName} : name ∈ (filesOf cfg cs current tail).map Prod.fst ↔
    (∃ c ∈ cs, name = .closed c.first (c.next - 1)) ∨
      ∃ c, current = some c ∧ name = .inprogress c.first := by
  unfold filesOf
  rw [map_append, mem_append, map_map, map_map, mem_map, mem_map]
  refine or_congr ?_ ?_
  · exact exists_congr fun c => and_congr_right fun _ => eq_comm
  · exact exists_congr fun c => and_congr Option.mem_toList eq_comm

theorem not_isTmp_closed (a b : ℕ) : ¬ (closed a b).IsTmp := Bool.false_ne_true

theorem not_isTmp_inprogress (a : ℕ) : ¬ (inprogress a).IsTmp := Bool.false_ne_true

/-- What the names read so far have given. -/
structure Listed (L : Layout) (names : List FileName) (l : SegmentLogStorage.Listing) : Prop where
  closed : ∀ e, e ∈ l.segments.entries ↔
    ∃ c ∈ L.closed, .closed c.first (c.next - 1) ∈ names ∧ e = (c.first, c.named)
  current : (l.openSegment = none ∧ ∀ a, .inprogress a ∉ names) ∨
    ∃ c, L.current = some c ∧ .inprogress c.first ∈ names ∧
      l.openSegment = some (Segment.new c.first)

theorem listed_nil (L : Layout) : Listed L [] ⟨∅, none⟩ :=
  ⟨fun _ => ⟨nofun, nofun⟩, .inl ⟨rfl, fun _ => not_mem_nil⟩⟩

namespace Listed

variable {names : List FileName} {l : SegmentLogStorage.Listing}

theorem tmp (h : Listed L names l) (name : FileName) : Listed L (names ++ [.tmp name]) l := by
  have hmem : ∀ other : FileName, ¬ other.IsTmp →
      (other ∈ names ++ [.tmp name] ↔ other ∈ names) := by
    intro other hother
    rw [mem_append, mem_singleton, or_iff_left]
    rintro rfl
    exact hother rfl
  refine ⟨fun e => ?_, ?_⟩
  · rw [h.closed]
    refine exists_congr fun c => and_congr_right fun _ => and_congr_left fun _ => ?_
    exact (hmem _ (not_isTmp_closed _ _)).symm
  · refine h.current.imp (And.imp_right fun hnone a => ?_)
      fun ⟨c, hc, hin, hopen⟩ => ⟨c, hc, mem_append_left _ hin, hopen⟩
    rw [hmem _ (not_isTmp_inprogress a)]
    exact hnone a

theorem closed_name (h : Listed L names l) (hc : c ∈ L.closed) :
    Listed L (names ++ [.closed c.first (c.next - 1)])
      { l with segments := l.segments.assign c.first c.named } := by
  refine ⟨fun e => ?_, ?_⟩
  · refine (OrderedMap.mem_assignEntries l.segments.sorted e).trans ?_
    rw [h.closed]
    constructor
    · rintro (rfl | ⟨-, c', hc', hin, rfl⟩)
      · exact ⟨c, hc, mem_append_right _ (mem_singleton_self _), rfl⟩
      · exact ⟨c', hc', mem_append_left _ hin, rfl⟩
    · rintro ⟨c', hc', hin, rfl⟩
      by_cases hfirst : c'.first = c.first
      · exact .inl (by rw [L.closed_inj hc' hc hfirst])
      · refine .inr ⟨hfirst, c', hc', ?_, rfl⟩
        refine (mem_append.mp hin).resolve_right fun heq => hfirst ?_
        exact (closed.inj (mem_singleton.mp heq)).1
  · refine h.current.imp (And.imp_right fun hnone a hin => ?_)
      fun ⟨c, hc, hin, hopen⟩ => ⟨c, hc, mem_append_left _ hin, hopen⟩
    rcases mem_append.mp hin with hin | hin
    · exact hnone a hin
    · cases mem_singleton.mp hin

theorem open_name (h : Listed L names l) (hc : L.current = some c)
    (hnew : .inprogress c.first ∉ names) : l.openSegment = none ∧
      Listed L (names ++ [.inprogress c.first]) { l with openSegment := some (new c.first) } := by
  have hnone : l.openSegment = none := by
    rcases h.current with ⟨hnone, -⟩ | ⟨c', hc', hin, -⟩
    · exact hnone
    · obtain rfl : c = c' := Option.some.inj (hc.symm.trans hc')
      exact absurd hin hnew
  refine ⟨hnone, fun e => ?_, .inr ⟨c, hc, mem_append_right _ (mem_singleton_self _), rfl⟩⟩
  rw [h.closed]
  refine exists_congr fun c' => and_congr_right fun _ => and_congr_left fun _ => ?_
  rw [mem_append, mem_singleton, or_iff_left (by rintro ⟨⟩)]

theorem all (h : Listed L names l) (hnames : ∀ name : FileName, ¬ name.IsTmp →
      (name ∈ names ↔ name ∈ (filesOf cfg L.closed L.current tail).map Prod.fst)) :
    l.segments.entries.map Prod.snd = L.closed.map Chunk.named ∧
      l.openSegment = L.current.map fun c => new c.first := by
  constructor
  · have hentries : l.segments.entries = L.closed.map fun c => (c.first, c.named) := by
      refine List.Pairwise.eq_of_mem_iff l.segments.sorted
        (pairwise_map.mpr L.pairwise_closed) fun e => ?_
      rw [h.closed, mem_map]
      refine exists_congr fun c => and_congr_right fun hc => ?_
      rw [hnames _ (not_isTmp_closed _ _), and_iff_right (mem_filesOf.mpr (.inl ⟨c, hc, rfl⟩)),
        eq_comm]
    rw [hentries, map_map]
    rfl
  · rcases h.current with ⟨hopen, hnone⟩ | ⟨c, hc, -, hopen⟩
    · cases hcurrent : L.current with
      | none => exact hopen
      | some c =>
        refine absurd ((hnames _ (not_isTmp_inprogress _)).mpr ?_) (hnone c.first)
        exact mem_filesOf.mpr (.inr ⟨c, hcurrent, rfl⟩)
    · rw [hopen, hc]
      rfl

end Listed

variable {names : List FileName} {l : SegmentLogStorage.Listing}

theorem listFile_spec {name : FileName}
    (h : Listed L names l) (hshows : Shows IsTmp record table fs.disk)
    (hnew : name ∉ names)
    (hname : name.IsTmp ∨ name ∈ (filesOf cfg L.closed L.current tail).map Prod.fst) :
    ∃ l' fs', listFile cfg name l fs = (some l', fs') ∧
      Listed L (names ++ [name]) l' ∧ Shows IsTmp record table fs'.disk := by
  rcases hname with hname | hname
  · cases name with
    | tmp name =>
      exact ⟨l, _, rfl, h.tmp name, (FileSystem.exec_unlink_hidden (P := fun _ _ => True) cfg.env
        hshows hname trivial).1⟩
    | closed a b => exact absurd hname (not_isTmp_closed a b)
    | inprogress a => exact absurd hname (not_isTmp_inprogress a)
  · rcases mem_filesOf.mp hname with ⟨c, hc, rfl⟩ | ⟨c, hc, rfl⟩
    · exact ⟨_, fs, rfl, h.closed_name hc, hshows⟩
    · obtain ⟨hnone, hlisted⟩ := h.open_name hc hnew
      refine ⟨_, fs, ?_, hlisted, hshows⟩
      unfold listFile
      rw [hnone]

theorem listFiles_spec (done : List FileName) (h : Listed L done l)
    (hshows : Shows IsTmp record table fs.disk) (hnodup : (done ++ names).Nodup)
    (hnames : ∀ name ∈ names,
      name.IsTmp ∨ name ∈ (filesOf cfg L.closed L.current tail).map Prod.fst) :
    ∃ l' fs', listFiles cfg names l fs = (some l', fs') ∧
      Listed L (done ++ names) l' ∧ Shows IsTmp record table fs'.disk := by
  induction names generalizing done l fs with
  | nil => exact ⟨l, fs, rfl, by rwa [append_nil], hshows⟩
  | cons name names ih =>
    have hnew : name ∉ done := fun hin =>
      (nodup_append.mp hnodup).2.2 name hin name mem_cons_self rfl
    obtain ⟨l₁, fs₁, hfile, hlisted₁, hshows₁⟩ :=
      listFile_spec h hshows hnew (hnames name mem_cons_self)
    rw [← singleton_append, ← append_assoc] at hnodup
    obtain ⟨l', fs', hfiles, hlisted', hshows'⟩ := ih (done ++ [name]) hlisted₁ hshows₁ hnodup
      fun name' hname' => hnames name' (mem_cons_of_mem _ hname')
    refine ⟨l', fs', ?_, ?_, hshows'⟩
    · unfold listFiles
      rw [hfile]
      exact hfiles
    · rwa [append_assoc] at hlisted'

/-! ### Checking -/

theorem Chunk.not_named_lt (h : c.entries ≠ []) : ¬ c.named.lastIndex < c.named.firstIndex := by
  have := c.first_lt_next h
  show ¬ c.next - 1 < c.first
  omega

theorem checkSegments_keep (hlinked : Linked a cs b) (hne : ∀ c ∈ cs, c.entries ≠ [])
    (hpos : 0 < a) :
    checkSegments cfg k (some (a - 1)) (cs.map Chunk.named) fs =
      (some (cs.map Chunk.named), fs) := by
  induction cs generalizing a with
  | nil => rfl
  | cons c cs ih =>
    obtain ⟨rfl, hlinked⟩ := hlinked
    have hc := hne c mem_cons_self
    have hlt := c.first_lt_next hc
    have hfollows : ¬ (some (c.first - 1)).any (fun last => c.named.firstIndex ≠ last + 1) := by
      show ¬ decide (c.first ≠ c.first - 1 + 1) = true
      rw [decide_eq_true_eq]
      omega
    rw [map_cons, checkSegments, if_neg (Chunk.not_named_lt hc),
      if_neg hfollows, if_neg (fun h => Option.some_ne_none _ h.1),
      if_neg (fun h => Option.some_ne_none _ h.1)]
    rw [show c.named.lastIndex = c.next - 1 from rfl,
      ih hlinked (fun c' hc' => hne c' (mem_cons_of_mem _ hc')) (by omega)]
    rfl

theorem checkSegments_spec (henv : cfg.env.Reliable)
    (hshows : Shows IsTmp record (filesOf cfg cs current tail) fs.disk)
    (hlinked : Linked a cs b) (hne : ∀ c ∈ cs, c.entries ≠ []) (ha : a ≤ k) :
    ∃ A B fs', cs = A ++ B ∧ (∀ c ∈ A, c.next ≤ k) ∧ (∀ c ∈ B, k < c.next) ∧
      checkSegments cfg k none (cs.map Chunk.named) fs = (some (B.map Chunk.named), fs') ∧
      Shows IsTmp record (filesOf cfg B current tail) fs'.disk := by
  induction cs generalizing a fs with
  | nil => exact ⟨[], [], fs, rfl, nofun, nofun, rfl, hshows⟩
  | cons c cs ih =>
    have hc := hne c mem_cons_self
    have hrest : ∀ c' ∈ cs, c'.entries ≠ [] := fun c' hc' => hne c' (mem_cons_of_mem _ hc')
    have hlt := c.first_lt_next hc
    have hstart := hlinked.1
    have hhole : ¬ ((none : Option ℕ) = none ∧ k < c.named.firstIndex) := by
      rintro ⟨-, h⟩
      change k < c.first at h
      omega
    rw [map_cons, checkSegments, if_neg (Chunk.not_named_lt hc),
      if_neg (by rintro ⟨⟩), if_neg hhole]
    by_cases hk : c.next ≤ k
    · have hbefore : c.named.lastIndex < k := show c.next - 1 < k by omega
      have hfiles : Shows IsTmp record ([] ++ (c.named.fileName,
        encodeAll cfg.getChecksum cfg.checksumType c.entries) :: filesOf cfg cs current tail)
          fs.disk :=
        hshows
      obtain ⟨fs₁, hunlink, hshows₁, -⟩ := unlink_spec (P := fun _ _ => True) henv hfiles
        (first_notMem cfg current tail hlinked hc) trivial trivial
      obtain ⟨A, B, fs', rfl, hA, hB, hcheck, hshows'⟩ := ih hshows₁ hlinked.2 hrest hk
      refine ⟨c :: A, B, fs', rfl, fun c' hc' => ?_, hB, ?_, hshows'⟩
      · rcases mem_cons.mp hc' with rfl | hc'
        · exact hk
        · exact hA c' hc'
      · rw [if_pos ⟨rfl, hbefore⟩, hunlink]
        exact hcheck
    · have hbefore : ¬ ((none : Option ℕ) = none ∧ c.named.lastIndex < k) := by
        rintro ⟨-, h⟩
        change c.next - 1 < k at h
        omega
      refine ⟨[], c :: cs, fs, rfl, nofun, fun c' hc' => ?_, ?_, hshows⟩
      · rcases mem_cons.mp hc' with rfl | hc'
        · omega
        · have := (hlinked.2.mem_range hc').1
          have := c'.first_le_next
          omega
      · rw [if_neg hbefore]
        rw [show c.named.lastIndex = c.next - 1 from rfl,
          checkSegments_keep hlinked.2 hrest (by omega)]
        rfl

/-! ## `load_segments` -/

theorem length_le_size (es : List LogEntry) : es.length ≤ size es := by
  induction es with
  | nil => exact le_refl _
  | cons e es ih =>
    rw [length_cons, size_cons]
    unfold headerSize
    omega

theorem scan_file (cfg : Config) (c : Chunk) (tail : Bytes)
    (htail : Partial cfg.getChecksum cfg.checksumType tail) :
    scan cfg.getChecksum (encodeAll cfg.getChecksum cfg.checksumType c.entries ++ tail)
      (encodeAll cfg.getChecksum cfg.checksumType c.entries ++ tail).length 0 =
      .ok (offsetsFrom 0 c.entries, size c.entries) := by
  have hfuel : c.entries.length ≤
      (encodeAll cfg.getChecksum cfg.checksumType c.entries ++ tail).length := by
    have := length_le_size c.entries
    rw [length_append, length_encodeAll]
    omega
  have hscan : scan cfg.getChecksum
      ([] ++ encodeAll cfg.getChecksum cfg.checksumType c.entries ++ tail) _ [].length = _ :=
    scan_encodeAll c.fits htail hfuel
  rwa [length_nil, Nat.zero_add, length_encodeAll] at hscan

theorem load_closed (hfile : fs.disk.files (c.segment false).fileName =
    some (encodeAll cfg.getChecksum cfg.checksumType c.entries)) :
    c.named.load cfg fs = (true, c.segment false, fs) := by
  have hscan := scan_file cfg c [] (.inl rfl)
  rw [append_nil] at hscan
  unfold load
  rw [show c.named.fileName = (c.segment false).fileName from rfl, hfile]
  dsimp only
  rw [hscan]
  dsimp only
  rw [length_offsetsFrom, length_encodeAll, if_neg (fun h => h.2 rfl), if_neg (fun h => h rfl)]
  rfl

theorem loadClosed_spec (hshows : Shows IsTmp record (filesOf cfg cs current tail) fs.disk) :
    loadClosed cfg (cs.map Chunk.named) fs = (some (cs.map (Chunk.segment false)), fs) := by
  have hfiles : ∀ c ∈ cs, fs.disk.files (c.segment false).fileName =
      some (encodeAll cfg.getChecksum cfg.checksumType c.entries) := fun c hc =>
    (hshows.files_iff _ _ (not_isTmp_fileName _)).mpr (mem_append_left _ (mem_map_of_mem hc))
  clear hshows
  induction cs with
  | nil => rfl
  | cons c cs ih =>
    rw [map_cons, loadClosed, load_closed (hfiles c mem_cons_self)]
    dsimp only
    rw [ih fun c' hc' => hfiles c' (mem_cons_of_mem _ hc')]
    rfl

theorem load_open (henv : cfg.env.Reliable) (htail : Partial cfg.getChecksum cfg.checksumType tail)
    (hshows : Shows IsTmp record (filesOf cfg cs (some c) tail) fs.disk) :
    ∃ fs', (new c.first).load cfg fs = (true, c.segment true, fs') ∧
      Shows IsTmp record (filesOf cfg cs (some c) []) fs'.disk := by
  have hname : (new c.first).fileName = .inprogress c.first := rfl
  have hfile := hshows.file (not_isTmp_inprogress c.first)
  unfold load
  rw [hname, hfile]
  dsimp only
  rw [scan_file cfg c tail htail]
  dsimp only
  rw [length_offsetsFrom, if_neg (fun h => Bool.noConfusion h.1), length_append, length_encodeAll]
  by_cases hempty : tail = []
  · subst hempty
    exact ⟨fs, if_neg (fun h => h rfl), hshows⟩
  · have hlen := length_pos_of_ne_nil hempty
    obtain ⟨fs', hexec, hshows', -⟩ := FileSystem.exec_truncate (P := fun _ _ => True) henv hshows
      (not_isTmp_inprogress c.first) (inprogress_notMem_append cfg cs c.first) (size c.entries)
      trivial trivial
    refine ⟨fs', ?_, ?_⟩
    · rw [if_pos (by omega)]
      exact congrArg (fun r : Bool × Fs => (r.1, c.segment true, r.2)) hexec
    · rw [← length_encodeAll cfg.getChecksum cfg.checksumType, take_left] at hshows'
      unfold filesOf
      rw [Option.toList_some, map_singleton, Chunk.openFile, append_nil]
      exact hshows'

theorem holds_bare (hfinish : L.finish ≤ L.first)
    (hshows : Shows IsTmp (some L.first) (filesOf cfg [] none tail) fs.disk) :
    Holds cfg ⟨L.first, lastLogIndexOf L.first 0, [], none, false⟩ fs.disk L.log
      (bare L.first L.first_pos) false :=
  ⟨tidy_bare _, rfl, nofun, hshows, (log_bare _).trans (log_of_finish_le hfinish).symm⟩

theorem loadSegments_spec (henv : cfg.env.Reliable)
    (htail : Partial cfg.getChecksum cfg.checksumType tail) (hdisk : L.OnDisk cfg tail fs.disk)
    (hclosed : ∀ c ∈ L.closed, L.first < c.next) :
    ∃ s' fs' L', loadSegments cfg L.first (L.closed.map Chunk.named)
        (L.current.map fun c => new c.first) fs = (some s', fs') ∧
      Holds cfg s' fs'.disk L.log L' false := by
  have hpos := L.first_pos
  have hstart := L.start_le
  have hlast : ∀ m, L.first < m → lastLogIndexOf L.first (m - 1) = m - 1 :=
    fun m hm => if_neg (by omega)
  unfold loadSegments
  rw [loadClosed_spec hdisk]
  cases hcurrent : L.current with
  | none =>
    have hlinked := L.linked_closed hcurrent
    have hshows := hdisk
    unfold Layout.OnDisk at hshows
    rw [hcurrent] at hshows
    rcases eq_nil_or_concat' L.closed with hnil | ⟨cs, c, hconcat⟩
    · rw [hnil] at hlinked hshows ⊢
      have hfinish : L.start = L.finish := hlinked
      exact ⟨_, fs, _, rfl, holds_bare (by omega) hshows⟩
    · rw [hconcat] at hlinked
      have hnext := (linked_concat.mp hlinked).2
      have hc := hclosed c (by rw [hconcat]; simp)
      have hindex : lastIndexOf (L.closed.map (Chunk.segment false)) = L.finish - 1 := by
        unfold lastIndexOf
        rw [hconcat, map_append, map_singleton, getLast?_concat, ← hnext]
        rfl
      refine ⟨_, fs, L, rfl, ⟨by omega, fun c' hc' _ => ?_⟩, ?_, nofun, ?_, rfl⟩
      · unfold chunks at hc'
        rw [hcurrent, Option.toList_none, append_nil] at hc'
        exact hclosed c' hc'
      · rw [hindex, hlast _ (by omega)]
        unfold storage
        rw [hcurrent]
        rfl
      · unfold Layout.OnDisk
        rw [hcurrent]
        exact hshows
  | some c =>
    obtain ⟨hlinked, hnext⟩ := L.linked_current hcurrent
    have hshows := hdisk
    unfold Layout.OnDisk at hshows
    rw [hcurrent] at hshows
    obtain ⟨fs₁, hload, hshows₁⟩ := load_open henv htail hshows
    dsimp only [Option.map_some]
    rw [hload]
    dsimp only
    by_cases hc : c.next ≤ L.first
    · have hbefore : (c.segment true).lastIndex < L.first := show c.next - 1 < L.first by omega
      have hnil : L.closed = [] := eq_nil_iff_forall_not_mem.mpr fun c' hc' => by
        have := hclosed c' hc'
        have := (hlinked.mem_range hc').2
        have := c.first_le_next
        omega
      obtain ⟨fs', hunlink, hshows', -⟩ := unlink_open (P := fun _ _ => True) henv hshows₁ trivial
        trivial
      rw [hnil] at hshows' ⊢
      rw [if_pos hbefore, hunlink]
      exact ⟨_, fs', _, rfl, holds_bare (by omega) hshows'⟩
    · have hbefore : ¬ (c.segment true).lastIndex < L.first := show ¬ c.next - 1 < L.first by omega
      rw [if_neg hbefore]
      refine ⟨_, fs₁, L, rfl, ⟨by omega, ?_⟩, ?_, nofun, ?_, rfl⟩
      · rw [Layout.chunks, hcurrent]
        exact forall_mem_append.mpr
          ⟨fun c' hc' _ => hclosed c' hc', forall_mem_singleton.mpr fun _ => by omega⟩
      · have hlast' : lastLogIndexOf L.first (c.segment true).lastIndex = L.finish - 1 := by
          rw [← hnext]
          exact hlast c.next (by omega)
        rw [hlast']
        unfold storage
        rw [hcurrent]
        rfl
      · unfold Layout.OnDisk
        rw [hcurrent]
        exact hshows₁

/-! ## `init` -/

/-- The names are those of the files of a disk, each once. -/
structure Lists (names : List FileName) (d : LogDisk) : Prop where
  nodup : names.Nodup
  mem_iff : ∀ name, name ∈ names ↔ d.files name ≠ none

/-- **Loading.** The storage has the log that the disk has. -/
theorem init_spec (henv : cfg.env.Reliable)
    (htail : Partial cfg.getChecksum cfg.checksumType tail) (hdisk : L.OnDisk cfg tail fs.disk)
    (hnames : Lists names fs.disk) :
    ∃ s' fs' L', init cfg names fs = (some s', fs') ∧ Holds cfg s' fs'.disk L.log L' false := by
  have hmem : ∀ name : FileName, ¬ name.IsTmp →
      (name ∈ names ↔ name ∈ (filesOf cfg L.closed L.current tail).map Prod.fst) := by
    intro name hname
    rw [hnames.mem_iff, Option.ne_none_iff_exists', mem_map]
    constructor
    · rintro ⟨content, hfile⟩
      exact ⟨(name, content), (hdisk.files_iff name content hname).mp hfile, rfl⟩
    · rintro ⟨⟨_, content⟩, hin, rfl⟩
      exact ⟨content, (hdisk.files_iff _ content hname).mpr hin⟩
  obtain ⟨l, fs₁, hlist, hlisted, hshows₁⟩ := listFiles_spec [] (listed_nil L) hdisk hnames.nodup
    fun name hname => (Classical.em name.IsTmp).imp_right fun htmp => (hmem name htmp).mp hname
  obtain ⟨hsegments, hopen⟩ := hlisted.all hmem
  obtain ⟨m, hlinked, -⟩ := linked_append.mp L.linked
  obtain ⟨A, B, fs₂, hsplit, hA, hB, hcheck, hshows₂⟩ :=
    checkSegments_spec henv hshows₁ hlinked L.nonempty L.start_le
  have hle : L.start + (entriesOf A).length ≤ L.first := by
    rw [hsplit] at hlinked
    obtain ⟨m', hlinkedA, -⟩ := linked_append.mp hlinked
    rw [hlinkedA.length]
    exact hlinkedA.le_of_forall L.start_le hA
  have hdisk₂ : (L.dropClosed hsplit hle).OnDisk cfg tail fs₂.disk := hshows₂
  obtain ⟨s', fs', L', hload, hholds⟩ := loadSegments_spec henv htail hdisk₂ hB
  refine ⟨s', fs', L', ?_, by rwa [log_dropClosed] at hholds⟩
  unfold init
  rw [hdisk.record_eq]
  rw [hlist]
  dsimp only
  rw [hsegments, hcheck, hopen]
  exact hload

end Braft.Segments
