import Nori.Braft.Segment.Suffix
import Nori.Transition.System

/-!
# Log storages refine a list

The operations that `LogManager` issues are run on a `SegmentLogStorage`, on a `MemoryLogStorage`
and on a list at the same time. The storages read as the list does, and all operations succeed, as
long as

* no entry has data whose length does not fit a header, and
* the end of the log is not truncated before a segment that was opened again by an earlier
  truncation: such a segment is in the map as well, and is unlinked twice.
-/

namespace Braft.Segments

open Files Container Transition ListLog List

/-! ## `MemoryLogStorage` -/

section Memory

variable {m : MemoryLogStorage} {log : ListLog LogEntry} {e : LogEntry} {es : List LogEntry}
  {a k : ℕ}

/-- What can be read of a `MemoryLogStorage`. -/
structure MemoryLogStorage.Reads (m : MemoryLogStorage) (log : ListLog LogEntry) : Prop where
  first : m.firstLogIndex = log.first
  last : m.lastLogIndex + 1 = log.next
  getEntry : ∀ i, m.getEntry i = log.get i
  getTerm : ∀ i, m.getTerm i = ((log.get i).map LogEntry.term).getD 0

/-- It has the entries of a log, which are numbered. -/
structure MemoryLogStorage.Holds (m : MemoryLogStorage) (log : ListLog LogEntry) : Prop where
  first : m.firstLogIndex = log.first
  last : m.lastLogIndex + 1 = log.next
  entries : m.logEntryData = log.entries
  first_pos : 0 < log.first
  numbered : NumberedFrom log.first log.entries

theorem NumberedFrom.take (h : NumberedFrom a es) (n : ℕ) : NumberedFrom a (es.take n) := by
  unfold NumberedFrom at *
  rw [map_take, h, length_take]
  rcases le_total n es.length with hn | hn
  · rw [take_range'_of_length_ge hn, min_eq_left hn]
  · rw [take_range'_of_length_le hn, min_eq_right hn]

theorem NumberedFrom.drop (h : NumberedFrom a es) (n : ℕ) : NumberedFrom (a + n) (es.drop n) := by
  unfold NumberedFrom at *
  rw [map_drop, h, length_drop, drop_range', Nat.mul_one]

theorem numberedFrom_concat : NumberedFrom a (es ++ [e]) ↔
    NumberedFrom a es ∧ e.index = a + es.length := by
  unfold NumberedFrom
  rw [map_append, length_append, map_singleton, length_singleton, range'_concat, Nat.one_mul]
  constructor
  · intro h
    obtain ⟨hes, he⟩ := append_inj' h rfl
    exact ⟨hes, cons.inj he |>.1⟩
  · rintro ⟨hes, he⟩
    rw [hes, he]

theorem NumberedFrom.dropWhile_lt (h : NumberedFrom a es) (k : ℕ) :
    es.dropWhile (fun e => e.index < k) = es.drop (k - a) := by
  induction es generalizing a with
  | nil => rw [dropWhile_nil, drop_nil]
  | cons e es ih =>
    obtain ⟨he, hes⟩ := numberedFrom_cons.mp h
    by_cases hk : e.index < k
    · rw [dropWhile_cons, if_pos (decide_eq_true hk), ih hes,
        show k - a = k - (a + 1) + 1 by omega, drop_succ_cons]
    · rw [dropWhile_cons, if_neg (by simpa using hk), show k - a = 0 by omega, drop_zero]

theorem NumberedFrom.rdropWhile_lt (h : NumberedFrom a es) (k : ℕ) :
    es.rdropWhile (fun e => k < e.index) = es.take (k + 1 - a) := by
  induction es using reverseRecOn with
  | nil => rw [rdropWhile_nil, take_nil]
  | append_singleton es e ih =>
    obtain ⟨hes, he⟩ := numberedFrom_concat.mp h
    by_cases hk : k < e.index
    · rw [rdropWhile_concat, if_pos (decide_eq_true hk), ih hes,
        take_append_of_le_length (by omega)]
    · rw [rdropWhile_concat, if_neg (by simpa using hk), take_of_length_le]
      rw [length_append, length_singleton]
      omega

open MemoryLogStorage

theorem MemoryLogStorage.Holds.reads (h : m.Holds log) : m.Reads log := by
  obtain ⟨hfirst, hlast, hentries, hpos, -⟩ := h
  have hget : ∀ i, m.getEntry i = log.get i := by
    intro i
    unfold getEntry
    by_cases hi : i < m.firstLogIndex ∨ m.lastLogIndex < i
    · rw [if_pos hi]
      rcases hi with hi | hi
      · exact (get_of_lt (by omega)).symm
      · exact (get_of_next_le (by omega)).symm
    · rw [if_neg hi, get_of_le (by omega), hentries, hfirst]
  refine ⟨hfirst, hlast, hget, fun i => ?_⟩
  unfold getTerm
  rw [hget]
  cases log.get i <;> rfl

theorem MemoryLogStorage.Holds.appendEntries (h : m.Holds log) (hes : NumberedFrom log.next es) :
    (m.appendEntries es).2.Holds (log.append es) := by
  show (es.foldl appendEntry m).Holds (log.append es)
  induction es generalizing m log with
  | nil => rwa [ListLog.append_nil]
  | cons e es ih =>
    obtain ⟨he, hes⟩ := numberedFrom_cons.mp hes
    have hnext : e.index = m.lastLogIndex + 1 := he.trans h.last.symm
    have hone : (m.appendEntry e).Holds (log.append [e]) := by
      unfold appendEntry
      rw [if_neg (fun hne => hne hnext)]
      refine ⟨h.first, ?_, ?_, h.first_pos, ?_⟩
      · rw [next_append, ← h.last]
        rfl
      · rw [h.entries]
        rfl
      · exact numberedFrom_concat.mpr ⟨h.numbered, he⟩
    have hrest := ih hone (by rwa [next_append])
    rwa [append_append, singleton_append] at hrest

theorem MemoryLogStorage.Holds.truncatePrefix (h : m.Holds log) (hk : log.first ≤ k) :
    (m.truncatePrefix k).2.Holds (log.truncatePrefix k) := by
  have hfirst := ListLog.first_truncatePrefix log k
  have hnext := ListLog.next_truncatePrefix log k
  rw [max_eq_right hk] at hfirst
  have hpos := h.first_pos
  have hlast := h.last
  have hentries : (log.truncatePrefix k).entries = log.entries.drop (k - log.first) := by
    unfold ListLog.truncatePrefix
    split_ifs with hle
    · rw [Nat.sub_eq_zero_of_le hle, drop_zero]
    · rfl
  refine ⟨hfirst.symm, ?_, ?_, by omega, ?_⟩
  · rw [hnext]
    dsimp only [MemoryLogStorage.truncatePrefix]
    split_ifs <;> omega
  · rw [hentries, ← h.numbered.dropWhile_lt k, ← h.entries]
    rfl
  · rw [hentries, hfirst]
    have := h.numbered.drop (k - log.first)
    rwa [Nat.add_sub_cancel' hk] at this

theorem MemoryLogStorage.Holds.truncateSuffix (h : m.Holds log) (hfirst : log.first ≤ k + 1)
    (hlast : k < log.next) : (m.truncateSuffix k).2.Holds (log.truncateSuffix k) := by
  have hm := h.first
  refine ⟨?_, ?_, ?_, h.first_pos, h.numbered.take _⟩
  · show (if k < m.firstLogIndex then k + 1 else m.firstLogIndex) = log.first
    split_ifs <;> omega
  · exact (next_truncateSuffix hfirst hlast).symm
  · show m.logEntryData.rdropWhile _ = _
    rw [h.entries]
    exact h.numbered.rdropWhile_lt k

theorem MemoryLogStorage.Holds.reset (hk : 0 < k) : (m.reset k).2.Holds (ListLog.reset k) := by
  unfold MemoryLogStorage.reset
  rw [if_neg (by omega)]
  exact ⟨rfl, Nat.sub_add_cancel hk, rfl, hk, rfl⟩

end Memory

/-! ## Runs -/

abbrev LogOp := ListLog.Op LogEntry

/-- Operations that `LogManager` can issue: entries follow the log, its beginning is truncated at
its first index or later, and its end where it has entries. -/
def Legal (log : ListLog LogEntry) : LogOp → Prop
  | .append es => NumberedFrom log.next es
  | .truncatePrefix k => log.first ≤ k
  | .truncateSuffix k => log.first ≤ k + 1 ∧ k < log.next ∧ log.first < log.next
  | .reset n => 0 < n

instance (log : ListLog LogEntry) (op : LogOp) : Decidable (Legal log op) :=
  match op with
  | .append es => inferInstanceAs (Decidable (es.map LogEntry.index = range' log.next es.length))
  | .truncatePrefix k => inferInstanceAs (Decidable (log.first ≤ k))
  | .truncateSuffix k =>
    inferInstanceAs (Decidable (log.first ≤ k + 1 ∧ k < log.next ∧ log.first < log.next))
  | .reset n => inferInstanceAs (Decidable (0 < n))

/-- Two storages, the list, and whether all operations have succeeded so far. -/
structure Storages where
  fs : Fs
  segments : SegmentLogStorage
  memory : MemoryLogStorage
  log : ListLog LogEntry
  allOk : Bool

namespace Storages

/-- An operation on the segments: whether it succeeds, and what it leaves. -/
def runSegments (cfg : Config) (op : LogOp) (s : SegmentLogStorage) (fs : Fs) : Outcome Bool :=
  match op with
  | .append es => match s.appendEntries cfg es fs with | ⟨ret, s, fs⟩ => ⟨ret = es.length, s, fs⟩
  | .truncatePrefix k => s.truncatePrefix cfg k fs
  | .truncateSuffix k => s.truncateSuffix cfg k fs
  | .reset n => s.reset cfg n fs

def runMemory (op : LogOp) (m : MemoryLogStorage) : Bool × MemoryLogStorage :=
  match op with
  | .append es => match m.appendEntries es with | (ret, m) => (ret = es.length, m)
  | .truncatePrefix k => m.truncatePrefix k
  | .truncateSuffix k => m.truncateSuffix k
  | .reset n => m.reset n

/-- The storages of an empty directory. -/
def init (cfg : Config) : Storages :=
  match SegmentLogStorage.init cfg [] ⟨⟨fun _ => none, none⟩, [], 0⟩ with
  | (s, fs) => ⟨fs, s.getD ⟨1, 0, [], none, false⟩, .init, ⟨1, []⟩, s.isSome⟩

def step (cfg : Config) (s : Storages) (op : LogOp) : Option Storages :=
  if Legal s.log op then
    match runSegments cfg op s.segments s.fs, runMemory op s.memory with
    | ⟨ok, segments, fs⟩, (ok', memory) =>
      some ⟨fs, segments, memory, s.log.run op, s.allOk && ok && ok'⟩
  else none

/-- The length of the data fits, and no segment is popped that is both open and in the map. -/
def Safe (s : Storages) : LogOp → Prop
  | .append es => ∀ e ∈ es, e.data.length < 2 ^ 32
  | .truncateSuffix k => s.segments.openListed = true →
      ∀ seg ∈ s.segments.openSegment, seg.firstIndex ≤ k
  | _ => True

instance (s : Storages) (op : LogOp) : Decidable (s.Safe op) :=
  match op with
  | .append es => inferInstanceAs (Decidable (∀ e ∈ es, e.data.length < 2 ^ 32))
  | .truncateSuffix k => inferInstanceAs (Decidable (s.segments.openListed = true →
      ∀ seg ∈ s.segments.openSegment, seg.firstIndex ≤ k))
  | .truncatePrefix _ => .isTrue trivial
  | .reset _ => .isTrue trivial

/-- What is invariant. -/
structure Related (cfg : Config) (s : Storages) : Prop where
  ok : s.allOk = true
  segments : ∃ L listed, Holds cfg s.segments s.fs.disk s.log L listed
  memory : s.memory.Holds s.log

end Storages

open Storages

/-- All runs of the storages. -/
def storages (cfg : Config) : System Storages LogOp := System.ofStep (init cfg) (step cfg)

section Runs

variable {cfg : Config} {s s' : Storages} {op : LogOp}

open Storages

theorem runSegments_spec (henv : cfg.env.Reliable)
    (h : ∃ L listed, Holds cfg s.segments s.fs.disk s.log L listed) (hlegal : Legal s.log op)
    (hsafe : s.Safe op) :
    ∃ segments fs, runSegments cfg op s.segments s.fs = ⟨true, segments, fs⟩ ∧
      ∃ L listed, Holds cfg segments fs.disk (s.log.run op) L listed := by
  obtain ⟨L, listed, hholds⟩ := h
  unfold runSegments
  cases op with
  | append es =>
    obtain ⟨L', listed', segments, fs, hop, hholds', -⟩ :=
      appendEntries_spec henv hholds hsafe hlegal
    dsimp only
    rw [hop]
    exact ⟨segments, fs, by rw [decide_eq_true rfl], L', listed', hholds'⟩
  | truncatePrefix k =>
    obtain ⟨L', listed', segments, fs, hop, hholds', -⟩ := truncatePrefix_spec henv hholds hlegal
    exact ⟨segments, fs, hop, L', listed', hholds'⟩
  | truncateSuffix k =>
    obtain ⟨hfirst, hlast, hne⟩ := hlegal
    have hok : listed = true → ∀ c, L.current = some c → c.first ≤ k := by
      intro hlisted c hc
      have hopen : s.segments.openSegment = some (c.segment true) := by
        rw [hholds.storage_eq]
        show L.current.map (Chunk.segment true) = _
        rw [hc]
        rfl
      refine hsafe ?_ (c.segment true) hopen
      rw [hholds.storage_eq]
      exact hlisted
    have hop := truncateSuffix_spec henv hholds hfirst hlast hne hok
    have hret := hop.ret
    have hleft := hop.holds
    dsimp only
    generalize s.segments.truncateSuffix cfg k s.fs = r at hret hleft
    obtain ⟨ret, segments, fs⟩ := r
    subst hret
    exact ⟨segments, fs, rfl, hleft⟩
  | reset n =>
    obtain ⟨L', listed', segments, fs, hop, hholds'⟩ := reset_spec henv hholds hlegal
    exact ⟨segments, fs, hop, L', listed', hholds'⟩

theorem runMemory_spec (h : s.Related cfg) (hlegal : Legal s.log op) :
    ∃ memory, runMemory op s.memory = (true, memory) ∧ memory.Holds (s.log.run op) := by
  unfold runMemory
  cases op with
  | append es => exact ⟨_, by simp [MemoryLogStorage.appendEntries], h.memory.appendEntries hlegal⟩
  | truncatePrefix k => exact ⟨_, rfl, h.memory.truncatePrefix hlegal⟩
  | truncateSuffix k => exact ⟨_, rfl, h.memory.truncateSuffix hlegal.1 hlegal.2.1⟩
  | reset n =>
    refine ⟨(s.memory.reset n).2, ?_, MemoryLogStorage.Holds.reset hlegal⟩
    have hn : n ≠ 0 := Nat.pos_iff_ne_zero.mp hlegal
    show s.memory.reset n = (true, (s.memory.reset n).2)
    unfold MemoryLogStorage.reset
    rw [if_neg hn]

theorem Storages.Related.step (henv : cfg.env.Reliable) (h : s.Related cfg) (hsafe : s.Safe op)
    (hstep : s.step cfg op = some s') : s'.Related cfg := by
  obtain ⟨hlegal, hstep⟩ := Option.ite_none_right_eq_some.mp hstep
  obtain ⟨segments, fs, hsegments, hholds⟩ := runSegments_spec henv h.segments hlegal hsafe
  obtain ⟨memory, hmemory, hholds'⟩ := runMemory_spec h hlegal
  rw [hsegments, hmemory] at hstep
  cases hstep
  exact ⟨by rw [h.ok]; rfl, hholds, hholds'⟩

theorem holds_init (henv : cfg.env.Reliable) : ∃ segments fs L,
    SegmentLogStorage.init cfg [] ⟨⟨fun _ => none, none⟩, [], 0⟩ = (some segments, fs) ∧
      Holds cfg segments fs.disk ⟨1, []⟩ L false := by
  set fs : Fs := ⟨⟨fun _ => none, none⟩, [], 0⟩ with hfs
  have hshows : Shows FileName.IsTmp (none : Option ℕ) [] fs.disk :=
    ⟨rfl, fun _ _ _ => ⟨nofun, nofun⟩⟩
  obtain ⟨fs', hsave, hshows', -⟩ := FileSystem.exec_save (P := fun _ _ => True) henv hshows 1
    trivial trivial
  refine ⟨⟨1, 0, [], none, false⟩, fs', Layout.bare 1 one_pos, ?_, Layout.tidy_bare _, rfl, nofun,
    hshows', Layout.log_bare _⟩
  unfold SegmentLogStorage.init
  rw [hfs]
  dsimp only [foldl_nil]
  rw [← hfs, hsave]

theorem Storages.related_init (henv : cfg.env.Reliable) : (init cfg).Related cfg := by
  obtain ⟨segments, fs, L, hinit, hholds⟩ := holds_init henv
  have hstorages : init cfg = ⟨fs, segments, .init, ⟨1, []⟩, true⟩ := by
    unfold init
    rw [hinit]
    rfl
  rw [hstorages]
  exact ⟨rfl, ⟨L, false, hholds⟩, rfl, rfl, rfl, one_pos, rfl⟩

theorem Storages.related_of_reachable (henv : cfg.env.Reliable)
    (hreach : ((storages cfg).restrict Safe).Reachable s) : s.Related cfg := by
  refine hreach.invariant ?_ ?_
  · rintro s₀ rfl
    exact related_init henv
  · rintro s₁ op s₂ ⟨hsafe, hstep⟩ hs₁
    exact hs₁.step henv hsafe hstep

/-- **Both storages refine the list.** In every run in which all calls to the file system succeed,
the data of each entry fits, and no segment is popped that is both open and in the map, all
operations succeed, and both storages read as the list. -/
theorem storages_refine (henv : cfg.env.Reliable)
    (hreach : ((storages cfg).restrict Safe).Reachable s) :
    s.allOk = true ∧ Reads cfg s.segments s.fs.disk s.log ∧ s.memory.Reads s.log := by
  have hrelated := related_of_reachable henv hreach
  obtain ⟨L, listed, hholds⟩ := hrelated.segments
  exact ⟨hrelated.ok, hholds.reads, hrelated.memory.reads⟩

end Runs

/-! ## Two runs -/

namespace Sample

/-- All calls succeed, and a segment is too large with two entries that have no data. -/
def cfg : Config := ⟨fun _ _ => 0, .crc32, 24, true, false, true, ⟨fun _ => false, fun _ => 100⟩⟩

theorem reliable : cfg.env.Reliable := fun _ => rfl

def noOp (index : ℕ) : LogEntry := ⟨index, 1, .noOp, [], by decide, fun _ => rfl⟩

/-- The log is truncated within its second segment, which is opened again for that. -/
def reopened : List LogOp := [.append [noOp 1, noOp 2, noOp 3, noOp 4, noOp 5], .truncateSuffix 3]

/-- It grows again, is truncated at its beginning and within the segment, and is reset. -/
def regrown : List LogOp :=
  reopened ++ [.append [noOp 4, noOp 5], .truncatePrefix 2, .truncateSuffix 3, .reset 7,
    .append [noOp 7]]

/-- The segment is dropped. -/
def dropped : List LogOp := reopened ++ [.truncateSuffix 2]

def after (ops : List LogOp) : Storages := (ops.foldlM (step cfg) (init cfg)).getD (init cfg)

end Sample

open Segments.Sample

theorem storages_refine_regrown : (after regrown).log = ⟨7, [noOp 7]⟩ ∧
      (after regrown).allOk = true ∧
      Reads cfg (after regrown).segments (after regrown).fs.disk (after regrown).log ∧
      (after regrown).memory.Reads (after regrown).log := by
  have hrun : regrown.foldlM (System.guardStep Safe (step cfg))
      (init cfg) = some (after regrown) := rfl
  have hreach : ((storages cfg).restrict Safe).Reachable (after regrown) :=
    ⟨init cfg, rfl, System.run_restrict_of_foldlM hrun⟩
  exact ⟨rfl, storages_refine reliable hreach⟩

/-- **A segment that was opened again cannot be dropped.** All calls to the file system succeed that
can; the second truncation pops the segment twice, and fails. -/
theorem reopened_segment_not_truncated :
    cfg.env.Reliable ∧ (storages cfg).Reachable (after dropped) ∧ (after reopened).allOk = true ∧
      (after dropped).allOk = false := by
  have hrun : dropped.foldlM (step cfg) (init cfg) = some (after dropped) := rfl
  exact ⟨reliable, ⟨init cfg, rfl, System.run_of_foldlM hrun⟩, rfl, rfl⟩

end Braft.Segments
