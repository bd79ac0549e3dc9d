import Nori.Braft.Segment.Recovery
import Nori.Braft.Segment.Refinement

/-!
# Crashes

A process that uses a `SegmentLogStorage` can die between any two of its calls to the file system.
The storage that `init` then makes of the disk has a log which the operation may leave, as long as

* no entry has data whose length does not fit a header,
* the log is not reset to an index within it or before: the first index is saved before the segments
  are unlinked, and the entries from that index on are found again, and
* no earlier truncation has popped a segment that is both open and in the map, since a truncation
  that fails leaves the storage and the disk with different segments.
-/

namespace Braft.Segments

open Files Container Transition SegmentLogStorage Function Storages

/-- The logs that a crash within an operation may leave. -/
def Survives (op : LogOp) (log log' : ListLog LogEntry) : Prop :=
  match op with
  | .append es => ∃ n, log' = log.append (es.take n)
  | .truncatePrefix k => log' = log ∨ log' = log.truncatePrefix k
  | .truncateSuffix k => KeepsUpTo k log log'
  | .reset n => log' = log ∨ log' = ListLog.reset n

/-- A storage on a disk, and its log. -/
structure Stored where
  fs : Fs
  segments : SegmentLogStorage
  log : ListLog LogEntry

/-- What a crash within an operation can leave: the disk after some of its steps. A file that was
renamed may be unlinked earlier or later than that. -/
def CrashDisk (cfg : Config) (op : LogOp) (s : Stored) (d : LogDisk) : Prop :=
  ∃ d₀, FileSystem.Between s.fs (runSegments cfg op s.segments s.fs).fs d₀ ∧
    d.record = d₀.record ∧ ∀ name : FileName, ¬ name.IsTmp → d.files name = d₀.files name

namespace Stored

/-- An operation that is completed, or one within which the process dies. -/
inductive Act
  | run (op : LogOp)
  | crash (op : LogOp)

/-- After a crash, `init` loads what the disk has. -/
inductive Step (cfg : Config) : Stored → Act → Stored → Prop
  | run {s : Stored} {op : LogOp} {r : Outcome Bool} (hlegal : Legal s.log op)
    (hrun : runSegments cfg op s.segments s.fs = r) :
    Step cfg s (.run op) ⟨r.fs, r.storage, s.log.run op⟩
  | crash {s s' : Stored} {op : LogOp} {d : LogDisk} {names : List FileName}
    (hdisk : CrashDisk cfg op s d) (hnames : Lists names d)
    (hinit : init cfg names ⟨d, [], 0⟩ = (some s'.segments, s'.fs))
    (hlog : Reads cfg s'.segments s'.fs.disk s'.log) : Step cfg s (.crash op) s'

/-- The length of the data fits, no segment is popped that is both open and in the map, and no crash
happens while the log is reset to an index before its end. -/
def Safe (s : Stored) : Act → Prop
  | .run (.append es) | .crash (.append es) => Fits es
  | .run (.truncateSuffix k) => s.segments.openListed = true →
      ∀ seg ∈ s.segments.openSegment, seg.firstIndex ≤ k
  | .crash (.reset n) => s.log.next ≤ n
  | _ => True

end Stored

/-- All runs of a storage, from an empty directory on. -/
def stored (cfg : Config) : System Stored Stored.Act where
  init s := init cfg [] ⟨⟨fun _ => none, none⟩, [], 0⟩ = (some s.segments, s.fs) ∧ s.log = ⟨1, []⟩
  step := Stored.Step cfg

section Crashes

variable {cfg : Config} {s : Stored} {op : LogOp} {d : LogDisk} {names : List FileName} {L : Layout}
  {listed : Bool}

section

variable (henv : cfg.env.Reliable) (h : Holds cfg s.segments s.fs.disk s.log L listed)
  (hsafe : s.Safe (.crash op))
include henv h hsafe

/-- All disks that an operation goes through have such a log. -/
theorem runSegments_passes :
    Passes cfg (Survives op s.log) s.fs (runSegments cfg op s.segments s.fs).fs := by
  cases op with
  | append es => exact appendEntries_passes henv h hsafe
  | truncatePrefix k =>
    by_cases hk : s.log.first ≤ k
    · obtain ⟨-, -, s', fs', hop, -, hvia⟩ := truncatePrefix_spec henv h hk
      dsimp only [runSegments]
      rw [hop]
      exact hvia
    · have hle : k ≤ s.segments.firstLogIndex := by
        rw [h.reads.first]
        omega
      dsimp only [runSegments]
      unfold truncatePrefix
      rw [if_pos hle]
      exact .refl h.onDisk (.inl h.log_eq)
  | truncateSuffix k => exact truncateSuffix_passes henv h
  | reset n =>
    by_cases hn : n = 0
    · dsimp only [runSegments]
      unfold reset
      rw [if_pos hn]
      exact .refl h.onDisk (.inl h.log_eq)
    · exact reset_passes henv h (Nat.pos_iff_ne_zero.mpr hn) hsafe

theorem init_crash (hdisk : CrashDisk cfg op s d) (hnames : Lists names d) :
    ∃ s' fs' log' L', init cfg names ⟨d, [], 0⟩ = (some s', fs') ∧
      Holds cfg s' fs'.disk log' L' false ∧ Survives op s.log log' := by
  obtain ⟨d₀, hbetween, hrecord, hfiles⟩ := hdisk
  obtain ⟨_, _, ⟨L₀, tail, htail, rfl, rfl, hlog⟩, hshows⟩ :=
    FileSystem.Via.between (runSegments_passes henv h hsafe) hbetween
  have honDisk : L₀.OnDisk cfg tail (FileSystem.mk d [] 0).disk := hshows.congr_disk hrecord hfiles
  obtain ⟨s', fs', L', hinit, hholds⟩ := init_spec henv htail honDisk hnames
  exact ⟨s', fs', L₀.log, L', hinit, hholds, hlog⟩

end

theorem Reads.unique {segments : SegmentLogStorage} {log log' : ListLog LogEntry}
    (h : Reads cfg segments d log) (h' : Reads cfg segments d log') : log = log' :=
  ListLog.ext_get (h.first.symm.trans h'.first) fun i => (h.getEntry i).symm.trans (h'.getEntry i)

theorem Stored.holds_step {s' : Stored} {act : Stored.Act} (henv : cfg.env.Reliable)
    (h : ∃ L listed, Holds cfg s.segments s.fs.disk s.log L listed) (hsafe : s.Safe act)
    (hstep : Stored.Step cfg s act s') :
    ∃ L listed, Holds cfg s'.segments s'.fs.disk s'.log L listed := by
  cases hstep with
  | @run op r hlegal hrun =>
    set t : Storages := ⟨s.fs, s.segments, .init, s.log, true⟩
    have hsafe : t.Safe op := by cases op <;> exact hsafe
    obtain ⟨segments, fs, hspec, hholds⟩ := runSegments_spec henv (s := t) h hlegal hsafe
    obtain rfl := hrun.symm.trans hspec
    exact hholds
  | @crash _ op d names hdisk hnames hinit hlog =>
    obtain ⟨L, listed, hholds⟩ := h
    obtain ⟨segments, fs, log', L', hinit', hholds', -⟩ := init_crash henv hholds hsafe hdisk hnames
    obtain ⟨hsegments, hfs⟩ := Prod.mk.inj (hinit.symm.trans hinit')
    rw [Option.some.inj hsegments, hfs] at hlog ⊢
    rw [hlog.unique hholds'.reads]
    exact ⟨L', false, hholds'⟩

theorem Stored.holds_of_reachable (henv : cfg.env.Reliable)
    (hreach : ((stored cfg).restrict Stored.Safe).Reachable s) :
    ∃ L listed, Holds cfg s.segments s.fs.disk s.log L listed := by
  refine hreach.invariant (P := fun s : Stored =>
    ∃ L listed, Holds cfg s.segments s.fs.disk s.log L listed) ?_ ?_
  · rintro s₀ ⟨hinit, hlog⟩
    obtain ⟨segments, fs, L, hinit', hholds⟩ := holds_init henv
    obtain ⟨hsegments, hfs⟩ := Prod.mk.inj (hinit.symm.trans hinit')
    rw [Option.some.inj hsegments, hfs, hlog]
    exact ⟨L, false, hholds⟩
  · rintro s₁ act s₂ ⟨hsafe, hstep⟩ hs₁
    exact Stored.holds_step henv hs₁ hsafe hstep

/-- **Crash consistency.** In every run in which all calls to the file system succeed, the data of
each entry fits, no segment is popped that is both open and in the map, and no crash happens while
the log is reset to an index before its end: after a crash within any operation `init` makes a
storage of the disk, whatever the order in which the names are listed, and its log is one that the
operation may leave. -/
theorem crash_consistent (henv : cfg.env.Reliable)
    (hreach : ((stored cfg).restrict Stored.Safe).Reachable s) (hsafe : s.Safe (.crash op))
    (hdisk : CrashDisk cfg op s d) (hnames : Lists names d) :
    ∃ segments fs log, init cfg names ⟨d, [], 0⟩ = (some segments, fs) ∧
      Reads cfg segments fs.disk log ∧ Survives op s.log log := by
  obtain ⟨L, listed, hholds⟩ := Stored.holds_of_reachable henv hreach
  obtain ⟨segments, fs, log, L', hinit, hholds', hsurvives⟩ :=
    init_crash henv hholds hsafe hdisk hnames
  exact ⟨segments, fs, log, hinit, hholds'.reads, hsurvives⟩

end Crashes

/-! ## Two crashes -/

namespace Sample

/-- Two entries are appended. -/
def two : Stored :=
  ⟨(after [.append [noOp 1, noOp 2]]).fs, (after [.append [noOp 1, noOp 2]]).segments,
    ⟨1, [noOp 1, noOp 2]⟩⟩

/-- The log is being reset, and the new first index is saved already. -/
def saved (next : ℕ) : LogDisk := ⟨two.fs.disk.files, some next⟩

theorem reachable_two : ((stored cfg).restrict Stored.Safe).Reachable two := by
  set s₀ : Stored := ⟨(Storages.init cfg).fs, (Storages.init cfg).segments, ⟨1, []⟩⟩ with hs₀
  have hlegal : Legal s₀.log (.append [noOp 1, noOp 2]) := rfl
  have hstep : Stored.Step cfg s₀ (.run (.append [noOp 1, noOp 2])) two := .run hlegal rfl
  have hsafe : s₀.Safe (.run (.append [noOp 1, noOp 2])) := by
    show ∀ e ∈ [noOp 1, noOp 2], e.data.length < 2 ^ 32
    decide
  have hinit : ((stored cfg).restrict Stored.Safe).init s₀ := ⟨rfl, rfl⟩
  exact (System.Reachable.start hinit).step ⟨hsafe, hstep⟩

theorem crashDisk_saved {next : ℕ} (h : 0 < next) :
    CrashDisk cfg (.reset next) two (saved next) := by
  obtain ⟨n, rfl⟩ : ∃ n, next = n + 1 := ⟨next - 1, by omega⟩
  exact ⟨saved (n + 1), ⟨_, 1, rfl, rfl⟩, rfl, fun _ _ => rfl⟩

theorem lists_saved (next : ℕ) : Lists [.inprogress 1] (saved next) := by
  refine ⟨List.nodup_singleton _, fun name => ?_⟩
  rw [List.mem_singleton]
  constructor
  · rintro rfl
    exact nofun
  · intro hfile
    by_contra hne
    have hfiles : ∃ a b c, (saved next).files = update (update (update
        (fun _ => none) (.inprogress 1) a) (.inprogress 1) b) (.inprogress 1) c := ⟨_, _, _, rfl⟩
    obtain ⟨a, b, c, hfiles⟩ := hfiles
    rw [hfiles, update_idem, update_idem, update_of_ne hne] at hfile
    exact hfile rfl

end Sample

open Segments.Sample

theorem crash_consistent_behind : ∃ segments fs log, init cfg [.inprogress 1] ⟨saved 3, [], 0⟩ =
        (some segments, fs) ∧
      Reads cfg segments fs.disk log ∧ Survives (.reset 3) two.log log :=
  crash_consistent reliable reachable_two (Nat.le_refl 3)
    (crashDisk_saved (by decide)) (lists_saved 3)

/-- **Resetting is not atomic.** The log has two entries and is reset to the second index. After a
crash that comes when this index is saved, the second entry is found again. -/
theorem reset_not_atomic : cfg.env.Reliable ∧ (stored cfg).Reachable two ∧
      CrashDisk cfg (.reset 2) two (saved 2) ∧
      Lists [.inprogress 1] (saved 2) ∧
      ∃ segments fs, init cfg [.inprogress 1] ⟨saved 2, [], 0⟩ = (some segments, fs) ∧
        segments.getEntry cfg fs.disk 2 = some (noOp 2) ∧
        ∀ log, Reads cfg segments fs.disk log → ¬ Survives (.reset 2) two.log log := by
  refine ⟨reliable, reachable_two.of_restrict, crashDisk_saved (by decide),
    lists_saved 2, _, _, rfl, rfl, fun log hreads hsurvives => ?_⟩
  have hfirst : 2 = log.first := hreads.first
  have hlast : 3 = log.next := hreads.last
  rcases hsurvives with rfl | rfl
  · exact absurd hfirst (by decide)
  · exact absurd hlast (by decide)

end Braft.Segments
