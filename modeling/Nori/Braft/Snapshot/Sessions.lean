import Nori.Braft.Snapshot.Executor

/-!
# Snapshot sessions

At most one thread is on its way through a download, and at most one through a save, never both;
what the flags of the executor say of it is so at every step of the other threads. With this, calls
and closures are conserved: each call is held by one thread or session until it is answered.

If the `FSMCaller` refuses a save task, a flag or the count of jobs is left behind: without a
closure the task is not run, and `_saving_snapshot` is never reset; with a closure it is run, and
signals the end of a job that was not counted.

## Main results

* `Phase.run`: what a step of a thread keeps
* `sessions_sound`: calls, closures, sessions and flags in every run
* `refused_save_leaks`: what a refused task leaves behind
-/

namespace Braft.Snapshots

open Transition List Option System Int Bool

/-! ## What a thread counts for -/

namespace Thread

/-- The thread is responsible for the session that is downloaded or loaded. -/
def downloads : Thread → ℕ
  | .copy .. | .copied .. | .load | .fsmLoad | .loadDone _ | .loadFinish .. => 1
  | _ => 0

/-- The thread is responsible for the snapshot that is saved. -/
def saves : Thread → ℕ
  | .fsmSave _ | .saveDone .. | .saveClose .. | .saveCommit .. | .saveFinish .. => 1
  | _ => 0

/-- The thread will signal the end of a job. -/
def jobs : Thread → ℕ
  | .signalRespond _ | .respondSignal _ | .signal | .saveSignal .. => 1
  | t => t.downloads + t.saves

/-- The thread will answer a call that is not the one of the session. -/
def holds (r : ℕ) : Thread → ℕ
  | .register rpc => if rpc.id = r then 1 else 0
  | .respond ds | .signalRespond ds | .respondSignal ds => if ds.rpc.id = r then 1 else 0
  | _ => 0

/-- The thread will run a closure. -/
def closure (k : ℕ) : Thread → ℕ
  | .fsmSave done | .saveDone done .. | .saveClose done .. | .saveCommit done ..
  | .saveFinish done .. | .saveSignal done .. => if done = some k then 1 else 0
  | .runClosure done _ => if done = k then 1 else 0
  | _ => 0

/-- Steps to the end. -/
def rank : Thread → ℕ
  | .register _ => 9
  | .copy .. => 8
  | .copied .. => 7
  | .load => 6
  | .fsmLoad => 5
  | .loadDone _ => 4
  | .loadFinish .. => 3
  | .signalRespond _ | .respondSignal _ => 2
  | .respond _ | .signal => 1
  | .fsmSave _ => 7
  | .saveDone .. => 6
  | .saveClose .. => 5
  | .saveCommit .. => 4
  | .saveFinish .. => 3
  | .saveSignal .. => 2
  | .runClosure .. | .interrupt _ => 1

end Thread

open Thread

namespace Shared

/-- The call of the session. -/
def held (r : ℕ) (s : Shared) : ℕ :=
  match s.downloadingSnapshot with
  | none => 0
  | some (_, ds) => if ds.rpc.id = r then 1 else 0

def answered (r : ℕ) (s : Shared) : ℕ := (s.answers.map Prod.fst).count r

def hasRun (k : ℕ) (s : Shared) : ℕ := (s.ran.map Prod.fst).count k

variable {s : Shared}

theorem answered_append (r r' : ℕ) (response : Response) :
    { s with answers := s.answers ++ [(r', response)] }.answered r =
      s.answered r + if r' = r then 1 else 0 := by
  simp [answered, count_singleton]

theorem hasRun_append (k k' : ℕ) (st : Status) :
    { s with ran := s.ran ++ [(k', st)] }.hasRun k = s.hasRun k + if k' = k then 1 else 0 := by
  simp [hasRun, count_singleton]

end Shared

open Shared

/-! ## Flags and threads -/

/-- What a thread relies on. -/
def Thread.Session (s : Shared) : Thread → Prop
  | .copy p snapshotMeta | .copied p snapshotMeta =>
    s.loadingSnapshot = false ∧ s.downloadingSnapshot.map Prod.fst = some p ∧
      s.lastSnapshotIndex < snapshotMeta.lastIncludedIndex
  | .load | .fsmLoad | .loadDone _ =>
    s.loadingSnapshot = true ∧ s.lastSnapshotIndex < s.loadingSnapshotMeta.lastIncludedIndex
  | .loadFinish m _ => s.loadingSnapshot = true ∧ s.downloadingSnapshot.map Prod.fst = m
  | .saveClose _ _ ret snapshotMeta | .saveCommit _ _ ret snapshotMeta =>
    ret = none → s.lastSnapshotIndex < snapshotMeta.lastIncludedIndex
  | _ => True

/-- The flags say what the threads do. -/
structure Phase (s : Shared) (ts : List Thread) : Prop where
  copier : s.curCopier = (s.downloadingSnapshot.isSome && !s.loadingSnapshot)
  loading : s.loadingSnapshot = true → s.downloadingSnapshot.isSome = true
  exclusive : s.savingSnapshot = true → s.downloadingSnapshot = none
  downloads : weight downloads ts = s.downloadingSnapshot.isSome.toNat
  saves : weight saves ts ≤ s.savingSnapshot.toNat
  session : ∀ t ∈ ts, t.Session s
  checks : s.checksOk = true

/-- What the flags are; of the session, which one it is. -/
def Shared.flags (s : Shared) :=
  (s.lastSnapshotIndex, s.loadingSnapshot, s.downloadingSnapshot.map Prod.fst,
    s.loadingSnapshotMeta, s.curCopier, s.savingSnapshot)

section Phase

variable {s s' : Shared} {t : Thread} {ts ts' others : List Thread} {c : Choice} {rpc : InstallRpc}

open Shared

theorem Thread.Session.congr (h : t.Session s) (hflags : s'.flags = s.flags) : t.Session s' := by
  simp only [flags, Prod.mk.injEq] at hflags
  obtain ⟨hlast, hloading, hdownloading, hmeta, -, -⟩ := hflags
  cases t <;> simp only [Session, hlast, hloading, hdownloading, hmeta] at h ⊢ <;> exact h

theorem Thread.Session.of_zero (hdownloads : t.downloads = 0) (hsaves : t.saves = 0) :
    t.Session s := by
  cases t <;> trivial

theorem Thread.Session.of_downloads (h : t.Session s) (hdownloads : t.downloads = 0)
    (hlast : s'.lastSnapshotIndex = s.lastSnapshotIndex) : t.Session s' := by
  cases t <;> try trivial
  all_goals
    intro hret
    rw [hlast]
    exact h hret

namespace Phase

theorem perm (h : Phase s ts) (hperm : ts.Perm ts') : Phase s ts' :=
  ⟨h.copier, h.loading, h.exclusive, (weight_perm hperm).symm.trans h.downloads,
    (weight_perm hperm).symm.trans_le h.saves, fun t ht => h.session t (hperm.mem_iff.mpr ht),
    h.checks⟩

/-- A flag is there for one thread only. -/
theorem alone_of_le_toNat {flag : Bool} {n : ℕ} (h : 1 + n ≤ flag.toNat) : flag = true ∧ n = 0 := by
  have hflag := flag.toNat_le
  exact ⟨toNat_eq_one.mp (by omega), by omega⟩

theorem downloads_of_none (h : Phase s ts) (hnone : s.downloadingSnapshot = none) (ht : t ∈ ts) :
    t.downloads = 0 := by
  have hweight := h.downloads
  rw [hnone] at hweight
  exact eq_zero_of_weight hweight ht

theorem saves_of_downloading (h : Phase s ts) (hsome : s.downloadingSnapshot.isSome = true)
    (ht : t ∈ ts) : t.saves = 0 := by
  have hweight := h.saves
  cases hsaving : s.savingSnapshot with
  | false =>
    rw [hsaving] at hweight
    exact eq_zero_of_weight (Nat.le_zero.mp hweight) ht
  | true =>
    rw [h.exclusive hsaving] at hsome
    cases hsome

theorem downloads_others (h : Phase s (t :: others)) (hone : t.downloads = 1) :
    s.downloadingSnapshot.isSome = true ∧ weight Thread.downloads others = 0 := by
  have hweight := h.downloads.le
  rw [weight_cons, hone] at hweight
  exact alone_of_le_toNat hweight

theorem saves_others (h : Phase s (t :: others)) (hone : t.saves = 1) :
    s.savingSnapshot = true ∧ weight Thread.saves others = 0 := by
  have hweight := h.saves
  rw [weight_cons, hone] at hweight
  exact alone_of_le_toNat hweight

theorem session_others (h : Phase s (t :: others)) (hzero : weight Thread.downloads others = 0)
    (hlast : s'.lastSnapshotIndex = s.lastSnapshotIndex) : ∀ t ∈ others, t.Session s' := fun t ht =>
  (h.session t (mem_cons_of_mem _ ht)).of_downloads (eq_zero_of_weight hzero ht) hlast

theorem session_saving (h : Phase s (t :: others)) (hone : t.saves = 1) :
    ∀ t ∈ others, t.Session s' := fun t ht => by
  obtain ⟨hsaving, hzero⟩ := h.saves_others hone
  exact .of_zero (h.downloads_of_none (h.exclusive hsaving) (mem_cons_of_mem _ ht))
    (eq_zero_of_weight hzero ht)

theorem isSome_of_downloads (h : Phase s ts) (ht : t ∈ ts) (hone : t.downloads = 1) :
    s.downloadingSnapshot.isSome = true := by
  by_contra hnone
  have hzero := h.downloads_of_none (not_isSome_iff_eq_none.mp hnone) ht
  omega

theorem held_of_idle (h : Phase s ts) (hidle : ts = []) (r : ℕ) : s.held r = 0 := by
  have hweight := h.downloads
  rw [hidle] at hweight
  unfold held
  cases hsome : s.downloadingSnapshot with
  | none => rfl
  | some session =>
    rw [hsome] at hweight
    cases hweight

theorem goOn (ts new : List Thread) (h : Phase s (ts ++ others)) (hflags : s'.flags = s.flags)
    (hchecks : s'.checksOk = true)
    (hdownloads : weight Thread.downloads new = weight Thread.downloads ts)
    (hsaves : weight Thread.saves new = weight Thread.saves ts)
    (hsession : ∀ t ∈ new, t.Session s) : Phase s' (new ++ others) := by
  have hothers : ∀ t ∈ new ++ others, t.Session s' := fun t ht => Session.congr
    (forall_mem_append.mpr ⟨hsession, (forall_mem_append.mp h.session).2⟩ t ht) hflags
  simp only [flags, Prod.mk.injEq] at hflags
  obtain ⟨-, hloading, hpointer, -, hcopier, hsaving⟩ := hflags
  have hdownloading : s'.downloadingSnapshot.isSome = s.downloadingSnapshot.isSome := by
    rw [← isSome_map, hpointer, isSome_map]
  refine ⟨?_, ?_, ?_, ?_, ?_, hothers, hchecks⟩
  · rw [hcopier, hdownloading, hloading]
    exact h.copier
  · rw [hdownloading, hloading]
    exact h.loading
  · intro hsaves'
    rw [← not_isSome_iff_eq_none, hdownloading, h.exclusive (hsaving ▸ hsaves')]
    exact false_ne_true
  · rw [weight_append, hdownloads, ← weight_append, hdownloading]
    exact h.downloads
  · rw [weight_append, hsaves, ← weight_append, hsaving]
    exact h.saves

theorem next {t' : Thread} (h : Phase s (t :: others)) (hflags : s'.flags = s.flags)
    (hchecks : s'.checksOk = true) (hdownloads : t'.downloads = t.downloads)
    (hsaves : t'.saves = t.saves) (hsession : t'.Session s) : Phase s' (t' :: others) :=
  h.goOn [t] [t'] hflags hchecks (congrArg (· + 0) hdownloads)
    (congrArg (· + 0) hsaves) fun _ ht => mem_singleton.mp ht ▸ hsession

theorem finish (h : Phase s (t :: others)) (hflags : s'.flags = s.flags)
    (hchecks : s'.checksOk = true) (hdownloads : t.downloads = 0) (hsaves : t.saves = 0) :
    Phase s' others :=
  h.goOn [t] [] hflags hchecks (congrArg (· + 0) hdownloads.symm)
    (congrArg (· + 0) hsaves.symm) (forall_mem_nil _)

theorem come (h : Phase s ts) (hflags : s'.flags = s.flags) (hchecks : s'.checksOk = true)
    (hdownloads : t.downloads = 0) (hsaves : t.saves = 0) : Phase s' (t :: ts) :=
  h.goOn [] [t] hflags hchecks (congrArg (· + 0) hdownloads)
    (congrArg (· + 0) hsaves) fun _ ht => mem_singleton.mp ht ▸ .of_zero hdownloads hsaves

end Phase

/-- What `register_downloading_snapshot` can do. -/
inductive Registered (s : Shared) (rpc : InstallRpc) : Shared × Option Thread → Prop
  | refused (ds : DownloadingSnapshot) (hds : ds.rpc = rpc) :
    Registered s rpc (s, some (.respond ds))
  | canceled (ds : DownloadingSnapshot) (hds : ds.rpc = rpc)
    (hsome : s.downloadingSnapshot.isSome = true) (hloading : s.loadingSnapshot = false) :
    Registered s rpc (s.check s.curCopier, some (.respond ds))
  | noCopier (ds : DownloadingSnapshot) (hds : ds.rpc = rpc)
    (hnone : s.downloadingSnapshot = none) :
    Registered s rpc
      ({ s.check (!s.curCopier) with downloadingSnapshot := none, curCopier := false },
        some (.respond ds))
  | retried (p : ℕ) (m ds ds' : DownloadingSnapshot) (hds : ds.rpc = rpc) (hds' : ds'.rpc = m.rpc)
    (hsome : s.downloadingSnapshot = some (p, m)) :
    Registered s rpc ({ s with downloadingSnapshot := some (p, ds) }, some (.respond ds'))
  | started (ds : DownloadingSnapshot) (hds : ds.rpc = rpc)
    (hnone : s.downloadingSnapshot = none) (hsaving : s.savingSnapshot = false)
    (hlast : s.lastSnapshotIndex < rpc.snapshotMeta.lastIncludedIndex) :
    Registered s rpc ({ s.check (!s.curCopier) with
          downloadingSnapshot := some (rpc.id, ds)
          curCopier := true
          runningJobs := s.runningJobs + 1 },
        some (.copy rpc.id rpc.snapshotMeta))

theorem registered (s : Shared) (startsToCopy : Bool) (rpc : InstallRpc) :
    Registered s rpc (s.registerDownloadingSnapshot startsToCopy rpc) := by
  unfold registerDownloadingSnapshot
  rcases hdownloading : s.downloadingSnapshot with _ | ⟨p, m⟩
  · dsimp only
    split_ifs with hstopped hterm hlast hsaving hstarts
    · exact .refused _ rfl
    · exact .refused _ rfl
    · exact .refused _ rfl
    · exact .refused _ rfl
    · exact .started _ rfl hdownloading (eq_false_of_not_eq_true hsaving) (not_le.mp hlast)
    · exact .noCopier _ rfl hdownloading
  · dsimp only
    split_ifs with hstopped hterm hlast hsaving hsame hnewer hloading
    · exact .refused _ rfl
    · exact .refused _ rfl
    · exact .refused _ rfl
    · exact .refused _ rfl
    · exact .retried p m _ _ rfl rfl hdownloading
    · exact .refused _ rfl
    · exact .refused _ rfl
    · exact .canceled _ rfl (by rw [hdownloading]; rfl) (eq_false_of_not_eq_true hloading)

theorem deref_of_map {p : ℕ} (h : s.downloadingSnapshot.map Prod.fst = some p) :
    ∃ ds, s.downloadingSnapshot = some (p, ds) ∧ s.deref p = some ds := by
  obtain ⟨⟨p', ds⟩, hsome, rfl⟩ := map_eq_some_iff.mp h
  refine ⟨ds, hsome, ?_⟩
  unfold deref
  rw [hsome]
  exact if_pos rfl

theorem loadDownloadingSnapshot_cases {p : ℕ} {ds : DownloadingSnapshot}
    (hderef : s.deref p = some ds) (result : CopyResult) (snapshotMeta : SnapshotMeta) :
    (∃ ds' : DownloadingSnapshot, ds'.rpc = ds.rpc ∧
      s.loadDownloadingSnapshot result p snapshotMeta =
        ({ s.check s.curCopier with curCopier := false, downloadingSnapshot := none },
          some (.signalRespond ds'))) ∨
    s.loadDownloadingSnapshot result p snapshotMeta = ({ s.check s.curCopier with
          curCopier := false
          loadingSnapshot := true
          loadingSnapshotMeta := snapshotMeta },
        some .load) := by
  unfold loadDownloadingSnapshot
  rw [hderef]
  cases result with
  | failed error => exact .inl ⟨ds.setFailed error, rfl, rfl⟩
  | noReader =>
    exact .inl ⟨ds.setFailed (.einternal, "Fail to copy snapshot from " ++ ds.rpc.uri), rfl, rfl⟩
  | copied => exact .inr rfl

theorem checksOk_check {ok : Bool} (h : s.checksOk = true) (hok : ok = true) :
    (s.check ok).checksOk = true := by
  unfold check
  rw [h, hok]
  rfl

theorem last_interrupt (s : Shared) (newTerm : ℤ) :
    (s.interruptDownloadingSnapshot newTerm).lastSnapshotIndex = s.lastSnapshotIndex := by
  unfold interruptDownloadingSnapshot
  dsimp only
  split_ifs <;> rfl

namespace Phase

theorem register {result : Shared × Option Thread} (h : Phase s (.register rpc :: others))
    (hresult : Registered s rpc result) : Phase result.1 (result.2.toList ++ others) := by
  cases hresult with
  | refused ds hds => exact h.next rfl h.checks rfl rfl trivial
  | canceled ds hds hsome hloading =>
    have hcopier : s.curCopier = true := by
      rw [h.copier, hsome, hloading]
      rfl
    exact h.next rfl (checksOk_check h.checks hcopier) rfl rfl trivial
  | noCopier ds hds hnone =>
    have hcopier : s.curCopier = false := by
      rw [h.copier, hnone]
      rfl
    refine h.next ?_ (checksOk_check h.checks (by rw [hcopier]; rfl)) rfl rfl trivial
    unfold flags
    rw [hnone, hcopier]
    rfl
  | retried p m ds ds' hds hds' hsome =>
    refine h.next ?_ h.checks rfl rfl trivial
    unfold flags
    rw [hsome]
    rfl
  | started ds hds hnone hsaving hlast =>
    have hloading : s.loadingSnapshot = false := Bool.eq_false_iff.mpr fun hloading => by
      have := h.loading hloading
      rw [hnone] at this
      cases this
    have hcopier : s.curCopier = false := by
      rw [h.copier, hnone]
      rfl
    have hzero : weight Thread.downloads others = 0 := by
      have hweight := h.downloads
      rw [hnone] at hweight
      exact (Nat.add_eq_zero_iff.mp hweight).2
    refine ⟨?_, fun _ => rfl, ?_, congrArg (1 + ·) hzero, h.saves, forall_mem_cons.mpr
      ⟨⟨hloading, rfl, hlast⟩, h.session_others hzero rfl⟩,
      checksOk_check h.checks (by rw [hcopier]; rfl)⟩
    · change true = (true && !s.loadingSnapshot)
      rw [hloading]
      rfl
    · intro hsaves
      rw [show s.savingSnapshot = true from hsaves] at hsaving
      cases hsaving

theorem loadDownloadingSnapshot {p : ℕ} {snapshotMeta : SnapshotMeta}
    (h : Phase s (.copied p snapshotMeta :: others)) (result : CopyResult) :
    Phase (s.loadDownloadingSnapshot result p snapshotMeta).1
      ((s.loadDownloadingSnapshot result p snapshotMeta).2.toList ++ others) := by
  obtain ⟨hloading, hpointer, hlast⟩ := h.session _ mem_cons_self
  obtain ⟨hsome, hzero⟩ := h.downloads_others rfl
  obtain ⟨ds, hdownloading, hderef⟩ := deref_of_map hpointer
  have hcopier : s.curCopier = true := by
    rw [h.copier, hsome, hloading]
    rfl
  have hchecks := checksOk_check h.checks hcopier
  rcases loadDownloadingSnapshot_cases hderef result snapshotMeta with ⟨ds', -, heq⟩ | heq
  · rw [heq]
    refine ⟨rfl, ?_, fun _ => rfl, (zero_add _).trans hzero, h.saves,
      forall_mem_cons.mpr ⟨trivial, h.session_others hzero rfl⟩, hchecks⟩
    intro htrue
    rw [show s.loadingSnapshot = true from htrue] at hloading
    cases hloading
  · rw [heq]
    refine ⟨?_, fun _ => hsome, h.exclusive, ?_, h.saves,
      forall_mem_cons.mpr ⟨⟨rfl, hlast⟩, h.session_others hzero rfl⟩, hchecks⟩
    · change false = (s.downloadingSnapshot.isSome && !true)
      rw [hsome]
      rfl
    · change 1 + weight Thread.downloads others = s.downloadingSnapshot.isSome.toNat
      rw [hsome, hzero]
      rfl

theorem onSnapshotLoadDone {st : Status} (h : Phase s (.loadDone st :: others)) :
    Phase (s.onSnapshotLoadDone st).1 ((s.onSnapshotLoadDone st).2.toList ++ others) := by
  obtain ⟨hloading, -⟩ := h.session _ mem_cons_self
  obtain ⟨hsome, hzero⟩ := h.downloads_others rfl
  have hchecks := checksOk_check h.checks hloading
  unfold Shared.onSnapshotLoadDone
  split_ifs with hst
  · refine { h with session := forall_mem_cons.mpr ⟨⟨hloading, rfl⟩, fun t ht => ?_⟩
                    checks := hchecks }
    exact .of_zero (eq_zero_of_weight hzero ht)
      (h.saves_of_downloading hsome (mem_cons_of_mem _ ht))
  · exact h.next rfl hchecks rfl rfl ⟨hloading, rfl⟩

theorem finishLoad {m : Option ℕ} {st : Status} (h : Phase s (.loadFinish m st :: others)) :
    Phase (s.finishLoad m st).1 ((s.finishLoad m st).2.toList ++ others) := by
  obtain ⟨hloading, hpointer⟩ := h.session _ mem_cons_self
  obtain ⟨hsome, hzero⟩ := h.downloads_others rfl
  obtain ⟨⟨p, ds⟩, hdownloading⟩ := isSome_iff_exists.mp hsome
  obtain rfl : some p = m := by
    rw [hdownloading] at hpointer
    exact hpointer
  obtain ⟨ds', -, hderef⟩ := deref_of_map hpointer
  have hcopier : s.curCopier = false := by
    rw [h.copier, hsome, hloading]
    rfl
  unfold Shared.finishLoad
  dsimp only
  rw [hderef]
  exact ⟨hcopier, nofun, fun _ => rfl, (zero_add _).trans hzero, h.saves,
    forall_mem_cons.mpr ⟨trivial, h.session_others hzero rfl⟩, h.checks⟩

theorem interrupt (h : Phase s ts) (newTerm : ℤ) :
    Phase (s.interruptDownloadingSnapshot newTerm) ts := by
  unfold interruptDownloadingSnapshot
  have hsame : ∀ {s' : Shared}, s'.toExecutor = { s.toExecutor with term := newTerm } →
      s'.checksOk = true → Phase s' ts := by
    intro s' heq hchecks
    obtain ⟨e, _, _, _, _, _⟩ := s'
    subst heq
    exact h.goOn [] [] rfl hchecks rfl rfl (forall_mem_nil _)
  dsimp only
  split_ifs with hnone hloading
  · exact hsame rfl h.checks
  · exact hsame rfl h.checks
  refine hsame rfl (checksOk_check h.checks ?_)
  rw [h.copier, isSome_iff_ne_none.mpr hnone, eq_false_of_not_eq_true hloading]
  rfl

theorem runClosure (h : Phase s ts) (hflags : s'.flags = s.flags) (hchecks : s'.checksOk = true)
    (done : Option ℕ) (st : Status) : Phase s' ((done.map (.runClosure · st)).toList ++ ts) := by
  cases done with
  | none => exact h.goOn [] [] hflags hchecks rfl rfl (forall_mem_nil _)
  | some k => exact h.come hflags hchecks rfl rfl

/-- **What a step of a thread keeps.** -/
theorem run (h : Phase s (t :: others)) (c : Choice) :
    Phase (t.run c s).1 ((t.run c s).2.toList ++ others) := by
  have hsession := h.session t mem_cons_self
  cases t with
  | register rpc => exact h.register (registered s c.startsToCopy rpc)
  | respond ds | signal | runClosure done st => exact h.finish rfl h.checks rfl rfl
  | copy p snapshotMeta =>
    obtain ⟨hsome, -⟩ := h.downloads_others rfl
    have hcopier : s.curCopier = true := by
      rw [h.copier, hsome, hsession.1]
      rfl
    exact h.next rfl (checksOk_check h.checks hcopier) rfl rfl hsession
  | copied p snapshotMeta => exact h.loadDownloadingSnapshot c.copyResult
  | signalRespond ds | respondSignal ds | fsmSave done => exact h.next rfl h.checks rfl rfl trivial
  | load =>
    unfold run
    cases c.acceptsLoad with
    | false | true => exact h.next rfl h.checks rfl rfl hsession
  | fsmLoad => exact h.next rfl h.checks rfl rfl hsession
  | loadDone st => exact h.onSnapshotLoadDone
  | loadFinish m st => exact h.finishLoad
  | saveDone done st snapshotMeta =>
    refine h.next rfl h.checks rfl rfl fun hret => ?_
    -- a snapshot that is not newer than the last one is stale
    unfold saveRet at hret
    split_ifs at hret with hstale
    have hst : st = none := map_eq_none_iff.mp hret
    exact not_le.mp fun hle => hstale ⟨hst, hle⟩
  | saveClose done st ret snapshotMeta =>
    refine h.next rfl h.checks rfl rfl fun hret => ?_
    unfold closeRet at hret
    split_ifs at hret
    exact hsession hret
  | saveCommit done st ret snapshotMeta =>
    unfold run
    dsimp only
    split_ifs with hret
    · exact { h with session := forall_mem_cons.mpr ⟨trivial, h.session_saving rfl⟩ }
    · exact h.next rfl h.checks rfl rfl trivial
  | saveFinish done st ret =>
    obtain ⟨-, hzero⟩ := h.saves_others rfl
    exact ⟨h.copier, h.loading, nofun, h.downloads, ((zero_add _).trans hzero).le,
      forall_mem_cons.mpr ⟨trivial, h.session_saving rfl⟩, h.checks⟩
  | saveSignal done st ret =>
    have hothers : Phase { s with runningJobs := s.runningJobs - 1 } others :=
      h.finish rfl h.checks rfl rfl
    exact hothers.runClosure rfl h.checks done (saveStatus st ret)
  | interrupt newTerm =>
    have hothers : Phase s others := h.finish rfl h.checks rfl rfl
    exact hothers.interrupt newTerm

theorem last_le_run (h : Phase s (t :: others)) (c : Choice) :
    s.lastSnapshotIndex ≤ (t.run c s).1.lastSnapshotIndex := by
  have hsession := h.session t mem_cons_self
  cases t with
  | register rpc =>
    change _ ≤ (s.registerDownloadingSnapshot c.startsToCopy rpc).1.lastSnapshotIndex
    have hregistered := registered s c.startsToCopy rpc
    generalize s.registerDownloadingSnapshot c.startsToCopy rpc = result at hregistered
    cases hregistered <;> exact le_refl _
  | copied p snapshotMeta =>
    change _ ≤ (s.loadDownloadingSnapshot c.copyResult p snapshotMeta).1.lastSnapshotIndex
    obtain ⟨ds, -, hderef⟩ := deref_of_map hsession.2.1
    rcases loadDownloadingSnapshot_cases hderef c.copyResult snapshotMeta with ⟨_, -, heq⟩ | heq
    · rw [heq]
      exact le_refl _
    · rw [heq]
      exact le_refl _
  | loadDone st =>
    change _ ≤ (s.onSnapshotLoadDone st).1.lastSnapshotIndex
    unfold Shared.onSnapshotLoadDone
    split_ifs
    · exact hsession.2.le
    · exact le_refl _
  | loadFinish m st =>
    change _ ≤ (s.finishLoad m st).1.lastSnapshotIndex
    unfold Shared.finishLoad
    split
    · exact le_refl _
    · split <;> exact le_refl _
  | saveCommit done st ret snapshotMeta =>
    unfold Thread.run
    dsimp only
    split_ifs with hret
    · exact (hsession hret).le
    · exact le_refl _
  | interrupt newTerm => exact (last_interrupt s newTerm).ge
  | _ => exact le_refl _

end Phase

end Phase

/-! ## Calls, closures and jobs -/

/-- What a thread loses in a step, the executor gains. -/
structure Conserves (s : Shared) (t : Thread) (result : Shared × Option Thread) : Prop where
  nextRpc : result.1.nextRpc = s.nextRpc
  nextClosure : result.1.nextClosure = s.nextClosure
  rpcs : ∀ r, weight (holds r) result.2.toList + result.1.held r + result.1.answered r =
    t.holds r + s.held r + s.answered r
  closures : ∀ k, weight (closure k) result.2.toList + result.1.hasRun k = t.closure k + s.hasRun k
  saving : weight saves result.2.toList + s.savingSnapshot.toNat =
    t.saves + result.1.savingSnapshot.toNat
  jobs : result.1.runningJobs + t.jobs = s.runningJobs + weight jobs result.2.toList

section Conserves

variable {s : Shared} {t : Thread} {others : List Thread} {rpc : InstallRpc}

theorem Conserves.register {result : Shared × Option Thread} (h : Registered s rpc result) :
    Conserves s (.register rpc) result := by
  cases h with
  | refused ds hds => exact ⟨rfl, rfl, by simp [holds, hds], fun _ => rfl, rfl, rfl⟩
  | canceled ds hds hsome hloading =>
    exact ⟨rfl, rfl, fun r => by simp [holds, hds, held, answered, check], fun _ => rfl, rfl, rfl⟩
  | noCopier ds hds hnone =>
    exact ⟨rfl, rfl, fun r => by
      simp [holds, hds, held, answered, check, hnone], fun _ => rfl,
      rfl, rfl⟩
  | retried p m ds ds' hds hds' hsome =>
    refine ⟨rfl, rfl, fun r => ?_, fun _ => rfl, rfl, rfl⟩
    simp only [toList_some, weight_cons, weight_nil, holds, hds, hds', held, hsome, answered]
    omega
  | started ds hds hnone hsaving hlast =>
    exact ⟨rfl, rfl, fun r => by
      simp [holds, hds, held, answered, check, hnone], fun _ => rfl,
      rfl, by simp [Thread.jobs, Thread.downloads, Thread.saves]⟩

open Thread

theorem Thread.conserves (h : Phase s (t :: others)) (c : Choice) : Conserves s t (t.run c s) := by
  have hsession := h.session t mem_cons_self
  cases t with
  | register rpc => exact .register (registered s c.startsToCopy rpc)
  | copied p snapshotMeta =>
    obtain ⟨ds, hdownloading, hderef⟩ := deref_of_map hsession.2.1
    change Conserves s _ (s.loadDownloadingSnapshot c.copyResult p snapshotMeta)
    rcases loadDownloadingSnapshot_cases hderef c.copyResult snapshotMeta with
      ⟨ds', hds', heq⟩ | heq
    · rw [heq]
      exact ⟨rfl, rfl, fun r => by
        simp [holds, hds', held, hdownloading, answered, check],
        fun _ => rfl, rfl, rfl⟩
    · rw [heq]
      exact ⟨rfl, rfl, fun _ => rfl, fun _ => rfl, rfl, rfl⟩
  | loadFinish m st =>
    obtain ⟨hsome, -⟩ := h.downloads_others rfl
    obtain ⟨⟨p, ds⟩, hdownloading⟩ := isSome_iff_exists.mp hsome
    obtain rfl : some p = m := by
      have hpointer := hsession.2
      rw [hdownloading] at hpointer
      exact hpointer
    change Conserves s _ (s.finishLoad (some p) st)
    have hderef : s.deref p = some ds := by
      unfold deref
      rw [hdownloading]
      exact if_pos rfl
    have hrpc : (loadAnswer st ds).rpc = ds.rpc := by cases st <;> rfl
    unfold finishLoad
    dsimp only
    rw [hderef]
    exact ⟨rfl, rfl, fun r => by
      simp [holds, hrpc, held, hdownloading, answered], fun _ => rfl, rfl, rfl⟩
  | respond ds =>
    refine ⟨rfl, rfl, fun r => ?_, fun _ => rfl, rfl, rfl⟩
    simp only [run, toList_none, weight_nil, answered_append, holds, held]
    omega
  | respondSignal ds =>
    refine ⟨rfl, rfl, fun r => ?_, fun _ => rfl, rfl, rfl⟩
    simp only [run, toList_some, weight_cons, weight_nil, answered_append, holds, held]
    omega
  | load =>
    unfold run
    cases c.acceptsLoad <;> exact ⟨rfl, rfl, fun _ => rfl, fun _ => rfl, rfl, rfl⟩
  | loadDone st =>
    change Conserves s _ (s.onSnapshotLoadDone st)
    unfold onSnapshotLoadDone
    split_ifs <;> exact ⟨rfl, rfl, fun _ => rfl, fun _ => rfl, rfl, rfl⟩
  | signalRespond ds =>
    exact ⟨rfl, rfl, fun _ => rfl, fun _ => rfl, rfl, by simp [run, jobs, downloads, saves]⟩
  | signal => exact ⟨rfl, rfl, fun _ => rfl, fun _ => rfl, rfl, by simp [run, jobs]⟩
  | saveCommit done st ret snapshotMeta =>
    unfold run
    dsimp only
    split_ifs <;> exact ⟨rfl, rfl, fun _ => rfl, fun _ => rfl, rfl, rfl⟩
  | saveFinish done st ret =>
    obtain ⟨hsaving, -⟩ := h.saves_others rfl
    refine ⟨rfl, rfl, fun _ => rfl, fun _ => rfl, ?_, rfl⟩
    rw [hsaving]
    rfl
  | saveSignal done st ret =>
    cases done with
    | none => exact ⟨rfl, rfl, fun _ => rfl, fun _ => rfl, rfl, by simp [run, jobs]⟩
    | some k =>
      refine ⟨rfl, rfl, fun _ => rfl, fun k' => ?_, rfl, ?_⟩
      · simp [run, closure, hasRun]
      · simp [run, jobs, downloads, saves]
  | runClosure done st =>
    refine ⟨rfl, rfl, fun _ => rfl, fun k => ?_, rfl, rfl⟩
    simp only [run, toList_none, weight_nil, hasRun_append, closure]
    omega
  | interrupt newTerm =>
    change Conserves s _ (s.interruptDownloadingSnapshot newTerm, none)
    unfold interruptDownloadingSnapshot
    dsimp only
    split_ifs <;> exact ⟨rfl, rfl, fun _ => rfl, fun _ => rfl, rfl, rfl⟩
  | _ => exact ⟨rfl, rfl, fun _ => rfl, fun _ => rfl, rfl, rfl⟩

end Conserves

/-- What is conserved, over all threads: every call and every closure is there once. -/
structure Counts (s : Shared) (ts : List Thread) : Prop where
  rpcs : ∀ r, weight (holds r) ts + s.held r + s.answered r = if r < s.nextRpc then 1 else 0
  closures : ∀ k, weight (closure k) ts + s.hasRun k = if k < s.nextClosure then 1 else 0

/-- What is conserved as long as no save task is refused. -/
structure Flags (s : Shared) (ts : List Thread) : Prop where
  saving : weight saves ts = s.savingSnapshot.toNat
  jobs : s.runningJobs = weight jobs ts

section Counts

variable {s : Shared} {t : Thread} {ts ts' others : List Thread}

theorem Counts.perm (h : Counts s ts) (hperm : ts.Perm ts') : Counts s ts' :=
  ⟨fun r => weight_perm hperm ▸ h.rpcs r, fun k => weight_perm hperm ▸ h.closures k⟩

theorem Flags.perm (h : Flags s ts) (hperm : ts.Perm ts') : Flags s ts' :=
  ⟨weight_perm hperm ▸ h.saving, weight_perm (f := Thread.jobs) hperm ▸ h.jobs⟩

theorem Counts.run {result : Shared × Option Thread} (h : Counts s (t :: others))
    (hconserves : Conserves s t result) : Counts result.1 (result.2.toList ++ others) := by
  refine ⟨fun r => ?_, fun k => ?_⟩
  · have hrpcs := h.rpcs r
    have hstep := hconserves.rpcs r
    rw [weight_cons] at hrpcs
    rw [hconserves.nextRpc, weight_append, ← hrpcs]
    omega
  · have hclosures := h.closures k
    have hstep := hconserves.closures k
    rw [weight_cons] at hclosures
    rw [hconserves.nextClosure, weight_append, ← hclosures]
    omega

theorem saves_le_jobs (t : Thread) : t.saves ≤ t.jobs := by cases t <;> exact of_decide_eq_true rfl

theorem Flags.of_jobs (h : Flags s ts) (hjobs : ∀ t ∈ ts, t.jobs = 0) :
    s.savingSnapshot = false ∧ s.runningJobs = 0 := by
  have hweight : weight Thread.jobs ts = 0 := weight_eq_zero hjobs
  have hweight' : weight saves ts = 0 :=
    weight_eq_zero fun t ht => Nat.le_zero.mp ((saves_le_jobs t).trans (hjobs t ht).le)
  refine ⟨?_, ?_⟩
  · have hsaving := h.saving
    rw [hweight'] at hsaving
    exact Bool.toNat_eq_zero.mp hsaving.symm
  · rw [h.jobs, hweight]
    rfl

theorem Flags.run {result : Shared × Option Thread} (h : Flags s (t :: others))
    (hconserves : Conserves s t result) : Flags result.1 (result.2.toList ++ others) := by
  obtain ⟨hsaving, hjobs⟩ := h
  have hstep := hconserves.saving
  have hstep' := hconserves.jobs
  rw [weight_cons] at hsaving hjobs
  refine ⟨?_, ?_⟩
  · rw [weight_append]
    omega
  · rw [weight_append]
    omega

theorem doSnapshot_cases (s : Shared) (minIndexGap : ℤ) (hasClosure : Bool) (c : SaveChoice) :
    (∃ st, s.doSnapshot minIndexGap hasClosure c =
      (s.countClosure hasClosure, (s.newClosure hasClosure).map (.runClosure · st))) ∨
    s.downloadingSnapshot = none ∧ s.savingSnapshot = false ∧
      (s.doSnapshot minIndexGap hasClosure c = ({ s.countClosure hasClosure with
              savingSnapshot := true
              runningJobs := s.runningJobs + 1 },
            some (.fsmSave (s.newClosure hasClosure))) ∨
        c.acceptsSave = false ∧ ∃ st, s.doSnapshot minIndexGap hasClosure c =
          ({ s.countClosure hasClosure with savingSnapshot := true },
            (s.newClosure hasClosure).map fun _ =>
              .saveDone (s.newClosure hasClosure) st ⟨0, 0⟩)) := by
  unfold doSnapshot
  dsimp only
  split_ifs with hstopped hdownloading hsaving hgap hwriter haccepts
  · exact .inl ⟨_, rfl⟩
  · exact .inl ⟨_, rfl⟩
  · exact .inl ⟨_, rfl⟩
  · exact .inl ⟨_, rfl⟩
  · exact .inl ⟨_, rfl⟩
  · exact .inr ⟨not_isSome_iff_eq_none.mp hdownloading,
      eq_false_of_not_eq_true hsaving, .inl rfl⟩
  · exact .inr ⟨not_isSome_iff_eq_none.mp hdownloading,
      eq_false_of_not_eq_true hsaving, .inr ⟨eq_false_of_not_eq_true haccepts, _, rfl⟩⟩

theorem Phase.save {s' : Shared} (h : Phase s ts) (hnone : s.downloadingSnapshot = none)
    (hsaving : s.savingSnapshot = false) (hsaves : weight Thread.saves ts' ≤ 1)
    (hdownloads : weight Thread.downloads ts' = 0) (hsession : ∀ t ∈ ts', t.Session s')
    (hflags : s'.flags = { s with savingSnapshot := true }.flags) (hchecks : s'.checksOk = true) :
    Phase s' (ts' ++ ts) := by
  have hothers : ∀ t ∈ ts' ++ ts, t.Session s' := by
    refine forall_mem_append.mpr ⟨hsession, fun t ht => ?_⟩
    have hsession' : t.Session { s with savingSnapshot := true } :=
      (h.session t ht).of_downloads (h.downloads_of_none hnone ht) rfl
    exact hsession'.congr hflags
  simp only [flags, Prod.mk.injEq, hnone, map_none, map_eq_none_iff] at hflags
  obtain ⟨-, hloading, hnone', -, hcopier, hsaving'⟩ := hflags
  have hweight := h.downloads
  have hweight' := h.saves
  rw [hnone] at hweight
  rw [hsaving] at hweight'
  refine ⟨?_, ?_, fun _ => hnone', ?_, ?_, hothers, hchecks⟩
  · rw [hcopier, hnone', h.copier, hnone]
    rfl
  · intro hloading'
    have := h.loading (hloading ▸ hloading')
    rw [hnone] at this
    cases this
  · rw [weight_append, hdownloads, hweight, hnone']
    rfl
  · rw [weight_append, hsaving']
    exact add_le_add hsaves hweight'

theorem Phase.doSnapshot (h : Phase s ts) (minIndexGap : ℤ) (hasClosure : Bool) (c : SaveChoice) :
    Phase (s.doSnapshot minIndexGap hasClosure c).1
      ((s.doSnapshot minIndexGap hasClosure c).2.toList ++ ts) := by
  rcases doSnapshot_cases s minIndexGap hasClosure c with
    ⟨st, heq⟩ | ⟨hnone, hsaving, heq | ⟨-, st, heq⟩⟩
  · rw [heq]
    have hflags : (s.countClosure hasClosure).flags = s.flags := rfl
    exact h.runClosure hflags h.checks _ st
  · rw [heq]
    exact h.save hnone hsaving (le_refl 1) rfl (forall_mem_singleton.mpr trivial) rfl h.checks
  · rw [heq]
    cases s.newClosure hasClosure with
    | none => exact h.save hnone hsaving (Nat.zero_le 1) rfl (forall_mem_nil _) rfl h.checks
    | some k =>
      exact h.save hnone hsaving (le_refl 1) rfl (forall_mem_singleton.mpr trivial) rfl h.checks

theorem Counts.newClosure {s' : Shared} {hasClosure : Bool} (h : Counts s ts)
    (hsame : s'.answers = s.answers ∧ s'.ran = s.ran ∧ s'.nextRpc = s.nextRpc ∧
      s'.downloadingSnapshot = s.downloadingSnapshot)
    (hnext : s'.nextClosure = s.nextClosure + hasClosure.toNat)
    (hrpcs : ∀ r, weight (holds r) ts' = 0)
    (hclosures : ∀ k, weight (closure k) ts' =
      if s.newClosure hasClosure = some k then 1 else 0) : Counts s' (ts' ++ ts) := by
  obtain ⟨hanswers, hran, hnextRpc, hdownloading⟩ := hsame
  refine ⟨fun r => ?_, fun k => ?_⟩
  · rw [weight_append, hrpcs r, hnextRpc, ← h.rpcs r]
    unfold held answered
    rw [hanswers, hdownloading]
    omega
  · have hk := h.closures k
    have hsame : s'.hasRun k = s.hasRun k := by
      unfold hasRun
      rw [hran]
    rw [weight_append, hclosures k, hnext, hsame]
    unfold Shared.newClosure
    cases hasClosure with
    | false => simpa using hk
    | true =>
      simp only [if_true, Option.some.injEq, toNat_true]
      split_ifs at hk ⊢ <;> omega

theorem weight_map_closure {done : Option ℕ} {f : ℕ → Thread}
    (hf : ∀ k k', done = some k → (f k).closure k' = if k = k' then 1 else 0) (k' : ℕ) :
    weight (closure k') (done.map f).toList = if done = some k' then 1 else 0 := by
  cases done with
  | none => rfl
  | some k =>
    rw [map_some, toList_some, weight_cons, hf k k' rfl]
    simp

theorem Counts.doSnapshot (h : Counts s ts) (minIndexGap : ℤ) (hasClosure : Bool) (c : SaveChoice) :
    Counts (s.doSnapshot minIndexGap hasClosure c).1
      ((s.doSnapshot minIndexGap hasClosure c).2.toList ++ ts) := by
  rcases doSnapshot_cases s minIndexGap hasClosure c with
    ⟨st, heq⟩ | ⟨-, -, heq | ⟨-, st, heq⟩⟩
  · rw [heq]
    refine h.newClosure ⟨rfl, rfl, rfl, rfl⟩ rfl (fun r => ?_) (weight_map_closure ?_)
    · cases s.newClosure hasClosure <;> rfl
    · exact fun _ _ _ => rfl
  · rw [heq]
    refine h.newClosure ⟨rfl, rfl, rfl, rfl⟩ rfl (fun r => rfl) fun k => ?_
    simp [Thread.closure]
  · rw [heq]
    refine h.newClosure ⟨rfl, rfl, rfl, rfl⟩ rfl (fun r => ?_) (weight_map_closure ?_)
    · cases s.newClosure hasClosure <;> rfl
    · intro k k' hk
      simp [Thread.closure, hk]

theorem Flags.doSnapshot {c : SaveChoice} (h : Flags s ts) (hsafe : c.acceptsSave = true)
    (minIndexGap : ℤ) (hasClosure : Bool) :
    Flags (s.doSnapshot minIndexGap hasClosure c).1
      ((s.doSnapshot minIndexGap hasClosure c).2.toList ++ ts) := by
  rcases doSnapshot_cases s minIndexGap hasClosure c with
    ⟨st, heq⟩ | ⟨-, hsaving, heq | ⟨hrefused, -⟩⟩
  · rw [heq]
    refine ⟨?_, ?_⟩
    · rw [weight_append]
      cases s.newClosure hasClosure <;> exact (zero_add _).trans h.saving
    · rw [weight_append]
      cases s.newClosure hasClosure <;> exact h.jobs.trans (congrArg Nat.cast (Nat.zero_add _).symm)
  · rw [heq]
    have hzero := h.saving
    rw [hsaving] at hzero
    refine ⟨congrArg (1 + ·) hzero, ?_⟩
    change s.runningJobs + 1 = ((1 + weight Thread.jobs ts : ℕ) : ℤ)
    rw [h.jobs]
    omega
  · rw [hsafe] at hrefused
    cases hrefused

end Counts

/-! ## Runs -/

/-- What holds in every run. -/
structure Inv (w : World) : Prop where
  phase : Phase w.shared w.threads
  counts : Counts w.shared w.threads

/-- No save task is refused. -/
def Event.Safe : Event → Prop
  | .doSnapshot _ c => c.acceptsSave = true
  | _ => True

instance : DecidablePred Event.Safe
  | .doSnapshot _ c => inferInstanceAs (Decidable (c.acceptsSave = true))
  | .installSnapshot .. | .interruptDownloadingSnapshot _ | .shutdown | .advance .. =>
    inferInstanceAs (Decidable True)

section Runs

variable {minIndexGap : ℤ} {w w' : World} {e : Event}

theorem inv_start (lastIndex lastTerm term : ℤ) : Inv (start lastIndex lastTerm term) := by
  refine ⟨⟨rfl, nofun, nofun, rfl, le_refl 0, forall_mem_nil _, rfl⟩, ⟨fun r => ?_, fun k => ?_⟩⟩
  · exact (if_neg (Nat.not_lt_zero r)).symm
  · exact (if_neg (Nat.not_lt_zero k)).symm

theorem Inv.installSnapshot (h : Inv w) (term : ℤ) (snapshotMeta : SnapshotMeta) (uri : String)
    (throttled : Bool) : Inv (installSnapshot term snapshotMeta uri throttled w) := by
  have hcounts : ∀ t : Thread, (∀ r, t.holds r = if w.shared.nextRpc = r then 1 else 0) →
      (∀ k, t.closure k = 0) →
      Counts { w.shared with nextRpc := w.shared.nextRpc + 1 } (t :: w.threads) := by
    intro t hholds hclosure
    refine ⟨fun r => ?_, fun k => ?_⟩
    · have hr := h.counts.rpcs r
      rw [weight_cons, hholds r]
      change _ + w.shared.held r + w.shared.answered r = if r < w.shared.nextRpc + 1 then 1 else 0
      split_ifs at hr ⊢ <;> omega
    · rw [weight_cons, hclosure k, zero_add]
      exact h.counts.closures k
  cases throttled with
  | false | true =>
    exact ⟨h.phase.come rfl h.phase.checks rfl rfl, hcounts _ (fun _ => rfl) fun _ => rfl⟩

theorem Counts.interrupt {s : Shared} {ts : List Thread} (h : Counts s ts) (newTerm : ℤ) :
    Counts (s.interruptDownloadingSnapshot newTerm) ts := by
  unfold interruptDownloadingSnapshot
  dsimp only
  split_ifs <;> exact ⟨h.rpcs, h.closures⟩

theorem Flags.interrupt {s : Shared} {ts : List Thread} (h : Flags s ts) (newTerm : ℤ) :
    Flags (s.interruptDownloadingSnapshot newTerm) ts := by
  unfold interruptDownloadingSnapshot
  dsimp only
  split_ifs <;> exact ⟨h.saving, h.jobs⟩

theorem Inv.step (h : Inv w) (hstep : step minIndexGap w e = some w') :
    Inv w' ∧ w.shared.lastSnapshotIndex ≤ w'.shared.lastSnapshotIndex := by
  cases e with
  | installSnapshot term snapshotMeta uri throttled =>
    cases hstep
    exact ⟨h.installSnapshot term snapshotMeta uri throttled, le_refl _⟩
  | doSnapshot hasClosure c =>
    cases hstep
    refine ⟨⟨h.phase.doSnapshot minIndexGap hasClosure c,
      h.counts.doSnapshot minIndexGap hasClosure c⟩, ?_⟩
    rcases doSnapshot_cases w.shared minIndexGap hasClosure c with
      ⟨st, heq⟩ | ⟨-, -, heq | ⟨-, st, heq⟩⟩ <;>
    · rw [heq]
      exact le_refl _
  | interruptDownloadingSnapshot newTerm =>
    cases hstep
    exact ⟨⟨h.phase.interrupt newTerm, h.counts.interrupt newTerm⟩,
      (last_interrupt w.shared newTerm).ge⟩
  | shutdown =>
    cases hstep
    refine ⟨⟨h.phase.come rfl h.phase.checks rfl rfl, ?_⟩, le_refl _⟩
    exact ⟨fun r => (congrArg (· + _ + _) (zero_add _)).trans (h.counts.rpcs r),
      fun k => (congrArg (· + _) (zero_add _)).trans (h.counts.closures k)⟩
  | advance i c =>
    have hadvance : w.advance run i c = some w' := hstep
    obtain ⟨t, others, hperm, hshared, hthreads⟩ := Pool.advance_spec hadvance
    have hphase := h.phase.perm hperm
    have hcounts := (h.counts.perm hperm).run (conserves hphase c)
    refine ⟨⟨?_, ?_⟩, ?_⟩
    · rw [hshared, hthreads]
      exact hphase.run c
    · rw [hshared, hthreads]
      exact hcounts
    · rw [hshared]
      exact hphase.last_le_run c

theorem Flags.step (hinv : Inv w) (h : Flags w.shared w.threads) (hsafe : e.Safe)
    (hstep : step minIndexGap w e = some w') : Flags w'.shared w'.threads := by
  cases e with
  | installSnapshot term snapshotMeta uri throttled =>
    cases hstep
    cases throttled <;>
    exact ⟨(Nat.zero_add _).trans h.saving, h.jobs.trans (congrArg Nat.cast (Nat.zero_add _).symm)⟩
  | doSnapshot hasClosure c =>
    cases hstep
    exact h.doSnapshot hsafe minIndexGap hasClosure
  | interruptDownloadingSnapshot newTerm =>
    cases hstep
    exact h.interrupt newTerm
  | shutdown =>
    cases hstep
    exact ⟨(Nat.zero_add _).trans h.saving, h.jobs.trans (congrArg Nat.cast (Nat.zero_add _).symm)⟩
  | advance i c =>
    have hadvance : w.advance Thread.run i c = some w' := hstep
    obtain ⟨t, others, hperm, hshared, hthreads⟩ := Pool.advance_spec hadvance
    rw [hshared, hthreads]
    exact (h.perm hperm).run (conserves (hinv.phase.perm hperm) c)

theorem inv_of_reachable (h : (sessions minIndexGap).Reachable w) : Inv w := by
  refine h.invariant ?_ fun _ _ _ hstep hinv => (hinv.step hstep).1
  rintro w₀ ⟨lastIndex, lastTerm, term, rfl⟩
  exact inv_start lastIndex lastTerm term

theorem flags_of_reachable (h : ((sessions minIndexGap).restrict fun _ e => e.Safe).Reachable w) :
    Flags w.shared w.threads := by
  refine (h.invariant (P := fun w => Inv w ∧ Flags w.shared w.threads) ?_ ?_).2
  · rintro w₀ ⟨lastIndex, lastTerm, term, rfl⟩
    exact ⟨inv_start lastIndex lastTerm term, rfl, rfl⟩
  · rintro w₁ e w₂ ⟨hsafe, hstep⟩ ⟨hinv, hflags⟩
    exact ⟨(hinv.step hstep).1, hflags.step hinv hsafe hstep⟩

theorem rank_run (c : Choice) (s : Shared) (t : Thread) :
    ∀ next ∈ (t.run c s).2, next.rank < t.rank := by
  intro next hnext
  cases t with
  | register rpc =>
    have hregistered := registered s c.startsToCopy rpc
    change next ∈ (s.registerDownloadingSnapshot c.startsToCopy rpc).2 at hnext
    generalize s.registerDownloadingSnapshot c.startsToCopy rpc = result at hregistered hnext
    cases hregistered <;> cases hnext <;> exact of_decide_eq_true rfl
  | copied p snapshotMeta =>
    change next ∈ (s.loadDownloadingSnapshot c.copyResult p snapshotMeta).2 at hnext
    rcases hderef : s.deref p with _ | ds
    · unfold loadDownloadingSnapshot at hnext
      rw [hderef] at hnext
      cases hnext
    · rcases loadDownloadingSnapshot_cases hderef c.copyResult snapshotMeta with
        ⟨_, -, heq⟩ | heq <;>
      · rw [heq] at hnext
        cases hnext
        exact of_decide_eq_true rfl
  | load =>
    cases hnext
    cases c.acceptsLoad <;> exact of_decide_eq_true rfl
  | loadDone st =>
    change next ∈ (s.onSnapshotLoadDone st).2 at hnext
    unfold onSnapshotLoadDone at hnext
    split_ifs at hnext <;>
    · cases hnext
      exact of_decide_eq_true rfl
  | loadFinish m st =>
    change next ∈ (s.finishLoad m st).2 at hnext
    unfold finishLoad at hnext
    rcases m with _ | p
    · cases hnext
      exact of_decide_eq_true rfl
    · dsimp only at hnext
      split at hnext
      · cases hnext
      · cases hnext
        exact of_decide_eq_true rfl
  | saveSignal done st ret =>
    obtain ⟨k, -, rfl⟩ := map_eq_some_iff.mp hnext
    exact of_decide_eq_true rfl
  | _ => cases hnext <;> exact of_decide_eq_true rfl

theorem exists_idle (c : Choice) (w : World) :
    ∃ w', ((sessions minIndexGap).restrict fun _ e => e.Safe).Run w w' ∧ w'.threads = [] := by
  obtain ⟨w', hrun, hidle⟩ := Pool.exists_drained rank_run c w
  refine ⟨w', ?_, hidle⟩
  exact Relation.ReflTransGen.mono (fun _ _ hstep => ⟨.advance 0 c, trivial, hstep⟩) _ _ hrun

/-- **Snapshot sessions.** If the `FSMCaller` refuses no save task: each call and each closure is
answered or run at most once, and exactly once when no thread is left, which can be reached without
further calls; no thread saves while another one downloads; the last index never decreases; all
`CHECK`s have held; and if no thread is in a job, nothing is marked as saved and no job is
counted. -/
theorem sessions_sound (hreach : ((sessions minIndexGap).restrict fun _ e => e.Safe).Reachable w) :
    (∀ r < w.shared.nextRpc, w.shared.answered r ≤ 1 ∧ (w.threads = [] → w.shared.answered r = 1)) ∧
    (∀ k < w.shared.nextClosure, w.shared.hasRun k ≤ 1 ∧ (w.threads = [] → w.shared.hasRun k = 1)) ∧
    (∃ w', ((sessions minIndexGap).restrict fun _ e => e.Safe).Run w w' ∧ w'.threads = []) ∧
    (w.shared.savingSnapshot = true → w.shared.downloadingSnapshot = none) ∧
    (∀ t ∈ w.threads, ∀ t' ∈ w.threads, ¬ (t.saves = 1 ∧ t'.downloads = 1)) ∧
    (∀ w', ((sessions minIndexGap).restrict fun _ e => e.Safe).Run w w' →
      w.shared.lastSnapshotIndex ≤ w'.shared.lastSnapshotIndex) ∧
    w.shared.checksOk = true ∧
    ((∀ t ∈ w.threads, t.jobs = 0) →
      w.shared.savingSnapshot = false ∧ w.shared.runningJobs = 0) := by
  have hinv := inv_of_reachable hreach.of_restrict
  have hflags := flags_of_reachable hreach
  refine ⟨fun r hr => ?_, fun k hk => ?_,
    exists_idle ⟨true, .copied, true, none, ⟨0, 0⟩, true, true⟩ w, hinv.phase.exclusive, ?_, ?_,
    hinv.phase.checks, fun hjobs => ?_⟩
  · have hcount := hinv.counts.rpcs r
    rw [if_pos hr] at hcount
    refine ⟨by omega, fun hidle => ?_⟩
    have hheld := hinv.phase.held_of_idle hidle r
    rw [hidle, hheld] at hcount
    simpa using hcount
  · have hcount := hinv.counts.closures k
    rw [if_pos hk] at hcount
    refine ⟨by omega, fun hidle => ?_⟩
    rw [hidle] at hcount
    simpa using hcount
  · rintro t ht t' ht' ⟨hsaves, hdownloads⟩
    have hsome := hinv.phase.isSome_of_downloads ht' hdownloads
    have hzero := hinv.phase.saves_of_downloading hsome ht
    omega
  · intro w' hrun
    refine (hrun.of_restrict.preorder (P := Inv) (R := fun w w' => w.shared.lastSnapshotIndex ≤
      w'.shared.lastSnapshotIndex) (fun _ => le_refl _) (fun _ _ _ => le_trans)
      (fun _ _ _ hstep hinv => hinv.step hstep) hinv).2
  · exact hflags.of_jobs hjobs

end Runs

namespace Sample

/-- Everything succeeds. -/
def choice : Choice := ⟨true, .copied, true, none, ⟨7, 1⟩, true, true⟩

/-- The log is long enough for a snapshot. -/
def saveChoice (acceptsSave : Bool) : SaveChoice := ⟨7, true, acceptsSave⟩

/-- A snapshot is installed, while a local one is asked for. -/
def install : List Event :=
  [.installSnapshot 1 ⟨5, 1⟩ "uri" false, .advance 0 choice, .doSnapshot true (saveChoice true),
    .advance 0 choice] ++ List.replicate 8 (.advance 0 choice)

/-- A local snapshot, for which the task is refused. -/
def refused (hasClosure : Bool) : List Event :=
  .doSnapshot hasClosure (saveChoice false) ::
    List.replicate (if hasClosure then 6 else 0) (.advance 0 choice)

end Sample

/-- The call is answered with success, and the closure is run, as the executor is busy. -/
theorem sessions_sound_install :
    ∃ w, ((sessions 1).restrict fun _ e => e.Safe).Reachable w ∧ w.threads = [] ∧
      w.shared.answers = [(0, ⟨none, some true, some 1⟩)] ∧ w.shared.lastSnapshotIndex = 5 ∧
      w.shared.answered 0 = 1 ∧ w.shared.hasRun 0 = 1 ∧ w.shared.runningJobs = 0 := by
  have hrun : ((ofStep (start 3 1 1) (step 1)).restrict fun _ e => e.Safe).Run
      (start 3 1 1) _ := run_restrict_of_foldlM (show Sample.install.foldlM _ _ = _ from rfl)
  have hreach : ((sessions 1).restrict fun _ e => e.Safe).Reachable _ :=
    ⟨start 3 1 1, ⟨3, 1, 1, rfl⟩, hrun⟩
  obtain ⟨hanswers, hruns, -, -, -, -, -, hidle⟩ := sessions_sound hreach
  exact ⟨_, hreach, rfl, rfl, rfl, (hanswers 0 (by decide)).2 rfl, (hruns 0 (by decide)).2 rfl,
    (hidle (forall_mem_nil _)).2⟩

/-- A save task that is refused leaves `_saving_snapshot` set if there is no closure, and takes a
job off the count if there is one. -/
theorem refused_save_leaks :
    (∃ w, (sessions 1).Reachable w ∧ w.threads = [] ∧ w.shared.savingSnapshot = true) ∧
      ∃ w, (sessions 1).Reachable w ∧ w.threads = [] ∧ w.shared.runningJobs = -1 := by
  have hstart : (sessions 1).Reachable (start 3 1 1) := .start ⟨3, 1, 1, rfl⟩
  have hleft : (ofStep (start 3 1 1) (step 1)).Run (start 3 1 1) _ :=
    run_of_foldlM (show (Sample.refused false).foldlM _ _ = _ from rfl)
  have htaken : (ofStep (start 3 1 1) (step 1)).Run (start 3 1 1) _ :=
    run_of_foldlM (show (Sample.refused true).foldlM _ _ = _ from rfl)
  exact ⟨⟨_, hstart.run hleft, rfl, rfl⟩, ⟨_, hstart.run htaken, rfl, rfl⟩⟩

end Braft.Snapshots
