import Nori.Braft.Replicator.Pipeline

/-!
# Requests in flight

The requests in flight cover the indexes before the next one without a gap, and what is passed to
`commit_at` is in the log of the peer. This is so in every run in which the peer does not cease to
be read-only while the timer of a blocked replicator is pending: that would let entries be sent
before the timer fires, which then finds them in flight.
-/

namespace Braft.Pipeline

open Transition Replicator List Option Int

/-! ## Series of requests -/

/-- Requests that follow one another, from an index up to another. -/
def Contiguous : ℤ → List FlyingAppendEntriesRpc → ℤ → Prop
  | a, [], b => a = b
  | a, rpc :: rpcs, b => rpc.logIndex = a ∧ Contiguous (a + rpc.entriesSize) rpcs b

def sizeOf (rpcs : List FlyingAppendEntriesRpc) :
    ℤ := (rpcs.map fun rpc => (rpc.entriesSize : ℤ)).sum

section Contiguous

variable {a b : ℤ} {rpcs rpcs' : List FlyingAppendEntriesRpc}

@[simp] theorem sizeOf_nil : sizeOf [] = 0 := rfl

theorem sizeOf_append (rpcs rpcs' : List FlyingAppendEntriesRpc) :
    sizeOf (rpcs ++ rpcs') = sizeOf rpcs + sizeOf rpcs' := by
  unfold sizeOf
  rw [map_append, sum_append]

theorem sizeOf_nonneg (rpcs : List FlyingAppendEntriesRpc) : 0 ≤ sizeOf rpcs := by
  induction rpcs with
  | nil => exact le_refl _
  | cons rpc rpcs ih =>
    have hcons : sizeOf (rpc :: rpcs) = rpc.entriesSize + sizeOf rpcs := sum_cons
    omega

theorem contiguous_append : Contiguous a (rpcs ++ rpcs') b ↔
    Contiguous a rpcs (a + sizeOf rpcs) ∧ Contiguous (a + sizeOf rpcs) rpcs' b := by
  induction rpcs generalizing a with
  | nil => simp [Contiguous]
  | cons rpc rpcs ih =>
    have hcons : a + sizeOf (rpc :: rpcs) = a + rpc.entriesSize + sizeOf rpcs := by
      rw [add_assoc]
      exact congrArg (a + ·) sum_cons
    rw [cons_append, Contiguous, Contiguous, hcons, ih, and_assoc]

theorem contiguous_concat {rpc : FlyingAppendEntriesRpc} (h : Contiguous a rpcs b)
    (hsize : a + sizeOf rpcs = b) (hindex : rpc.logIndex = b) :
    Contiguous a (rpcs ++ [rpc]) (b + rpc.entriesSize) := by
  subst hsize
  exact contiguous_append.mpr ⟨h, hindex, rfl⟩

end Contiguous

/-! ## The peer -/

/-- A request says what the leader's log has. -/
structure Request.Ok (opts : Options) (rpc : Request) : Prop where
  nonneg : 0 ≤ rpc.prevLogIndex
  prev : rpc.prevLogIndex = 0 ∨ rpc.prevLogTerm = (opts.entry rpc.prevLogIndex).term
  entries : ∀ k : ℕ, k < rpc.entries.length →
    rpc.entries[k]? = some (opts.entry (rpc.prevLogIndex + 1 + k))

section Peer

variable {opts : Options} {rpc : Request} {p p' : Peer} {i : ℤ}

theorem Request.Ok.termOf (h : rpc.Ok opts) (hprev : rpc.prevLogIndex < i)
    (hlast : i ≤ rpc.lastLogIndex) : Peer.termOf rpc i = some (opts.entry i).term := by
  obtain ⟨k, hk⟩ : ∃ k : ℕ, i = rpc.prevLogIndex + 1 + k :=
    ⟨(i - rpc.prevLogIndex - 1).toNat, by omega⟩
  subst hk
  unfold Request.lastLogIndex at hlast
  have hindex : (rpc.prevLogIndex + 1 + k - rpc.prevLogIndex - 1).toNat = k := by omega
  unfold Peer.termOf
  rw [if_neg (by omega), hindex, h.entries k (by omega)]
  rfl

theorem holds_prev (hok : rpc.Ok opts) (hmatching : p.Matching opts)
    (haccept : p.getTerm opts rpc.prevLogIndex = rpc.prevLogTerm) (hi : 0 < i)
    (hprev : i ≤ rpc.prevLogIndex) : p.Holds opts i := by
  have hterm := opts.term_pos rpc.prevLogIndex (by omega)
  rw [hok.prev.resolve_left (by omega)] at haccept
  unfold Peer.getTerm at haccept
  rw [if_neg (by omega)] at haccept
  by_cases hsnapshot : i ≤ p.lastSnapshot
  · exact .inl hsnapshot
  rw [if_neg (by omega)] at haccept
  split_ifs at haccept with hrange
  · omega
  · exact .inr ⟨by omega,
      hmatching _ (by omega) (by omega) haccept i hprev (not_le.mp hsnapshot)⟩

theorem has_iff (hok : rpc.Ok opts) : p.Has rpc ↔
    ∀ i, rpc.prevLogIndex < i → i ≤ rpc.lastLogIndex → p.Holds opts i := by
  constructor
  · intro h i hprev hlast
    obtain ⟨k, rfl⟩ : ∃ k : ℕ, i = rpc.prevLogIndex + 1 + k :=
      ⟨(i - rpc.prevLogIndex - 1).toNat, by omega⟩
    have hk : k < rpc.entries.length := by
      unfold Request.lastLogIndex at hlast
      omega
    refine (h k hk).imp_right fun ⟨hle, hterm⟩ => ⟨hle, ?_⟩
    rw [hok.termOf hprev hlast] at hterm
    exact (Option.some.inj hterm).symm
  · intro h k hk
    have hlast : rpc.prevLogIndex + 1 + k ≤ rpc.lastLogIndex := by
      unfold Request.lastLogIndex
      omega
    refine (h _ (by omega) hlast).imp_right fun ⟨hle, hterm⟩ => ⟨hle, ?_⟩
    rw [hok.termOf (by omega) hlast, hterm]

/-- **A request that is accepted.** The peer has all entries up to the last one of the request,
keeps what it has of the leader's, and its log still matches. -/
theorem Peer.receive_spec (hok : rpc.Ok opts) (hmatching : p.Matching opts)
    (h : p.receive opts rpc = some p') :
    p'.Matching opts ∧ (∀ i, 0 < i → p.Holds opts i → p'.Holds opts i) ∧
      ∀ i, 0 < i → i ≤ rpc.lastLogIndex → p'.Holds opts i := by
  obtain ⟨haccept, h⟩ := ite_none_left_eq_some.mp h
  have hprev : ∀ i, 0 < i → i ≤ rpc.prevLogIndex → p.Holds opts i := fun i =>
    holds_prev hok hmatching (not_not.mp haccept)
  by_cases hhas : p.Has rpc
  · rw [if_pos hhas] at h
    cases h
    refine ⟨hmatching, fun _ _ hi => hi, fun i hi hlast => ?_⟩
    by_cases hle : i ≤ rpc.prevLogIndex
    · exact hprev i hi hle
    · exact (has_iff hok).mp hhas i (not_le.mp hle) hlast
  · rw [if_neg hhas] at h
    cases h
    have hlast : ∀ i, p.lastSnapshot < i → i ≤ rpc.lastLogIndex →
        (Peer.termOf rpc i).getD (p.term i) = (opts.entry i).term := by
      intro i hsnapshot hi
      have := p.snapshot_nonneg
      by_cases hle : i ≤ rpc.prevLogIndex
      · rw [Peer.termOf, if_pos hle]
        exact ((hprev i (by omega) hle).resolve_left (by omega)).2
      · rw [hok.termOf (not_le.mp hle) hi]
        rfl
    have hall : ∀ i, i ≤ rpc.lastLogIndex → Peer.Holds opts i { p with
          lastLogIndex := rpc.lastLogIndex
          term i := (Peer.termOf rpc i).getD (p.term i) } := by
      intro i hi
      by_cases hsnapshot : i ≤ p.lastSnapshot
      · exact .inl hsnapshot
      · exact .inr ⟨hi, hlast i (not_le.mp hsnapshot) hi⟩
    refine ⟨fun i hsnapshot hi _ j hj hj' => hlast j hj' (hj.trans hi), fun i _ hi => ?_,
      fun i _ hi => hall i hi⟩
    by_cases hle : i ≤ rpc.lastLogIndex
    · exact hall i hle
    by_cases hsnapshot : i ≤ p.lastSnapshot
    · exact .inl hsnapshot
    -- an entry behind the request matches, and so would all entries of the request
    obtain ⟨hi', hterm⟩ := hi.resolve_left hsnapshot
    refine absurd ((has_iff hok).mpr fun j _ hj => ?_) hhas
    by_cases hj' : j ≤ p.lastSnapshot
    · exact .inl hj'
    · exact .inr ⟨by omega, hmatching i (by omega) hi' hterm j (by omega) (by omega)⟩

theorem Peer.receiveSnapshot_spec (hmatching : p.Matching opts) (m : ℤ) :
    (p.receiveSnapshot opts m).Matching opts ∧
      ∀ i, p.Holds opts i → (p.receiveSnapshot opts m).Holds opts i := by
  unfold Peer.receiveSnapshot
  by_cases hm : m ≤ p.lastSnapshot
  · rw [dif_pos hm]
    exact ⟨hmatching, fun _ hi => hi⟩
  rw [dif_neg hm]
  by_cases hkept : m ≤ p.lastLogIndex ∧ p.term m = (opts.entry m).term
  · simp only [if_pos hkept]
    refine ⟨fun i hi hlast hterm j hj hmj => ?_, fun i hi => ?_⟩
    · change m < j at hmj
      exact hmatching i (by omega) hlast hterm j hj (by omega)
    · exact hi.imp_left fun hle => show i ≤ m by omega
  · simp only [if_neg hkept]
    refine ⟨fun i hi hlast => absurd hlast (not_le.mpr hi), fun i hi => ?_⟩
    refine .inl (show i ≤ m from ?_)
    -- an entry behind the snapshot matches, and so would the last one of it
    by_contra hbehind
    rcases hi with hi | ⟨hlast, hterm⟩
    · omega
    · exact hkept ⟨by omega, hmatching i (by omega) hlast hterm m (by omega) (by omega)⟩

end Peer

/-! ## The log of the leader -/

/-- The entries before an index cannot be sent: that at the index is compacted, or the term of the
one before it is not known. -/
def LogView.Compacted (next : ℤ) (l : LogView) : Prop :=
  next < l.firstLogIndex ∨ next = l.firstLogIndex ∧ next - 1 ≠ 0 ∧ next - 1 ≠ l.virtualFirst ∧
    next - 1 ≠ l.lastSnapshot

section Log

variable {opts : Options} {l : LogView} {next next' : ℤ}

theorem LogView.Compacted.of_le (h : l.Compacted next) (hle : next' ≤ next) :
    l.Compacted next' := by
  rcases lt_or_eq_of_le hle with hlt | rfl
  · rcases h with h | ⟨h, -⟩
    · exact .inl (by omega)
    · exact .inl (by omega)
  · exact h

theorem LogView.Compacted.change (h : l.Compacted next) (c : LogChange) :
    (l.change c).Compacted next := by
  cases c with
  | append n => exact h
  | setSnapshot m =>
    have := l.first_le
    unfold LogView.change LogView.setSnapshot
    dsimp only
    split_ifs with hm hpos
    · unfold LogView.Compacted at h ⊢
      dsimp only
      omega
    · unfold LogView.Compacted at h ⊢
      dsimp only
      omega
    · exact h

theorem LogView.last_le_change (l : LogView) (c : LogChange) :
    l.lastLogIndex ≤ (l.change c).lastLogIndex := by
  cases c with
  | append n => exact Int.le_add_of_nonneg_right (Int.natCast_nonneg n)
  | setSnapshot m =>
    unfold LogView.change LogView.setSnapshot
    dsimp only
    split_ifs <;> exact le_refl _

theorem LogView.first_le_change (l : LogView) (c : LogChange) :
    l.firstLogIndex ≤ (l.change c).firstLogIndex := by
  cases c with
  | append n => exact le_refl _
  | setSnapshot m =>
    unfold LogView.change LogView.setSnapshot
    dsimp only
    split_ifs
    · exact le_max_left _ _
    · exact le_refl _
    · exact le_refl _

theorem LogView.compacted_of_getTerm (hnext : 0 < next) (hlast : next ≤ l.lastLogIndex + 1)
    (h : l.getTerm opts (next - 1) = 0) (hzero : next - 1 ≠ 0) :
    l.Compacted next ∧ next - 1 < l.firstLogIndex := by
  have hterm := opts.term_pos (next - 1) (by omega)
  unfold LogView.getTerm at h
  rw [if_neg hzero] at h
  split_ifs at h with hid hrange
  · omega
  · refine ⟨?_, by omega⟩
    unfold LogView.Compacted
    omega
  · omega

theorem LogView.getTerm_eq (h : l.getTerm opts next ≠ 0) :
    l.getTerm opts next = (opts.entry next).term := by
  unfold LogView.getTerm at h ⊢
  split_ifs at h ⊢
  · exact absurd rfl h
  · rfl
  · exact absurd rfl h
  · rfl

theorem LogView.getTerm_of_compacted (opts : Options) (h : l.Compacted next)
    (hnext : ¬ next < l.firstLogIndex) :
    l.getTerm opts (next - 1) = 0 ∧ next - 1 ≠ 0 := by
  obtain ⟨hfirst, hzero, hvirtual, hsnapshot⟩ := h.resolve_left hnext
  refine ⟨?_, hzero⟩
  unfold LogView.getTerm
  rw [if_neg hzero, if_neg (by omega), if_pos (by omega)]

section

variable {fuel length : ℕ} {i readonlyIndex readonlyIndex' : ℤ} {entries : List Entry}
  {rc : PrepareEntryRc}

theorem prepareEntries_spec (hlast : i ≤ l.lastLogIndex + 1)
    (h : prepareEntries opts l fuel i length readonlyIndex = (entries, readonlyIndex', rc)) :
    i + entries.length ≤ l.lastLogIndex + 1 ∧
      ∀ k : ℕ, k < entries.length → entries[k]? = some (opts.entry (i + k)) := by
  induction fuel generalizing i length readonlyIndex entries with
  | zero =>
    obtain ⟨rfl, -⟩ := Prod.mk.inj h
    exact ⟨by simpa using hlast, nofun⟩
  | succ fuel ih =>
    unfold prepareEntries at h
    dsimp only at h
    split_ifs at h with hlength hrange hreadonly
    rotate_left 3
    · generalize hrest : prepareEntries opts l fuel (i + 1) (length + (opts.entry i).dataLength)
        (readonlyBehind readonlyIndex i) = rest at h
      obtain ⟨rest, _, _⟩ := rest
      dsimp only at h
      obtain ⟨rfl, hrest'⟩ := Prod.mk.inj h
      obtain ⟨rfl, rfl⟩ := Prod.mk.inj hrest'
      obtain ⟨hle, hentries⟩ := ih (by omega) hrest
      refine ⟨by rw [length_cons]; omega, fun k hk => ?_⟩
      cases k with
      | zero => simp
      | succ k =>
        rw [length_cons] at hk
        rw [getElem?_cons_succ, hentries k (by omega)]
        congr 2
        omega
    all_goals
      obtain ⟨rfl, -⟩ := Prod.mk.inj h
      exact ⟨by simpa using hlast, nofun⟩

theorem prepareEntries_of_lt (hlt : i < l.firstLogIndex)
    (h : prepareEntries opts l fuel i length readonlyIndex = (entries, readonlyIndex', rc)) :
    entries = [] := by
  have hrange : l.lastLogIndex < i ∨ i < l.firstLogIndex := .inr hlt
  cases fuel with
  | zero => exact (Prod.mk.inj h).1.symm
  | succ fuel =>
    unfold prepareEntries at h
    rw [if_pos hrange] at h
    split_ifs at h
    · exact (Prod.mk.inj h).1.symm
    · exact (Prod.mk.inj h).1.symm

end

end Log

/-! ## What is invariant -/

/-- The requests in flight, up to the next index. -/
structure Window (w : World) : Prop where
  size : w.flyingAppendEntriesSize = sizeOf w.appendEntriesInFly
  contiguous : Contiguous w.minFlyingIndex w.appendEntriesInFly w.nextIndex
  pos : 0 < w.minFlyingIndex
  next_le : w.nextIndex ≤ w.log.lastLogIndex + 1

/-- What goes on at the same time. While a timer is pending, the replicator is blocked, and nothing
is in flight; nor are entries in flight while a snapshot is being installed. -/
structure Modes (w : World) : Prop where
  blocked : w.st = .blocking → w.appendEntriesInFly = []
  timers : w.timers ≠ 0 → w.timers = 1 ∧ w.st = .blocking ∧ w.installs = []
  installing : w.installs ≠ [] →
    w.appendEntriesInFly = [] ∧ w.log.Compacted w.nextIndex ∧ w.reader = true
  single : w.installs.length ≤ 1
  included : ∀ m ∈ w.installs, 0 ≤ m ∧ m ≤ w.log.lastLogIndex

/-- What the peer has accepted, and what was passed to `commit_at`, is in its log. -/
structure Served (opts : Options) (w : World) : Prop where
  requests : ∀ rpc ∈ w.requests, rpc.Ok opts
  matching : w.peer.Matching opts
  accepted : ∀ rpc ∈ w.accepted, ∀ i, 0 < i → i ≤ rpc.lastLogIndex → w.peer.Holds opts i
  commits : ∀ range ∈ w.commits, ∀ i, range.1 ≤ i → i ≤ range.2 → 0 < i ∧ w.peer.Holds opts i

structure Inv (opts : Options) (w : World) : Prop where
  window : Window w
  modes : Modes w
  served : Served opts w
  checks : w.checksOk = true

section Handlers

variable {opts : Options} {w w' : World}

/-- What the invariant is about. -/
def World.core (w : World) :=
  (w.nextIndex, w.flyingAppendEntriesSize, w.st, w.appendEntriesInFly, w.reader, w.log, w.timers,
    w.requests, w.accepted, w.installs, w.peer, w.commits, w.checksOk)

theorem Inv.congr (h : Inv opts w) (hcore : w'.core = w.core) : Inv opts w' := by
  obtain ⟨⟨_, _, _, _, _, _, _, _⟩, _, _, _, _, _, _, _, _, _, _, _, _, _⟩ := w
  obtain ⟨⟨_, _, _, _, _, _, _, _⟩, _, _, _, _, _, _, _, _, _, _, _, _, _⟩ := w'
  obtain ⟨rfl, rfl, rfl, rfl, rfl, rfl, rfl, rfl, rfl, rfl, rfl, rfl, rfl⟩ := hcore
  obtain ⟨⟨hsize, hcontiguous, hpos, hnext⟩, ⟨hblocked, htimers, hinstalling, hsingle, hincluded⟩,
    ⟨hrequests, hmatching, haccepted, hcommits⟩, hchecks⟩ := h
  exact ⟨⟨hsize, hcontiguous, hpos, hnext⟩, ⟨hblocked, htimers, hinstalling, hsingle, hincluded⟩,
    ⟨hrequests, hmatching, haccepted, hcommits⟩, hchecks⟩

theorem Window.nonneg (h : Window w) : 0 ≤ w.flyingAppendEntriesSize := by
  rw [h.size]
  exact sizeOf_nonneg _

theorem Window.next_pos (h : Window w) : 0 < w.nextIndex := by
  have hpos := h.pos
  have hnonneg := h.nonneg
  unfold minFlyingIndex at hpos
  omega

theorem Window.size_of_nil (h : Window w) (hnil : w.appendEntriesInFly = []) :
    w.flyingAppendEntriesSize = 0 := by
  rw [h.size, hnil]
  rfl

theorem window_nil (hpos : 0 < w.nextIndex) (hlast : w.nextIndex ≤ w.log.lastLogIndex + 1)
    (hsize : w.flyingAppendEntriesSize = 0) (hnil : w.appendEntriesInFly = []) : Window w := by
  have hmin : w.minFlyingIndex = w.nextIndex := by
    unfold minFlyingIndex
    omega
  refine ⟨by rw [hsize, hnil]; rfl, ?_, by omega, hlast⟩
  rw [hnil, hmin]
  rfl

theorem modes_quiet (hblocked : w.st = .blocking → w.appendEntriesInFly = [])
    (htimers : w.timers = 0) (hinstalls : w.installs = []) : Modes w := by
  refine ⟨hblocked, fun hne => absurd htimers hne, fun hne => absurd hinstalls hne, ?_, ?_⟩
  all_goals rw [hinstalls]
  · exact Nat.zero_le 1
  · exact forall_mem_nil _

theorem Window.push {k callId : ℕ} (h : Window w) (hle : w.nextIndex + k ≤ w.log.lastLogIndex + 1)
    (hnext : w'.nextIndex = w.nextIndex + k)
    (hsize : w'.flyingAppendEntriesSize = w.flyingAppendEntriesSize + k)
    (hfly : w'.appendEntriesInFly = w.appendEntriesInFly ++ [⟨w.nextIndex, k, callId⟩])
    (hlog : w'.log = w.log) : Window w' := by
  have hmin : w'.minFlyingIndex = w.minFlyingIndex := by
    unfold minFlyingIndex
    omega
  have hend : w.minFlyingIndex + sizeOf w.appendEntriesInFly = w.nextIndex := by
    rw [← h.size]
    unfold minFlyingIndex
    omega
  refine ⟨?_, ?_, hmin ▸ h.pos, by rw [hnext, hlog]; exact hle⟩
  · rw [hsize, hfly, sizeOf_append, h.size]
    simp [sizeOf]
  · rw [hmin, hfly, hnext]
    exact contiguous_concat h.contiguous hend rfl

theorem Window.pop (h : Window w) (i : ℤ) : Window (w.popFlying i) := by
  set isPopped : FlyingAppendEntriesRpc → Bool := fun rpc => rpc.logIndex ≤ i
  obtain ⟨A, hA⟩ : ∃ A, w.appendEntriesInFly.takeWhile isPopped = A := ⟨_, rfl⟩
  obtain ⟨B, hB⟩ : ∃ B, w.appendEntriesInFly.dropWhile isPopped = B := ⟨_, rfl⟩
  have hsplit : w.appendEntriesInFly = A ++ B := by rw [← hA, ← hB, takeWhile_append_dropWhile]
  have hfly : (w.popFlying i).appendEntriesInFly = B := hB
  have hflying : (w.popFlying i).flyingAppendEntriesSize =
      w.flyingAppendEntriesSize - sizeOf A := by
    rw [← hA]
    rfl
  have hmin : (w.popFlying i).minFlyingIndex = w.minFlyingIndex + sizeOf A := by
    unfold minFlyingIndex
    rw [hflying]
    show w.nextIndex - _ = _
    omega
  have hsize := h.size
  have hcontiguous := h.contiguous
  have hpos := h.pos
  have hnonneg := sizeOf_nonneg A
  rw [hsplit] at hsize hcontiguous
  rw [sizeOf_append] at hsize
  refine ⟨by rw [hflying, hfly]; omega, ?_, by omega, h.next_le⟩
  rw [hmin, hfly]
  exact (contiguous_append.mp hcontiguous).2

theorem check_of {p : Prop} [Decidable p] (h : p) (w : World) : w.check (decide p) = w := by
  rw [World.check, decide_eq_true h, Bool.and_true]

theorem Inv.changeLog (h : Inv opts w) (c : LogChange) : Inv opts (w.changeLog c) := by
  have hlast := w.log.last_le_change c
  have hlog : (w.changeLog c).log = w.log.change c := by cases c <;> rfl
  have hwindow : Window (w.changeLog c) := by
    obtain ⟨hsize, hcontiguous, hpos, hnext⟩ := h.window
    cases c <;> exact ⟨hsize, hcontiguous, hpos,
      hnext.trans (by dsimp only [World.changeLog]; omega)⟩
  have hmodes : Modes (w.changeLog c) := by
    obtain ⟨hblocked, htimers, hinstalling, hsingle, hincluded⟩ := h.modes
    have hcompacted : w.installs ≠ [] → w.appendEntriesInFly = [] ∧
        (w.log.change c).Compacted w.nextIndex ∧ w.reader = true := fun hne => by
      obtain ⟨hnil, hcompacted, hreader⟩ := hinstalling hne
      exact ⟨hnil, hcompacted.change c, hreader⟩
    have hle : ∀ m ∈ w.installs, 0 ≤ m ∧ m ≤ (w.log.change c).lastLogIndex := fun m hm =>
      ⟨(hincluded m hm).1, (hincluded m hm).2.trans hlast⟩
    cases c <;> exact ⟨hblocked, htimers, hcompacted, hsingle, hle⟩
  obtain ⟨hrequests, hmatching, haccepted, hcommits⟩ := h.served
  cases c <;> exact ⟨hwindow, hmodes, ⟨hrequests, hmatching, haccepted, hcommits⟩, h.checks⟩

theorem Inv.reset (h : Inv opts w) : Inv opts w.resetNextIndex := by
  obtain ⟨hblocked, htimers, hinstalling, hsingle, hincluded⟩ := h.modes
  have hle := h.window.next_le
  have hnonneg := h.window.nonneg
  refine ⟨window_nil h.window.pos ?_ rfl rfl, ⟨fun _ => rfl, htimers, fun hne => ?_, hsingle,
    hincluded⟩, { h.served with }, h.checks⟩
  · show w.nextIndex - w.flyingAppendEntriesSize ≤ w.log.lastLogIndex + 1
    omega
  · obtain ⟨hnil, hcompacted, hreader⟩ := hinstalling hne
    refine ⟨rfl, hcompacted.of_le ?_, hreader⟩
    show w.nextIndex - w.flyingAppendEntriesSize ≤ w.nextIndex
    omega

theorem fillCommonFields_cases (h : Inv opts w) :
    (w.fillCommonFields opts false = (none, w) ∧ w.log.Compacted w.nextIndex) ∨
      ∃ term, w.fillCommonFields opts false = (some (w.nextIndex - 1, term), w) ∧
        (w.nextIndex - 1 = 0 ∨ term = (opts.entry (w.nextIndex - 1)).term) := by
  unfold World.fillCommonFields
  by_cases hnone : w.log.getTerm opts (w.nextIndex - 1) = 0 ∧ w.nextIndex - 1 ≠ 0
  · obtain ⟨hcompacted, hlt⟩ :=
      LogView.compacted_of_getTerm h.window.next_pos h.window.next_le hnone.1 hnone.2
    rw [if_pos hnone, if_neg Bool.false_ne_true, check_of hlt]
    exact .inl ⟨rfl, hcompacted⟩
  · rw [if_neg hnone]
    refine .inr ⟨_, rfl, ?_⟩
    by_cases hzero : w.nextIndex - 1 = 0
    · exact .inl hzero
    · exact .inr (LogView.getTerm_eq fun hterm => hnone ⟨hterm, hzero⟩)

theorem Served.send {callId term : ℕ} {entries : List Entry} (h : Served opts w)
    (hpos : 0 < w.nextIndex)
    (hterm : w.nextIndex - 1 = 0 ∨ term = (opts.entry (w.nextIndex - 1)).term)
    (hentries : ∀ k : ℕ, k < entries.length → entries[k]? = some (opts.entry (w.nextIndex + k))) :
    ∀ rpc ∈ w.requests ++ [⟨callId, w.nextIndex - 1, term, entries⟩], rpc.Ok opts := by
  refine forall_mem_append.mpr ⟨h.requests, forall_mem_singleton.mpr
    ⟨by dsimp only; omega, hterm, fun k hk => ?_⟩⟩
  dsimp only at hk ⊢
  rw [hentries k hk]
  congr 2
  omega

theorem sendEmptyWith_spec {install : World → Option World} (h : Inv opts w)
    (hnil : w.appendEntriesInFly = []) (htimers : w.timers = 0) (hinstalls : w.installs = [])
    (hinstall : w.log.Compacted w.nextIndex → install w = some w' → Inv opts w')
    (hsend : World.sendEmptyWith opts install w = some w') : Inv opts w' := by
  unfold World.sendEmptyWith at hsend
  rcases fillCommonFields_cases h with ⟨hfill, hcompacted⟩ | ⟨term, hfill, hterm⟩
  · rw [hfill] at hsend
    exact hinstall hcompacted hsend
  · rw [hfill] at hsend
    dsimp only at hsend
    rw [check_of hnil, check_of (h.window.size_of_nil hnil)] at hsend
    cases hsend
    have hle := h.window.next_le
    refine ⟨h.window.push (k := 0) (by simpa using hle) (by simp) (by simp) rfl rfl,
      modes_quiet nofun htimers hinstalls, { h.served with requests := ?_ }, h.checks⟩
    exact h.served.send h.window.next_pos hterm nofun

theorem blockWith_spec {sendEmpty : World → Option World} {timer : Bool} (h : Inv opts w)
    (hnil : w.appendEntriesInFly = []) (hinstalls : w.installs = [])
    (hsend : w.timers = 0 → sendEmpty w = some w' → Inv opts w')
    (hblock : World.blockWith sendEmpty timer w = some w') : Inv opts w' := by
  unfold World.blockWith at hblock
  split_ifs at hblock with hblocking htimer
  · cases hblock
    exact h
  · cases hblock
    have htimers : w.timers = 0 := by
      by_contra hne
      exact hblocking (h.modes.timers hne).2.1
    exact ⟨{ h.window with }, ⟨fun _ => hnil, fun _ => ⟨congrArg (· + 1) htimers, rfl, hinstalls⟩,
        fun hne => absurd hinstalls hne, h.modes.single, h.modes.included⟩,
      { h.served with }, h.checks⟩
  · refine hsend ?_ hblock
    by_contra hne
    exact hblocking (h.modes.timers hne).2.1

theorem Inv.installingSnapshot {reader : Bool} (h : Inv opts w) (htimers : w.timers = 0)
    (hinstalls : w.installs = []) :
    Inv opts { w with st := .installingSnapshot, reader } :=
  ⟨{ h.window with }, modes_quiet nofun htimers hinstalls, { h.served with }, h.checks⟩

section

variable {choices : List InstallChoice} (h : Inv opts w) (hnil : w.appendEntriesInFly = [])
  (htimers : w.timers = 0)
include h hnil htimers

theorem installSnapshot_spec (hcompacted : w.log.Compacted w.nextIndex)
    (hinstall : World.installSnapshot opts choices w = some w') : Inv opts w' := by
  induction choices generalizing w with
  | nil =>
    obtain ⟨-, rfl⟩ := ite_some_none_eq_some.mp hinstall
    exact h
  | cons choice choices ih =>
    unfold World.installSnapshot at hinstall
    by_cases hreader : w.reader = true
    · rw [if_pos hreader] at hinstall
      cases hinstall
      exact h
    rw [if_neg hreader] at hinstall
    have hinstalls : w.installs = [] := by
      by_contra hne
      exact hreader (h.modes.installing hne).2.2
    have hretry : ∀ v : World, Inv opts v → v.appendEntriesInFly = [] → v.timers = 0 →
        v.installs = [] →
        World.sendEmptyWith opts (World.installSnapshot opts choices) v = some w' →
        Inv opts w' := fun v hv hvnil hvtimers hvinstalls =>
      sendEmptyWith_spec hv hvnil hvtimers hvinstalls fun hcompacted =>
        ih hv hvnil hvtimers hcompacted
    cases choice with
    | throttled timer =>
      exact blockWith_spec h hnil hinstalls (fun _ => hretry w h hnil htimers hinstalls) hinstall
    | openFailed | loadMetaFailed =>
      cases hinstall
      exact h.installingSnapshot htimers hinstalls
    | uriEmpty timer =>
      have h' : Inv opts { w with st := .installingSnapshot } :=
        h.installingSnapshot htimers hinstalls
      exact blockWith_spec h' hnil hinstalls (fun _ => hretry _ h' hnil htimers hinstalls) hinstall
    | sent m =>
      obtain ⟨⟨hsnapshot, hlast⟩, rfl⟩ := ite_some_none_eq_some.mp hinstall
      have hfirst := w.log.first_pos
      have hle := w.log.first_le
      refine ⟨{ h.window with },
        ⟨nofun, fun hne => absurd htimers hne, fun _ => ⟨hnil, hcompacted, rfl⟩, ?_, ?_⟩,
        { h.served with }, h.checks⟩
      · rw [hinstalls]
        exact le_refl 1
      · intro m' hm'
        rw [hinstalls, nil_append, mem_singleton] at hm'
        subst hm'
        exact ⟨by omega, hlast⟩

theorem sendEmptyEntries_spec (hinstalls : w.installs = [])
    (hsend : w.sendEmptyEntries opts choices = some w') : Inv opts w' :=
  sendEmptyWith_spec h hnil htimers hinstalls
    (fun hcompacted => installSnapshot_spec h hnil htimers hcompacted) hsend

end

variable {choices : Choices} {rpc : Request}

theorem block_spec (h : Inv opts w) (hnil : w.appendEntriesInFly = [])
    (hinstalls : w.installs = []) (hblock : w.block opts choices = some w') : Inv opts w' :=
  blockWith_spec h hnil hinstalls
    (fun htimers => sendEmptyEntries_spec h hnil htimers hinstalls) hblock

theorem Inv.registerWaiter (h : Inv opts w) : Inv opts (w.registerWaiter opts) := by
  unfold World.registerWaiter
  split_ifs
  · exact h.congr rfl
  · exact h.congr rfl
  · exact h

theorem Inv.idleIfEmpty (h : Inv opts w) (htimers : w.timers = 0) : Inv opts w.idleIfEmpty := by
  unfold World.idleIfEmpty
  split_ifs
  · exact ⟨{ h.window with },
      { h.modes with blocked := nofun, timers := fun hne => absurd htimers hne },
      { h.served with }, h.checks⟩
  · exact h

theorem waitMoreEntries_spec (h : Inv opts w) (htimers : w.timers = 0) :
    Inv opts (w.waitMoreEntries opts) := by
  refine h.registerWaiter.idleIfEmpty ?_
  unfold World.registerWaiter
  split_ifs <;> exact htimers

theorem foldl_changeLog (h : Inv opts w) (changes : List LogChange) :
    Inv opts (changes.foldl World.changeLog w) ∧
      (changes.foldl World.changeLog w).toReplicator = w.toReplicator ∧
      (changes.foldl World.changeLog w).timers = w.timers ∧
      (changes.foldl World.changeLog w).installs = w.installs ∧
      w.log.firstLogIndex ≤ (changes.foldl World.changeLog w).log.firstLogIndex := by
  induction changes generalizing w with
  | nil => exact ⟨h, rfl, rfl, rfl, le_refl _⟩
  | cons c changes ih =>
    obtain ⟨hinv, hreplicator, htimers, hinstalls, hfirst⟩ := ih (h.changeLog c)
    have hchange := w.log.first_le_change c
    rw [foldl_cons, hreplicator, htimers, hinstalls]
    cases c <;> exact ⟨hinv, rfl, rfl, rfl, hchange.trans hfirst⟩

/-- `_send_entries`: nothing is sent while the replicator is blocked, and while a snapshot is being
installed there is nothing to send. -/
theorem sendEntries_spec (h : Inv opts w)
    (hsend : w.sendEntries opts choices = some w') : Inv opts w' := by
  unfold World.sendEntries at hsend
  by_cases hskip : opts.maxEntriesSize ≤ w.flyingAppendEntriesSize ∨
      opts.maxParallelAppendEntriesRpcNum ≤ w.appendEntriesInFly.length ∨ w.st = .blocking
  · rw [if_pos hskip] at hsend
    cases hsend
    exact h
  rw [if_neg hskip] at hsend
  have htimers : w.timers = 0 := by
    by_contra hne
    exact hskip (.inr (.inr (h.modes.timers hne).2.1))
  -- whenever a snapshot is to be installed
  have hinstall : ∀ v : World, Inv opts v → v.timers = 0 → v.log.Compacted v.nextIndex →
      World.installSnapshot opts choices.installs v.resetNextIndex = some w' → Inv opts w' := by
    intro v hv hvtimers hcompacted
    refine installSnapshot_spec hv.reset rfl hvtimers (hcompacted.of_le ?_)
    have := hv.window.nonneg
    show v.nextIndex - v.flyingAppendEntriesSize ≤ v.nextIndex
    omega
  rcases fillCommonFields_cases h with ⟨hfill, hcompacted⟩ | ⟨term, hfill, hterm⟩
  · rw [hfill] at hsend
    exact hinstall w h htimers hcompacted hsend
  rw [hfill] at hsend
  dsimp only at hsend
  obtain ⟨hinv, hreplicator, htimers', hinstalls, hfirst⟩ := foldl_changeLog h choices.meanwhile
  set v := choices.meanwhile.foldl World.changeLog w with hv
  have hnext : v.nextIndex = w.nextIndex := by rw [hreplicator]
  have hroom : 0 < opts.maxEntriesSize - v.flyingAppendEntriesSize := by
    rw [hreplicator]
    omega
  rw [check_of hroom] at hsend
  generalize hprepare :
    prepareEntries opts v.log _ v.nextIndex 0 v.readonlyIndex = prepared at hsend
  obtain ⟨entries, readonlyIndex, rc⟩ := prepared
  obtain ⟨hlast, hentries⟩ := prepareEntries_spec hinv.window.next_le hprepare
  have hinv' : Inv opts { v with readonlyIndex } := hinv.congr rfl
  have htimers₁ : v.timers = 0 := htimers'.trans htimers
  by_cases hempty : entries = []
  · rw [if_pos hempty] at hsend
    split_ifs at hsend with hcompacted hreadonly
    · exact hinstall _ hinv' htimers₁ (.inl hcompacted) hsend
    · cases hsend
      exact hinv'.idleIfEmpty htimers₁
    · cases hsend
      exact waitMoreEntries_spec hinv' htimers₁
  · rw [if_neg hempty] at hsend
    cases hsend
    have hnone : v.installs = [] := by
      by_contra hne
      obtain ⟨-, hcompacted, -⟩ := h.modes.installing (hinstalls ▸ hne)
      by_cases hlt : w.nextIndex < w.log.firstLogIndex
      · exact hempty (prepareEntries_of_lt (hnext ▸ hlt.trans_le hfirst) hprepare)
      · obtain ⟨hzero, hne⟩ := LogView.getTerm_of_compacted opts hcompacted hlt
        unfold World.fillCommonFields at hfill
        rw [if_pos ⟨hzero, hne⟩] at hfill
        cases hfill
    rw [← hnext] at hterm
    refine waitMoreEntries_spec ⟨hinv.window.push hlast rfl rfl rfl rfl,
      modes_quiet nofun htimers₁ hnone, { hinv.served with requests := ?_ }, hinv.checks⟩ htimers₁
    rw [← hnext]
    exact hinv.served.send hinv.window.next_pos hterm hentries

/-! ## Events -/

theorem mem_visited {i : ℤ}
    (h : (w.appendEntriesInFly.takeWhile fun flying => flying.logIndex ≤ i).any
      fun flying => flying.callId = rpc.callId) : w.appendEntriesInFly ≠ [] := by
  intro hnil
  rw [hnil] at h
  cases h

theorem Modes.of_ne_nil (h : Modes w) (hne : w.appendEntriesInFly ≠ []) :
    w.timers = 0 ∧ w.installs = [] := by
  constructor
  · by_contra htimers
    exact hne (h.blocked (h.timers htimers).2.1)
  · by_contra hinstalls
    exact hne (h.installing hinstalls).1

variable (h : Inv opts w)
include h

theorem Inv.findNextIndex (hnil : w.appendEntriesInFly = [])
    (hinstalls : w.installs = []) (lastLogIndex : ℕ) : Inv opts (w.findNextIndex lastLogIndex) := by
  have hpos := h.window.next_pos
  have hle := h.window.next_le
  refine ⟨window_nil ?_ ?_ (h.window.size_of_nil hnil) hnil,
    { h.modes with installing hne := absurd hinstalls hne }, { h.served with }, h.checks⟩
  · dsimp only [World.findNextIndex]
    split_ifs <;> omega
  · dsimp only [World.findNextIndex]
    split_ifs <;> omega

theorem Inv.commitAt (hrpc : rpc ∈ w.accepted) : Inv opts (w.commitAt w.minFlyingIndex rpc) := by
  unfold World.commitAt
  split_ifs
  · exact h
  refine ⟨{ h.window with }, { h.modes with }, { h.served with
    commits := forall_mem_append.mpr
      ⟨h.served.commits, forall_mem_singleton.mpr fun i hfirst hlast => ?_⟩ }, h.checks⟩
  have hpos : 0 < i := h.window.pos.trans_le hfirst
  exact ⟨hpos, h.served.accepted rpc hrpc i hpos hlast⟩

theorem Inv.pop (hne : w.appendEntriesInFly ≠ []) (i : ℤ) : Inv opts (w.popFlying i) := by
  obtain ⟨htimers, hinstalls⟩ := h.modes.of_ne_nil hne
  exact ⟨h.window.pop i, modes_quiet (fun hblocking => absurd (h.modes.blocked hblocking) hne)
    htimers hinstalls, { h.served with }, h.checks⟩

theorem onRpcReturned_spec {result : RpcResult} (hreturn : w.CanReturn opts rpc result)
    (hstep : w.onRpcReturned opts choices rpc result = some w') : Inv opts w' := by
  unfold World.onRpcReturned at hstep
  dsimp only at hstep
  rw [check_of h.window.pos] at hstep
  by_cases hvisited : (w.appendEntriesInFly.takeWhile fun flying =>
      flying.logIndex ≤ rpc.prevLogIndex + 1).any fun flying => flying.callId = rpc.callId
  case neg =>
    rw [if_pos hvisited] at hstep
    cases hstep
    exact h
  rw [if_neg (fun hnot => hnot hvisited)] at hstep
  have hne := mem_visited hvisited
  obtain ⟨htimers, hinstalls⟩ := h.modes.of_ne_nil hne
  cases result with
  | failed => exact block_spec h.reset rfl hinstalls hstep
  | response success term lastLogIndex =>
    cases success with
    | false =>
      dsimp only at hstep
      split_ifs at hstep with hterm
      · cases hstep
        exact h.reset.congr rfl
      · exact sendEmptyEntries_spec (h.reset.findNextIndex rfl hinstalls lastLogIndex) rfl htimers
          hinstalls hstep
    | true =>
      dsimp only at hstep
      split_ifs at hstep with hterm
      · cases hstep
        exact h.reset
      · rw [not_not] at hterm
        subst hterm
        have hfly : (w.commitAt w.minFlyingIndex rpc).appendEntriesInFly ≠ [] := by
          unfold World.commitAt
          split_ifs <;> exact hne
        exact sendEntries_spec ((h.commitAt (hreturn.2 lastLogIndex rfl)).pop hfly _) hstep

theorem blockTimedOut_spec (htimers : w.timers ≠ 0)
    (hstep : { w with timers := w.timers - 1 }.onBlockTimedOut opts choices = some w') :
    Inv opts w' := by
  obtain ⟨hone, hblocking, hinstalls⟩ := h.modes.timers htimers
  have hnil := h.modes.blocked hblocking
  have hzero : w.timers - 1 = 0 := by rw [hone]
  have h' : Inv opts { w with timers := w.timers - 1 } :=
    ⟨{ h.window with }, { h.modes with timers := fun hne => absurd hzero hne },
      { h.served with }, h.checks⟩
  unfold World.onBlockTimedOut at hstep
  split_ifs at hstep with hwait
  · cases hstep
    exact h'.congr rfl
  · exact sendEmptyEntries_spec h' hnil hzero hinstalls hstep

theorem continueSending_spec {stopped : Bool}
    (hstep : w.continueSending opts choices stopped = some w') : Inv opts w' := by
  unfold World.continueSending at hstep
  split_ifs at hstep with hcontinue
  · have hawake : Inv opts { w with waitId := 0 } := h.congr rfl
    exact sendEntries_spec hawake hstep
  · cases hstep
    exact h

theorem installReturned_spec {m : ℤ} {success : Bool} (hm : m ∈ w.installs)
    (hstep : { w with installs := w.installs.erase m }.onInstallSnapshotReturned opts choices m
      success = some w') : Inv opts w' := by
  obtain ⟨hnil, -, -⟩ := h.modes.installing (ne_nil_of_mem hm)
  have hsize := h.window.size_of_nil hnil
  obtain ⟨hzero, hlast⟩ := h.modes.included m hm
  have hnone : w.installs.erase m = [] := by
    have hsingle := h.modes.single
    rw [← length_eq_zero_iff, length_erase_of_mem hm]
    omega
  have htimers : w.timers = 0 := by
    by_contra hne
    rw [(h.modes.timers hne).2.2] at hm
    cases hm
  have h' : ∀ next, 0 < next → next ≤ w.log.lastLogIndex + 1 →
      Inv opts { w with installs := w.installs.erase m, reader := false, nextIndex := next } :=
    fun next hpos hle => ⟨window_nil hpos hle hsize hnil, modes_quiet h.modes.blocked htimers hnone,
      { h.served with }, h.checks⟩
  unfold World.onInstallSnapshotReturned at hstep
  split_ifs at hstep
  · exact sendEntries_spec (h' (m + 1) (by omega) (by omega)) hstep
  · exact block_spec (h' w.nextIndex h.window.next_pos h.window.next_le) hnil hnone hstep

end Handlers

/-- The peer does not cease to be read-only while a timer is pending. -/
def Event.Safe (w : World) : Event → Prop
  | .changeReadonly false => w.readonlyIndex = 0 ∨ w.timers = 0
  | _ => True

theorem safe_of_ne {w : World} {e : Event} (h : e ≠ .changeReadonly false) : e.Safe w := by
  unfold Event.Safe
  split
  · exact absurd rfl h
  · trivial

section Runs

variable {opts : Options} {w w' : World} {e : Event}

theorem changeReadonlyConfig_spec {readonly : Bool} (h : Inv opts w)
    (hsafe : Event.Safe w (.changeReadonly readonly)) :
    Inv opts (w.changeReadonlyConfig opts readonly) := by
  unfold World.changeReadonlyConfig
  split_ifs with hsame hreadonly
  · exact h
  · exact h.congr rfl
  · obtain rfl : readonly = false := Bool.not_eq_true _ ▸ hreadonly
    have htimers : w.timers = 0 := hsafe.resolve_left fun hzero => hsame (.inr ⟨rfl, hzero⟩)
    exact waitMoreEntries_spec (h.congr rfl) htimers

theorem sendHeartbeat_eq (w : World) : w.sendHeartbeat opts = w := by
  unfold World.sendHeartbeat
  have hfill : ∃ fields, w.fillCommonFields opts true = (some fields, w) := by
    by_cases hnone : w.log.getTerm opts (w.nextIndex - 1) = 0 ∧ w.nextIndex - 1 ≠ 0
    · exact ⟨_, if_pos hnone⟩
    · exact ⟨_, if_neg hnone⟩
  obtain ⟨fields, hfill⟩ := hfill
  rw [hfill]

theorem Inv.handle (h : Inv opts w) (hsafe : e.Safe w)
    (hreturn : ∀ choices rpc result, e = .rpcReturned choices rpc result →
      w.CanReturn opts rpc result)
    (hstep : w.handle opts e = some w') : Inv opts w' := by
  cases e with
  | rpcReturned choices rpc result =>
    exact onRpcReturned_spec h (hreturn choices rpc result rfl) hstep
  | blockTimedOut choices =>
    obtain ⟨htimers, hstep⟩ := ite_none_left_eq_some.mp hstep
    exact blockTimedOut_spec h htimers hstep
  | woken choices stopped =>
    obtain ⟨-, hstep⟩ := ite_none_left_eq_some.mp hstep
    have hwoken : Inv opts { w with woken := w.woken - 1 } := h.congr rfl
    exact continueSending_spec hwoken hstep
  | installReturned choices m success =>
    obtain ⟨hm, hstep⟩ := ite_none_right_eq_some.mp hstep
    exact installReturned_spec h hm hstep
  | changeReadonly readonly =>
    cases hstep
    exact changeReadonlyConfig_spec h hsafe
  | heartbeat =>
    cases hstep
    rw [sendHeartbeat_eq]
    exact h
  | stop =>
    cases hstep
    exact h.congr rfl
  | log change => cases hstep
  | receive rpc => cases hstep
  | receiveSnapshot m => cases hstep

theorem Inv.setPeer {peer : Peer} {accepted : List Request} (h : Inv opts w)
    (hmatching : peer.Matching opts)
    (hkeeps : ∀ i, 0 < i → w.peer.Holds opts i → peer.Holds opts i)
    (haccepted : ∀ rpc ∈ accepted, rpc ∈ w.accepted ∨
      ∀ i, 0 < i → i ≤ rpc.lastLogIndex → peer.Holds opts i) :
    Inv opts { w with peer, accepted } := by
  refine ⟨{ h.window with }, { h.modes with },
    ⟨h.served.requests, hmatching, fun rpc hrpc => ?_, fun range hrange i hfirst hlast => ?_⟩,
    h.checks⟩
  · rcases haccepted rpc hrpc with hold | hnew
    · exact fun i hi hlast => hkeeps i hi (h.served.accepted rpc hold i hi hlast)
    · exact hnew
  · obtain ⟨hpos, hholds⟩ := h.served.commits range hrange i hfirst hlast
    exact ⟨hpos, hkeeps i hpos hholds⟩

theorem Inv.environment (h : Inv opts w) (hstep : w.environment opts e = some w') :
    Inv opts w' := by
  cases e with
  | log change =>
    cases hstep
    exact h.changeLog change
  | receive rpc =>
    obtain ⟨hrpc, hstep⟩ := ite_none_right_eq_some.mp hstep
    obtain ⟨peer, hpeer, hstep⟩ := bind_eq_some_iff.mp hstep
    cases hstep
    obtain ⟨hmatching, hkeeps, hnew⟩ :=
      Peer.receive_spec (h.served.requests rpc hrpc) h.served.matching hpeer
    refine h.setPeer hmatching hkeeps fun rpc' hrpc' => ?_
    refine (mem_append.mp hrpc').imp_right fun hrpc' => ?_
    rw [mem_singleton.mp hrpc']
    exact hnew
  | receiveSnapshot m =>
    obtain ⟨-, rfl⟩ := ite_some_none_eq_some.mp hstep
    obtain ⟨hmatching, hkeeps⟩ := Peer.receiveSnapshot_spec h.served.matching m
    exact h.setPeer hmatching (fun i _ => hkeeps i) fun rpc hrpc => .inl hrpc
  | _ => cases hstep

theorem inv_start {choices : Choices} {log : LogView} {peer : Peer} (hpeer : peer.Matching opts)
    (hstart : World.start opts choices log peer = some w) : Inv opts w := by
  have hfirst := log.first_pos
  have hle := log.first_le
  have hlast := log.snapshot_le
  refine sendEmptyEntries_spec ?_ rfl rfl rfl hstart
  exact ⟨window_nil (show 0 < log.lastLogIndex + 1 by omega) (le_refl _) rfl rfl,
    modes_quiet nofun rfl rfl, ⟨nofun, hpeer, nofun, nofun⟩, rfl⟩

theorem inv_of_reachable (hreach : ((pipeline opts).restrict fun w e => e.Safe w).Reachable w) :
    Inv opts w := by
  refine hreach.invariant ?_ ?_
  · rintro w₀ ⟨choices, log, peer, hpeer, hstart⟩
    exact inv_start hpeer hstart
  · rintro w₁ e w₂ ⟨hsafe, hstep, hreturn⟩ hinv
    rcases hstep with hstep | ⟨-, hstep⟩
    · exact hinv.environment hstep
    · exact hinv.handle hsafe hreturn hstep

/-- **The bookkeeping of the requests in flight.** If the peer never ceases to be read-only while
the timer of a blocked replicator is pending, the size is the sum of those in flight, these follow
one another up to the next index, all `CHECK`s have held, and the peer has, with the leader's terms,
all entries of the ranges that were passed to `commit_at`. -/
theorem bookkeeping_sound (hreach : ((pipeline opts).restrict fun w e => e.Safe w).Reachable w) :
    w.flyingAppendEntriesSize = (w.appendEntriesInFly.map fun rpc => (rpc.entriesSize : ℤ)).sum ∧
      Contiguous w.minFlyingIndex w.appendEntriesInFly w.nextIndex ∧
      w.checksOk = true ∧
      ∀ range ∈ w.commits, ∀ i, range.1 ≤ i → i ≤ range.2 → w.peer.Holds opts i := by
  have hinv := inv_of_reachable hreach
  exact ⟨hinv.window.size, hinv.window.contiguous, hinv.checks,
    fun range hrange i hfirst hlast => (hinv.served.commits range hrange i hfirst hlast).2⟩

end Runs

namespace Sample

/-- One request in flight, and entries of one term. -/
def options : Options where
  maxEntriesSize := 8
  maxParallelAppendEntriesRpcNum := 1
  maxBodySize := 64
  term := 1
  entry _ := ⟨1, false, 4⟩
  term_pos _ _ := Nat.one_pos

def log : LogView := ⟨1, 0, 0, 0, by decide, by decide, by decide, by decide⟩

def peer : Peer := ⟨0, 0, fun _ => 0, by decide⟩

theorem matching_peer : peer.Matching options := by
  intro i hfirst hlast
  exact absurd (hfirst.trans_le hlast) (lt_irrefl 0)

/-- Timers can be added, and no snapshot is installed. -/
def choices : Choices := ⟨[], true, []⟩

def probe : Request := ⟨0, 0, 0, []⟩

def entries : Request := ⟨1, 0, 0, [⟨1, false, 4⟩]⟩

theorem init_start {w : World} (h : World.start options choices log peer = some w) :
    (pipeline options).init w := ⟨choices, log, peer, matching_peer, h⟩

end Sample

open Pipeline.Sample

/-- An entry is sent behind the probe, the peer accepts it, and it is committed. -/
theorem bookkeeping_sound_commit :
    ∃ w, ((pipeline Sample.options).restrict fun w e => e.Safe w).Reachable w ∧
      w.commits = [(1, 1)] ∧ w.checksOk = true ∧
      ∀ range ∈ w.commits, ∀ i, range.1 ≤ i → i ≤ range.2 →
        w.peer.Holds Sample.options i := by
  have hreach := (((((System.Reachable.start
    (S := (pipeline options).restrict fun w e => e.Safe w) (init_start rfl)).step
    (e := .receive probe) ⟨safe_of_ne nofun, .inl rfl, nofun⟩).step
    (e := .log (.append 1)) ⟨safe_of_ne nofun, .inl rfl, nofun⟩).step
    (e := .rpcReturned choices probe (.response true 1 0))
    ⟨safe_of_ne nofun, .inr ⟨rfl, rfl⟩, by
      rintro _ _ _ ⟨⟩
      exact ⟨mem_singleton.mpr rfl, fun _ _ => mem_singleton.mpr rfl⟩⟩).step
    (e := .receive entries) ⟨safe_of_ne nofun, .inl rfl, nofun⟩).step
    (e := .rpcReturned choices entries (.response true 1 1))
    ⟨safe_of_ne nofun, .inr ⟨rfl, rfl⟩, by
      rintro _ _ _ ⟨⟩
      exact ⟨by decide, fun _ _ => by decide⟩⟩
  obtain ⟨-, -, hchecks, hcommits⟩ := bookkeeping_sound hreach
  exact ⟨_, hreach, rfl, hchecks, hcommits⟩

/-- The peer becomes read-only, and the probe fails: the replicator is blocked. When the peer ceases
to be read-only, the replicator is idle again although its timer is pending, and sends the entry it
is woken up for. The probe that the timer sends then meets this entry in flight. -/
theorem probe_meets_entries : ∃ w, (pipeline Sample.options).Reachable w ∧ w.checksOk = false ∧
      w.appendEntriesInFly = [⟨1, 1, 1⟩, ⟨2, 0, 2⟩] := by
  have hreach := ((((((System.Reachable.start (init_start rfl)).step
    (e := .changeReadonly true) ⟨.inr ⟨rfl, rfl⟩, nofun⟩).step
    (e := .log (.append 1)) ⟨.inl rfl, nofun⟩).step
    (e := .rpcReturned choices probe .failed) ⟨.inr ⟨rfl, rfl⟩, by
      rintro _ _ _ ⟨⟩
      exact ⟨mem_singleton.mpr rfl, nofun⟩⟩).step
    (e := .changeReadonly false) ⟨.inr ⟨rfl, rfl⟩, nofun⟩).step
    (e := .woken choices false) ⟨.inr ⟨rfl, rfl⟩, nofun⟩).step
    (e := .blockTimedOut choices) ⟨.inr ⟨rfl, rfl⟩, nofun⟩
  exact ⟨_, hreach, rfl, rfl⟩

end Braft.Pipeline
