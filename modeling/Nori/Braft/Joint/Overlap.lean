import Nori.Braft.Joint.ConfigurationCtx

/-!
# Quorums overlap

Two configuration entries that a leader appends one after the other cannot be granted by disjoint
sets of peers. Either they share a configuration of which both need a majority, or they are single
configurations that differ in one peer.
-/

namespace Braft.Joint

open Transition ConfNode List Option

section Quorums

variable {P : Type} [DecidableEq P]

/-- Grants, one after the other, with whatever hints. -/
def Ballot.grantAll (b : Ballot P) (votes : List (P × PosHint)) : Ballot P :=
  votes.foldl (fun b v => (b.grant v.1 v.2).1) b

theorem Ballot.proposal_grantAll (b : Ballot P) (votes : List (P × PosHint)) :
    (b.grantAll votes).proposal = b.proposal := by
  induction votes generalizing b with
  | nil => rfl
  | cons vote votes ih => rw [grantAll, foldl_cons, ← grantAll, ih, proposal_grant]

/-- Whoever is found to have granted a ballot is among the votes. -/
theorem Ballot.found_grantAll {b : Ballot P} {votes : List (P × PosHint)} {v : P}
    (h : (b.grantAll votes).Found v) : b.Found v ∨ ∃ hint, (v, hint) ∈ votes := by
  induction votes generalizing b with
  | nil => exact .inl h
  | cons vote votes ih =>
    rcases ih h with hb | ⟨hint, hmem⟩
    · rcases found_grant hb with hb | rfl
      · exact .inl hb
      · exact .inr ⟨vote.2, mem_cons_self⟩
    · exact .inr ⟨hint, mem_cons_of_mem _ hmem⟩

/-- The ballot of an entry proposed under one or two configurations is granted by peers of `Q`. -/
def Accepts (proposal : Configuration P × Option (Configuration P)) (Q : Set P) : Prop :=
  ∃ votes : List (P × PosHint), (∀ v ∈ votes, v.1 ∈ Q) ∧
    ((Ballot.init proposal.1 proposal.2).grantAll votes).granted

/-- Any two sets of peers that grant the ballots of two entries have a peer in common. -/
def QuorumsMeet (p p' : Configuration P × Option (Configuration P)) : Prop :=
  ∀ Q Q' : Set P, Accepts p Q → Accepts p' Q' → (Q ∩ Q').Nonempty

variable {p p' : Configuration P × Option (Configuration P)} {Q : Set P}

/-- A set that grants the ballot of an entry has majorities of its configurations. -/
theorem Accepts.supported (h : Accepts p Q) : Supported p.1 p.2 (· ∈ Q) := by
  obtain ⟨votes, hvotes, hgranted⟩ := h
  have hproposal := (Ballot.proposal_grantAll _ votes).trans (Ballot.proposal_init p.1 p.2)
  have hsupported : Supported _ _ (Ballot.Found _) := Ballot.supported_of_granted hgranted
  change Supported (Ballot.proposal _).1 (Ballot.proposal _).2 _ at hsupported
  rw [hproposal] at hsupported
  refine hsupported.mono fun v hv => ?_
  rcases Ballot.found_grantAll hv with hv | ⟨hint, hmem⟩
  · exact absurd hv (Ballot.not_found_init p.1 p.2 v)
  · exact hvotes _ hmem

/-- Majorities of configurations that differ in one peer have a peer in common. -/
theorem MostOf.meet_of_close {A B : Configuration P} {Q Q' : Set P} (hA : MostOf A (· ∈ Q))
    (hB : MostOf B (· ∈ Q'))
    (hclose : (A.members \ B.members).card + (B.members \ A.members).card ≤ 1) :
    (Q ∩ Q').Nonempty := by
  obtain ⟨S, hS, hSQ⟩ := hA
  obtain ⟨S', hS', hSQ'⟩ := hB
  obtain ⟨v, hv, hv'⟩ := hS.meet_of_close hS' hclose
  exact ⟨v, hSQ v hv, hSQ' v hv'⟩

/-- Both entries need a majority of the configuration that they share. -/
theorem quorumsMeet_of_common {conf : Configuration P} (h : conf = p.1 ∨ conf ∈ p.2)
    (h' : conf = p'.1 ∨ conf ∈ p'.2) : QuorumsMeet p p' := by
  have hmost : ∀ {p : Configuration P × Option (Configuration P)} {Q : Set P},
      conf = p.1 ∨ conf ∈ p.2 → Accepts p Q → MostOf conf (· ∈ Q) := by
    rintro p Q (rfl | hold) haccepts
    · exact haccepts.supported.1
    · exact haccepts.supported.2 conf hold
  intro Q Q' hQ hQ'
  exact (hmost h hQ).meet_of_close (hmost h' hQ') (by simp)

end Quorums

namespace ConfNode

variable {P K : Type}

section Invariant

variable [DecidableEq P]

/-- Consecutive entries of one term have quorums that meet. -/
def Follows (e e' : ConfEntry P) : Prop :=
  e.term = e'.term → QuorumsMeet (e.conf, e.oldConf) (e'.conf, e'.oldConf)

/-- The configuration entries so far. -/
structure Recorded (s : ConfNode P K) : Prop where
  committed_of_run : ∀ e ∈ s.entries, e.run → e.committed
  term_le : ∀ e ∈ s.entries, e.term ≤ s.currentTerm
  meet : ∀ i e e', s.entries[i]? = some e → s.entries[i + 1]? = some e' → Follows e e'

/-- The closures that wait for peers. Those of the present change are for peers that it adds. -/
structure Waits (s : ConfNode P K) : Prop where
  nodup : s.waiting.Nodup
  version_le : ∀ c ∈ s.waiting, c.version ≤ s.ctx.version
  current : ∀ c ∈ s.waiting, c.version = s.ctx.version →
    s.ctx.stage = .catchingUp ∧ c.peer ∈ s.ctx.addingPeers ∧ c.term = s.currentTerm

/-- The closures of all entries of this term have been run. -/
def AllRun (s : ConfNode P K) : Prop := ∀ e ∈ s.entries, e.term = s.currentTerm → e.run

/-- The last entry is one of this term, under one configuration, which is that of the node. -/
def LastStable (s : ConfNode P K) : Prop :=
  ∃ e, s.entries.getLast? = some e ∧ e.term = s.currentTerm ∧ e.oldConf = none ∧ e.conf = s.conf

/-- Only the last entry of this term may wait for its closure, and it is the one of the stage. -/
def LastPending (s : ConfNode P K) : Prop :=
  ∀ i e, s.entries[i]? = some e → e.term = s.currentTerm → e.run = false →
    i + 1 = s.entries.length ∧ e.conf = s.ctx.newPeers ∧ e.conf = s.conf ∧
      (s.ctx.stage = .stable → e.oldConf = none)

/-- What holds of a leader in each stage. -/
def Staged (s : ConfNode P K) : Prop :=
  match s.ctx.stage with
  | .none => s.AllRun ∧ s.LastStable ∧ s.progress = []
  | .catchingUp => s.AllRun ∧ s.LastStable ∧ s.ctx.oldPeers = s.conf ∧
      s.ctx.nchanges = (s.ctx.newPeers.members \ s.ctx.oldPeers.members).card +
        (s.ctx.oldPeers.members \ s.ctx.newPeers.members).card
  | .joint => s.LastPending
  | .stable => s.LastPending

/-- The invariant. -/
structure Inv (s : ConfNode P K) : Prop where
  recorded : s.Recorded
  waits : s.Waits
  progress : s.progress.length ≤ 1
  idle : s.state.leads = false → s.ctx.stage = .none ∧ s.progress = []
  candidate : s.state = .candidate → ∀ e ∈ s.entries, e.term < s.currentTerm
  staged : s.state.leads → s.Staged

end Invariant

/-! ## The functions -/

section Functions

variable [DecidableEq P] {s : ConfNode P K}

/-- An entry can follow if its quorums meet those of the last one. -/
theorem Recorded.append (h : s.Recorded) {e : ConfEntry P} (hterm : e.term = s.currentTerm)
    (hrun : e.run = false)
    (hlast : ∀ last, s.entries.getLast? = some last → Follows last e) :
    Recorded { s with entries := s.entries ++ [e] } := by
  refine ⟨?_, ?_, ?_⟩
  · refine forall_mem_append.mpr ⟨h.committed_of_run, forall_mem_singleton.mpr fun hrun' => ?_⟩
    rw [hrun] at hrun'
    cases hrun'
  · exact forall_mem_append.mpr ⟨h.term_le, forall_mem_singleton.mpr hterm.le⟩
  · intro i e₁ e₂ h₁ h₂
    rcases lt_or_ge (i + 1) s.entries.length with hlt | hge
    · rw [getElem?_append_left hlt] at h₂
      rw [getElem?_append_left (by omega)] at h₁
      exact h.meet i e₁ e₂ h₁ h₂
    · -- the second entry is the new one, so the first was the last
      rw [getElem?_append_right hge] at h₂
      have hzero : i + 1 - s.entries.length = 0 := by
        have := (List.getElem?_eq_some_iff.mp h₂).1
        simp only [length_singleton] at this
        omega
      rw [hzero, getElem?_cons_zero, some_inj] at h₂
      rw [getElem?_append_left (by omega)] at h₁
      have hindex : s.entries.length - 1 = i := by omega
      rw [← h₂]
      refine hlast e₁ ?_
      rw [getLast?_eq_getElem?, hindex, h₁]

/-- A function that only sets the flags of an entry. -/
def Marks (f : ConfEntry P → ConfEntry P) : Prop :=
  ∀ e, (f e).term = e.term ∧ (f e).conf = e.conf ∧ (f e).oldConf = e.oldConf ∧ (e.run → (f e).run)

variable {f : ConfEntry P → ConfEntry P} {i : ℕ}

omit [DecidableEq P] in
/-- A marked entry keeps its term and its configurations. -/
theorem Marks.entry (hf : Marks f) {j : ℕ} {e : ConfEntry P}
    (h : (s.entries.modify i f)[j]? = some e) :
    ∃ e₀, s.entries[j]? = some e₀ ∧ (j = i ∧ e = f e₀ ∨ j ≠ i ∧ e = e₀) ∧
      e.term = e₀.term ∧ e.conf = e₀.conf ∧ e.oldConf = e₀.oldConf ∧ (e₀.run → e.run) := by
  rw [getElem?_modify] at h
  obtain ⟨e₀, he₀, rfl⟩ := map_eq_some_iff.mp h
  refine ⟨e₀, he₀, ?_⟩
  split_ifs with hij
  · exact ⟨.inl ⟨hij.symm, rfl⟩, hf e₀⟩
  · exact ⟨.inr ⟨fun heq => hij heq.symm, rfl⟩, rfl, rfl, rfl, id⟩

theorem Recorded.modify (h : s.Recorded) (hf : Marks f)
    (hrun : ∀ e, s.entries[i]? = some e → (f e).run → (f e).committed) :
    Recorded { s with entries := s.entries.modify i f } := by
  refine ⟨?_, ?_, ?_⟩
  · intro e he hrun'
    obtain ⟨j, hj⟩ := mem_iff_getElem?.mp he
    obtain ⟨e₀, he₀, ⟨rfl, rfl⟩ | ⟨-, rfl⟩, -⟩ := hf.entry hj
    · exact hrun e₀ he₀ hrun'
    · exact h.committed_of_run e (mem_of_getElem? he₀) hrun'
  · intro e he
    obtain ⟨j, hj⟩ := mem_iff_getElem?.mp he
    obtain ⟨e₀, he₀, -, hterm, -⟩ := hf.entry hj
    rw [hterm]
    exact h.term_le e₀ (mem_of_getElem? he₀)
  · intro j e e' hj hj'
    obtain ⟨e₀, he₀, -, hterm, hconf, hold, -⟩ := hf.entry hj
    obtain ⟨e₀', he₀', -, hterm', hconf', hold', -⟩ := hf.entry hj'
    unfold Follows
    rw [hterm, hterm', hconf, hconf', hold, hold']
    exact h.meet j e₀ e₀' he₀ he₀'

omit [DecidableEq P] in
theorem AllRun.modify (h : s.AllRun) (hf : Marks f) :
    AllRun { s with entries := s.entries.modify i f } := by
  intro e he hterm'
  obtain ⟨j, hj⟩ := mem_iff_getElem?.mp he
  obtain ⟨e₀, he₀, -, hterm, -, -, hrun⟩ := hf.entry hj
  exact hrun (h e₀ (mem_of_getElem? he₀) (hterm.symm.trans hterm'))

omit [DecidableEq P] in
theorem LastStable.modify (h : s.LastStable)
    (hf : Marks f) : LastStable { s with entries := s.entries.modify i f } := by
  obtain ⟨e, he, hterm, hold, hconf⟩ := h
  rw [getLast?_eq_getElem?] at he
  refine ⟨if i = s.entries.length - 1 then f e else e, ?_, ?_⟩
  · rw [getLast?_eq_getElem?, length_modify, getElem?_modify, he]
    rfl
  · split_ifs
    · obtain ⟨hterm', hconf', hold', -⟩ := hf e
      exact ⟨hterm'.trans hterm, hold'.trans hold, hconf'.trans hconf⟩
    · exact ⟨hterm, hold, hconf⟩

omit [DecidableEq P] in
theorem LastPending.modify (h : s.LastPending)
    (hf : Marks f) : LastPending { s with entries := s.entries.modify i f } := by
  intro j e hj hterm' hrun'
  obtain ⟨e₀, he₀, -, hterm, hconf, hold, hrun⟩ := hf.entry hj
  have hrun₀ : e₀.run = false := Bool.eq_false_iff.mpr fun hrun₀ => by
    rw [hrun hrun₀] at hrun'
    cases hrun'
  rw [length_modify, hconf, hold]
  exact h j e₀ he₀ (hterm.symm.trans hterm') hrun₀

theorem Staged.modify (h : s.Staged)
    (hf : Marks f) : Staged { s with entries := s.entries.modify i f } := by
  unfold Staged at h ⊢
  cases hstage : s.ctx.stage with
  | none | catchingUp =>
    rw [hstage] at h
    exact ⟨h.1.modify hf, h.2.1.modify hf, h.2.2⟩
  | joint | stable =>
    rw [hstage] at h
    exact LastPending.modify h hf

/-- Marking an entry keeps the invariant. -/
theorem Inv.modify (h : s.Inv) (hf : Marks f)
    (hrun : ∀ e, s.entries[i]? = some e → (f e).run → (f e).committed) :
    Inv { s with entries := s.entries.modify i f } := by
  refine { h with
    recorded := h.recorded.modify hf hrun
    waits := { h.waits with }
    candidate hstate e he := ?_
    staged hleads := (h.staged hleads).modify hf }
  obtain ⟨j, hj⟩ := mem_iff_getElem?.mp he
  obtain ⟨e₀, he₀, -, hterm, -⟩ := hf.entry hj
  rw [hterm]
  exact h.candidate hstate e₀ (mem_of_getElem? he₀)

omit [DecidableEq P] in
/-- `reset` does nothing, or takes the context and the progress back. -/
theorem reset_cases (s : ConfNode P K) (st : Option (ChangeStatus P)) :
    s.ctx.stage = .none ∧ s.reset st = s ∨
      ∃ replies, s.reset st =
        { s with ctx := s.ctx.cleared, progress := [], replies := replies } := by
  unfold reset
  split_ifs with hstage
  · exact .inl ⟨hstage, rfl⟩
  · exact .inr ⟨_, rfl⟩

theorem Inv.progress_of_none (h : s.Inv) (hstage : s.ctx.stage = .none) : s.progress = [] := by
  cases hleads : s.state.leads with
  | false => exact (h.idle hleads).2
  | true =>
    have hstaged := h.staged hleads
    rw [Staged, hstage] at hstaged
    exact hstaged.2.2

section

omit [DecidableEq P]

variable {s' : ConfNode P K} (h : s.Waits)
include h

theorem Waits.ne_version (hstage : s.ctx.stage ≠ .catchingUp) :
    ∀ c ∈ s.waiting, c.version ≠ s.ctx.version := fun c hc hversion =>
  hstage (h.current c hc hversion).1

/-- Closures of older versions wait for nothing any more. -/
theorem Waits.stale (hwaiting : s'.waiting = s.waiting) (hle : s.ctx.version ≤ s'.ctx.version)
    (hne : ∀ c ∈ s.waiting, c.version ≠ s'.ctx.version) : s'.Waits := by
  refine ⟨hwaiting ▸ h.nodup, ?_, ?_⟩ <;> rw [hwaiting]
  · exact fun c hc => (h.version_le c hc).trans hle
  · exact fun c hc hversion => absurd hversion (hne c hc)

theorem Waits.cleared (hwaiting : s'.waiting = s.waiting) (hctx : s'.ctx = s.ctx.cleared) :
    s'.Waits := by
  refine h.stale hwaiting ?_ fun c hc => ?_ <;> rw [hctx]
  · exact Nat.le_succ _
  · exact (Nat.lt_succ_of_le (h.version_le c hc)).ne

end

/-- A change ends when all entries have run. -/
theorem Inv.reset (h : s.Inv) (st : Option (ChangeStatus P)) (hrun : s.AllRun)
    (hlast : s.LastStable) : (s.reset st).Inv := by
  rcases s.reset_cases st with ⟨-, heq⟩ | ⟨replies, heq⟩
  · rwa [heq]
  · rw [heq]
    exact { h with
      recorded := { h.recorded with }
      waits := h.waits.cleared rfl rfl
      progress := Nat.zero_le 1
      idle _ := ⟨rfl, rfl⟩
      staged _ := ⟨hrun, hlast, rfl⟩ }

theorem Inv.stepDown (h : s.Inv) (term : ℕ) : (s.stepDown term).Inv := by
  unfold ConfNode.stepDown
  split_ifs with hactive
  · exact h
  have hterm_le : ∀ e ∈ s.entries, e.term ≤ max s.currentTerm term := fun e he =>
    (h.recorded.term_le e he).trans (le_max_left _ _)
  rcases reset_cases { s with state := .follower } none with ⟨hstage, heq⟩ | ⟨replies, heq⟩
  · have hprogress := h.progress_of_none hstage
    rw [heq]
    exact { h with
      recorded := { h.recorded with term_le := hterm_le }
      waits := h.waits.stale rfl le_rfl (h.waits.ne_version (hstage.trans_ne nofun))
      idle _ := ⟨hstage, hprogress⟩
      candidate := nofun
      staged := nofun }
  · rw [heq]
    exact {
      recorded := { h.recorded with term_le := hterm_le }
      waits := h.waits.cleared rfl rfl
      progress := Nat.zero_le 1
      idle _ := ⟨rfl, rfl⟩
      candidate := nofun
      staged := nofun }

/-- The entry of a stage is appended. Where the log manager refuses it, no closure is left to go
on. -/
theorem Inv.apply (hrecorded : s.Recorded) (hwaits : s.Waits) (hprogress : s.progress.length ≤ 1)
    (hleads : s.state.leads) (hrun : s.AllRun) {oldConf : Option (Configuration P)}
    (hstage : s.ctx.stage = .joint ∨ s.ctx.stage = .stable ∧ oldConf = none)
    (hmeet : ∀ last, s.entries.getLast? = some last → last.term = s.currentTerm →
      QuorumsMeet (last.conf, last.oldConf) (s.ctx.newPeers, oldConf))
    (leaderStart ok : Bool) :
    (s.unsafeApplyConfiguration s.ctx.newPeers oldConf leaderStart ok).Inv := by
  have hcandidate : s.state ≠ .candidate := by
    intro hstate
    rw [hstate] at hleads
    cases hleads
  have hbusy : ∀ {t : ConfNode P K}, t.ctx.stage = s.ctx.stage → t.LastPending → t.Staged := by
    intro t ht hpending
    unfold Staged
    rcases hstage with hstage | ⟨hstage, -⟩
    all_goals
      rw [ht, hstage]
      exact hpending
  unfold unsafeApplyConfiguration
  split_ifs with hok
  · have hrecorded' := hrecorded.append
      (e := ⟨s.currentTerm, s.ctx.newPeers, oldConf, leaderStart, false, false⟩) rfl rfl hmeet
    refine {
      recorded := { hrecorded' with }
      waits := { hwaits with }
      progress := hprogress
      idle hidle := absurd (hleads.symm.trans hidle) (by decide)
      candidate hstate := absurd hstate hcandidate
      staged _ := hbusy rfl ?_ }
    intro i e hi hterm hrun'
    rw [getElem?_append] at hi
    split_ifs at hi with hlt
    · rw [hrun e (mem_of_getElem? hi) hterm] at hrun'
      cases hrun'
    · have hlen := (List.getElem?_eq_some_iff.mp hi).1
      simp only [length_singleton] at hlen
      obtain rfl := mem_singleton.mp (mem_of_getElem? hi)
      refine ⟨?_, rfl, rfl, fun hstable => ?_⟩
      · rw [length_append, length_singleton]
        omega
      · rcases hstage with hstage | ⟨-, hold⟩
        · rw [hstage] at hstable
          cases hstable
        · exact hold
  · refine {
      recorded := hrecorded
      waits := hwaits
      progress := hprogress
      idle hidle := absurd (hleads.symm.trans hidle) (by decide)
      candidate hstate := absurd hstate hcandidate
      staged _ := hbusy rfl ?_ }
    -- no closure is there to go on
    intro i e hi hterm hrun'
    rw [hrun e (mem_of_getElem? hi) hterm] at hrun'
    cases hrun'

section

variable (h : s.Inv)
include h

/-- The new peers have caught up: the joint stage, or the stable one, begins. -/
theorem Inv.nextStage_of_catchingUp (hleads : s.state.leads)
    (hstage : s.ctx.stage = .catchingUp) (hnone : ∀ c ∈ s.waiting, c.version ≠ s.ctx.version)
    (ok : Bool) : (s.nextStage ok).Inv := by
  have hstaged := h.staged hleads
  rw [Staged, hstage] at hstaged
  obtain ⟨hrun, ⟨e, he, hterm, hold, hconf⟩, hpeers, hchanges⟩ := hstaged
  have hwaits : ∀ stage, Waits { s with ctx := { s.ctx with stage := stage } } := fun stage =>
    h.waits.stale rfl le_rfl hnone
  have hrecorded : ∀ stage, Recorded { s with ctx := { s.ctx with stage := stage } } := fun _ =>
    { h.recorded with }
  unfold nextStage
  rw [hstage]
  dsimp only
  split_ifs with hmany
  · -- the entry before is under the old configuration, and the new one under both
    refine Inv.apply (hrecorded .joint) (hwaits .joint) h.progress hleads hrun (.inl rfl) ?_ _ _
    intro last hlast _
    cases hlast.symm.trans he
    refine quorumsMeet_of_common (.inl rfl) (.inr ?_)
    rw [hpeers, ← hconf]
    rfl
  · -- the entry before is under a configuration with one peer more or less
    refine Inv.apply (hrecorded .stable) (hwaits .stable) h.progress hleads hrun
      (.inr ⟨rfl, rfl⟩) ?_ _ _
    intro last hlast _
    cases hlast.symm.trans he
    rw [hold, hconf, ← hpeers]
    refine fun _ _ hQ hQ' => hQ.supported.1.meet_of_close hQ'.supported.1 ?_
    rw [Nat.add_comm, ← hchanges]
    exact not_lt.mp hmany

/-- The entry of a stage has run: the next stage begins, or the change is done. -/
theorem Inv.nextStage_of_run (hrun : s.AllRun)
    (hleads : s.state.leads) (hstage : s.ctx.stage = .joint ∨ s.ctx.stage = .stable)
    {e : ConfEntry P} (he : s.entries.getLast? = some e) (hterm : e.term = s.currentTerm)
    (hnew : e.conf = s.ctx.newPeers) (hconf : e.conf = s.conf)
    (hold : s.ctx.stage = .stable → e.oldConf = none) (ok : Bool) : (s.nextStage ok).Inv := by
  unfold nextStage
  rcases hstage with hstage | hstage
  · rw [hstage]
    have hwaits : Waits { s with ctx := { s.ctx with stage := .stable } } :=
      h.waits.stale rfl le_rfl (h.waits.ne_version (hstage.trans_ne nofun))
    have hrecorded : Recorded { s with ctx := { s.ctx with stage := .stable } } :=
      { h.recorded with }
    refine Inv.apply hrecorded hwaits h.progress hleads hrun (.inr ⟨rfl, rfl⟩) ?_ _ _
    intro last hlast _
    cases hlast.symm.trans he
    exact quorumsMeet_of_common (.inl rfl) (.inl hnew)
  · rw [hstage]
    dsimp only
    have hreset := h.reset (some .ok) hrun ⟨e, he, hterm, hold hstage, hconf⟩
    split_ifs with hcontains
    · exact hreset
    · exact hreset.stepDown _

/-- One of the new peers has caught up, or has failed to. -/
theorem Inv.onCaughtup (hleads : s.state.leads) (hstage : s.ctx.stage = .catchingUp)
    {peer : P} (hpeer : ∀ c ∈ s.waiting, c.version = s.ctx.version → c.peer ≠ peer)
    (succ ok : Bool) : (s.onCaughtup s.ctx.version peer succ ok).Inv := by
  have hstaged := h.staged hleads
  have hsettled := hstaged
  rw [Staged, hstage] at hsettled
  unfold ConfNode.onCaughtup
  rw [if_neg (not_not.mpr rfl)]
  cases succ with
  | false => exact h.reset _ hsettled.1 hsettled.2.1
  | true =>
    have hinv : Inv { s with ctx := { s.ctx with addingPeers := s.ctx.addingPeers.erase peer } } :=
      { h with
        recorded := { h.recorded with }
        waits := { h.waits with
          current c hc hversion := by
            obtain ⟨hstage, hadding, hterm⟩ := h.waits.current c hc hversion
            exact ⟨hstage, (mem_erase_of_ne (hpeer c hc hversion)).mpr hadding, hterm⟩ }
        staged _ := hstaged }
    rw [if_pos rfl]
    dsimp only
    split_ifs with hempty
    · refine hinv.nextStage_of_catchingUp hleads hstage (fun c hc hversion => ?_) ok
      obtain ⟨-, hadding, -⟩ := hinv.waits.current c hc hversion
      rw [hempty] at hadding
      cases hadding
    · exact hinv

/-- The induction is on the peers that have no replicator yet. -/
theorem Inv.startReplicators (hleads : s.state.leads)
    (hstage : s.ctx.stage = .catchingUp) (waits : P → Bool) (ok : Bool) {peers : List P}
    (hnodup : peers.Nodup) (hadding : ∀ v ∈ peers, v ∈ s.ctx.addingPeers)
    (hfresh : ∀ c ∈ s.waiting, c.version = s.ctx.version → c.peer ∉ peers) :
    (s.startReplicators waits ok peers).Inv := by
  induction peers generalizing s with
  | nil => exact h
  | cons peer peers ih =>
    obtain ⟨hpeer, hnodup⟩ := nodup_cons.mp hnodup
    unfold startReplicators
    split_ifs with hwaits
    · refine ih ?_ hleads hstage hnodup (fun v hv => hadding v (mem_cons_of_mem _ hv)) ?_
      · have hnew : (⟨peer, s.currentTerm, s.ctx.version⟩ : OnCaughtUp P) ∉ s.waiting :=
          fun hmem => hfresh _ hmem rfl mem_cons_self
        refine { h with
          recorded := { h.recorded with }
          waits := ⟨?_, ?_, ?_⟩
          staged := h.staged }
        · exact (perm_append_singleton _ _).nodup_iff.mpr (nodup_cons.mpr ⟨hnew, h.waits.nodup⟩)
        · exact forall_mem_append.mpr ⟨h.waits.version_le, forall_mem_singleton.mpr le_rfl⟩
        · exact forall_mem_append.mpr ⟨h.waits.current, forall_mem_singleton.mpr
            fun _ => ⟨hstage, hadding peer mem_cons_self, rfl⟩⟩
      · exact forall_mem_append.mpr
          ⟨fun c hc hversion hmem => hfresh c hc hversion (mem_cons_of_mem _ hmem),
            forall_mem_singleton.mpr fun _ => hpeer⟩
    · refine h.onCaughtup hleads hstage (fun c hc hversion heq => ?_) false ok
      exact hfresh c hc hversion (heq ▸ mem_cons_self)

/-- A change starts when no other one is under way. -/
theorem Inv.start (hleads : s.state.leads) (hstage : s.ctx.stage = .none)
    (newConf : Configuration P) (done : Option K) (waits : P → Bool) (ok : Bool) :
    (s.start s.conf newConf done waits ok).Inv := by
  have hsettled := h.staged hleads
  rw [Staged, hstage] at hsettled
  obtain ⟨hrun, hlast, hprogress⟩ := hsettled
  have hnone := h.waits.ne_version (hstage.trans_ne nofun)
  have hstarted : ∀ adding, Inv { s with
      ctx := { s.ctx with
        done := done
        stage := .catchingUp
        oldPeers := s.conf
        newPeers := newConf
        nchanges := (newConf.diffs s.conf).1.peers.length + (newConf.diffs s.conf).2.peers.length
        addingPeers := adding }
      progress := s.progress ++ [⟨s.conf, newConf⟩]
      started := s.started ++ [⟨s.conf, newConf⟩] } := by
    intro adding
    exact { h with
      recorded := { h.recorded with }
      waits := h.waits.stale rfl le_rfl hnone
      progress := by simp [hprogress]
      idle hidle := absurd (hleads.symm.trans hidle) (by decide)
      staged _ := ⟨hrun, hlast, rfl, newConf.length_diffs s.conf⟩ }
  unfold ConfNode.start
  dsimp only
  split_ifs with hempty
  · exact (hstarted _).nextStage_of_catchingUp hleads rfl hnone ok
  · exact (hstarted _).startReplicators hleads rfl waits ok (newConf.diffs s.conf).1.nodup
      (fun v hv => hv) fun c hc hversion => absurd hversion (hnone c hc)

theorem Inv.reply (done : Option K) (status : ChangeStatus P) : (s.reply done status).Inv :=
  { h with recorded := { h.recorded with }, waits := { h.waits with }, staged := h.staged }

theorem Inv.unsafeRegisterConfChange (newConf : Configuration P) (done : Option K)
    (waits : P → Bool) (ok : Bool) :
    (s.unsafeRegisterConfChange s.conf newConf done waits ok).Inv := by
  unfold ConfNode.unsafeRegisterConfChange
  split_ifs with hstate htransferring hbusy hequals
  · exact h.reply done _
  · exact h.reply done _
  · exact h.reply done _
  · exact h.reply done _
  · have hleads : s.state.leads := by
      rw [not_not.mp hstate]
      rfl
    have hstage : s.ctx.stage = .none := by simpa [ConfigurationCtx.isBusy] using hbusy
    exact h.start hleads hstage newConf done waits ok

/-- A new leader has no entry of its term, so that its first one need not meet any. -/
theorem Inv.becomeLeader (hstate : s.state = .candidate) (ok : Bool) : (s.becomeLeader ok).Inv := by
  have hbefore := h.candidate hstate
  obtain ⟨hstage, hprogress⟩ := h.idle (by rw [hstate]; rfl)
  have hrun : ∀ e ∈ s.entries, e.term = s.currentTerm → e.run := fun e he hterm =>
    absurd hterm (hbefore e he).ne
  have hnone := h.waits.ne_version (hstage.trans_ne nofun)
  have hmeet : ∀ last, s.entries.getLast? = some last → last.term = s.currentTerm →
      ∀ p, QuorumsMeet (last.conf, last.oldConf) p := fun last hlast hterm =>
    absurd hterm (hbefore last (mem_of_getLast? hlast)).ne
  unfold ConfNode.becomeLeader ConfNode.flush
  split_ifs with hempty
  · have hrecorded : Recorded { s with
        state := .leader
        ctx := { s.ctx with newPeers := s.conf, stage := .stable, oldPeers := s.conf } } :=
      { h.recorded with }
    exact Inv.apply hrecorded (h.waits.stale rfl le_rfl hnone)
      h.progress rfl hrun (.inr ⟨rfl, rfl⟩) (fun last hlast hterm => hmeet last hlast hterm _) _ _
  · have hrecorded : Recorded { s with
        state := .leader
        ctx := { s.ctx with newPeers := s.conf, stage := .joint, oldPeers := s.oldConf }
        progress := s.progress ++ [⟨s.oldConf, s.conf⟩] } :=
      { h.recorded with }
    exact Inv.apply hrecorded (h.waits.stale rfl le_rfl hnone)
      (by simp [hprogress]) rfl hrun (.inl rfl) (fun last hlast hterm => hmeet last hlast hterm _)
      _ _

/-- The closure of a committed entry is run. -/
theorem Inv.changeDone {i : ℕ} {e : ConfEntry P} (he : s.entries[i]? = some e)
    (hcommitted : e.committed) (hrun : e.run = false) (ok : Bool) :
    Inv ({ s with entries := s.entries.modify i ({ · with run := true }) }
      |>.onConfigurationChangeDone e.term ok) := by
  have hmarks : Marks fun e : ConfEntry P => { e with run := true } := fun _ =>
    ⟨rfl, rfl, rfl, fun _ => rfl⟩
  have hinv : Inv { s with entries := s.entries.modify i ({ · with run := true }) } := by
    refine h.modify hmarks fun e' he' _ => ?_
    obtain rfl := some_inj.mp (he.symm.trans he')
    exact hcommitted
  unfold onConfigurationChangeDone
  split_ifs with hstale
  · exact hinv
  obtain ⟨hleads, hterm⟩ : s.state.leads ∧ e.term = s.currentTerm := by simpa using hstale
  -- in the other stages all closures of this term have been run
  have hpending : s.LastPending ∧ (s.ctx.stage = .joint ∨ s.ctx.stage = .stable) := by
    have hstaged := h.staged hleads
    have hnot : ¬ s.AllRun := fun hall => by
      have := hall e (mem_of_getElem? he) hterm
      rw [hrun] at this
      cases this
    unfold Staged at hstaged
    cases hstage : s.ctx.stage with
    | none | catchingUp =>
      rw [hstage] at hstaged
      exact absurd hstaged.1 hnot
    | joint =>
      rw [hstage] at hstaged
      exact ⟨hstaged, .inl rfl⟩
    | stable =>
      rw [hstage] at hstaged
      exact ⟨hstaged, .inr rfl⟩
  obtain ⟨hlast, hnew, hconf, hold⟩ := hpending.1 i e he hterm hrun
  refine hinv.nextStage_of_run ?_ hleads hpending.2 (e := { e with run := true }) ?_ hterm hnew
    hconf hold ok
  · intro e' he' hterm'
    obtain ⟨j, hj⟩ := mem_iff_getElem?.mp he'
    obtain ⟨e₀, he₀, ⟨-, rfl⟩ | ⟨hne, rfl⟩, -⟩ := hmarks.entry hj
    · rfl
    · by_contra hrun'
      obtain ⟨hlast', -⟩ := hpending.1 j e' he₀ hterm' (Bool.not_eq_true _ ▸ hrun')
      omega
  · have hindex : s.entries.length - 1 = i := by omega
    rw [getLast?_eq_getElem?, length_modify, hindex, getElem?_modify, he]
    exact congrArg some (if_pos rfl)

/-- A closure that waits for a peer is run. -/
theorem Inv.caughtUp {c : OnCaughtUp P} (hc : c ∈ s.waiting) (st : CaughtUpStatus)
    (ok : Bool) : Inv ({ s with waiting := s.waiting.erase c }.handleCaughtUp c st ok) := by
  have hmem : ∀ {c'}, c' ∈ s.waiting.erase c → c' ∈ s.waiting := mem_of_mem_erase
  have hinv : Inv { s with waiting := s.waiting.erase c } :=
    { h with
      recorded := { h.recorded with }
      waits := {
        nodup := h.waits.nodup.erase c
        version_le c' hc' := h.waits.version_le c' (hmem hc')
        current c' hc' := h.waits.current c' (hmem hc') }
      staged := h.staged }
  unfold handleCaughtUp
  by_cases hstale : s.state ≠ .leader ∨ c.term ≠ s.currentTerm
  · rwa [if_pos hstale]
  rw [if_neg hstale]
  obtain ⟨hstate, hterm⟩ : s.state = .leader ∧ c.term = s.currentTerm := by
    simpa [not_or] using hstale
  have hleads : s.state.leads := by
    rw [hstate]
    rfl
  -- there is one closure for a peer
  have honCaughtup : ∀ succ, Inv ({ s with waiting := s.waiting.erase c }.onCaughtup c.version
      c.peer succ ok) := by
    intro succ
    by_cases hversion : c.version = s.ctx.version
    · obtain ⟨hstage, -⟩ := h.waits.current c hc hversion
      rw [hversion]
      refine hinv.onCaughtup hleads hstage (fun c' hc' hversion' hpeer => ?_) succ ok
      obtain ⟨-, -, hterm'⟩ := h.waits.current c' (hmem hc') hversion'
      have heq : c' = c := by
        obtain ⟨peer, term, version⟩ := c
        obtain ⟨peer', term', version'⟩ := c'
        simp only [OnCaughtUp.mk.injEq]
        exact ⟨hpeer, hterm'.trans hterm.symm, hversion'.trans hversion.symm⟩
      exact h.waits.nodup.not_mem_erase (heq ▸ hc')
    · rwa [ConfNode.onCaughtup, if_pos hversion]
  cases st with
  | ok => exact honCaughtup true
  | failed => exact honCaughtup false
  | retried =>
    obtain ⟨peer, term, version⟩ := c
    obtain rfl : term = s.currentTerm := hterm
    have hperm := (perm_append_singleton _ _).trans (perm_cons_erase hc).symm
    exact { hinv with
      recorded := { h.recorded with }
      waits := {
        nodup := hperm.nodup_iff.mpr h.waits.nodup
        version_le c' hc' := h.waits.version_le c' (hperm.subset hc')
        current c' hc' := h.waits.current c' (hperm.subset hc') }
      staged := h.staged }

end

end Functions

/-! ## Runs -/

section Runs

variable [DecidableEq P] {s s' : ConfNode P K} {serverId : P}

omit [DecidableEq P] in
theorem leads_stepDown (s : ConfNode P K) (term : ℕ) : (s.stepDown term).state.leads = false := by
  unfold stepDown
  split_ifs with hactive
  · rw [hactive]
    rfl
  · rcases reset_cases { s with state := .follower } none with ⟨-, heq⟩ | ⟨replies, heq⟩
    all_goals
      rw [heq]
      rfl

/-- **Every event keeps the invariant.** -/
theorem Inv.step {e : Event P K} (h : s.Inv) (hstep : s.step e = some s') : s'.Inv := by
  cases e with
  | electSelf =>
    obtain ⟨hstate, rfl⟩ := ite_some_none_eq_some.mp hstep
    obtain ⟨hstage, hprogress⟩ := h.idle (by
      rcases hstate with hstate | hstate <;> rw [hstate] <;> rfl)
    exact { h with
      recorded := { h.recorded with
        term_le e he := (h.recorded.term_le e he).trans (Nat.le_succ _) }
      waits := h.waits.stale rfl le_rfl (h.waits.ne_version (hstage.trans_ne nofun))
      idle _ := ⟨hstage, hprogress⟩
      candidate _ e he := Nat.lt_succ_of_le (h.recorded.term_le e he)
      staged := nofun }
  | becomeLeader ok =>
    obtain ⟨hstate, rfl⟩ := ite_some_none_eq_some.mp hstep
    exact h.becomeLeader hstate ok
  | stepDown term =>
    cases hstep
    exact h.stepDown term
  | transferLeadership =>
    obtain ⟨⟨hstate, -⟩, rfl⟩ := ite_some_none_eq_some.mp hstep
    exact { h with
      recorded := { h.recorded with }
      waits := { h.waits with }
      idle := nofun
      candidate := nofun
      staged _ := h.staged (by rw [hstate]; rfl) }
  | transferTimeout =>
    obtain ⟨hstate, rfl⟩ := ite_some_none_eq_some.mp hstep
    exact { h with
      recorded := { h.recorded with }
      waits := { h.waits with }
      idle := nofun
      candidate := nofun
      staged _ := h.staged (by rw [hstate]; rfl) }
  | deactivate =>
    cases hstep
    have hdown := h.stepDown s.currentTerm
    exact { hdown with
      recorded := { hdown.recorded with }
      waits := { hdown.waits with }
      idle _ := hdown.idle (leads_stepDown s _)
      candidate := nofun
      staged := nofun }
  | configure conf oldConf =>
    obtain ⟨hidle, hs'⟩ := ite_none_left_eq_some.mp hstep
    obtain rfl := some_inj.mp hs'
    exact { h with
      recorded := { h.recorded with }
      waits := { h.waits with }
      staged hleads := absurd hleads hidle }
  | addPeer peer done waits ok | removePeer peer done waits ok
  | changePeers newPeers done waits ok =>
    cases hstep
    exact h.unsafeRegisterConfChange _ done waits ok
  | commit i =>
    cases hstep
    exact h.modify (fun _ => ⟨rfl, rfl, rfl, id⟩) fun _ _ _ => rfl
  | changeDone i ok =>
    unfold ConfNode.step at hstep
    dsimp only at hstep
    split at hstep
    · next e he =>
      obtain ⟨hflags, rfl⟩ := ite_some_none_eq_some.mp hstep
      obtain ⟨hcommitted, hrun⟩ : e.committed ∧ e.run = false := by simpa using hflags
      exact h.changeDone he hcommitted hrun ok
    · cases hstep
  | caughtUp c st ok =>
    obtain ⟨hc, rfl⟩ := ite_some_none_eq_some.mp hstep
    exact h.caughtUp hc st ok

theorem Inv.reachable (h : (system P K serverId).Reachable s) : s.Inv := by
  refine h.invariant ?_ fun s e s' hstep hinv => hinv.step hstep
  rintro s rfl
  exact {
    recorded := {
      committed_of_run := nofun
      term_le := nofun
      meet := nofun }
    waits := {
      nodup := nodup_nil
      version_le := nofun
      current := nofun }
    progress := Nat.zero_le 1
    idle _ := ⟨rfl, rfl⟩
    candidate := nofun
    staged := nofun }

section Started

omit [DecidableEq P] in
@[simp] theorem started_reset (s : ConfNode P K) (st : Option (ChangeStatus P)) :
    (s.reset st).started = s.started := by
  rcases s.reset_cases st with ⟨-, heq⟩ | ⟨replies, heq⟩ <;> rw [heq]

omit [DecidableEq P] in
@[simp] theorem started_stepDown (s : ConfNode P K) (term : ℕ) :
    (s.stepDown term).started = s.started := by
  unfold stepDown
  split_ifs <;> simp

omit [DecidableEq P] in
@[simp] theorem started_unsafeApplyConfiguration (s : ConfNode P K) (newConf : Configuration P)
    (oldConf : Option (Configuration P)) (leaderStart ok : Bool) :
    (s.unsafeApplyConfiguration newConf oldConf leaderStart ok).started = s.started := by
  unfold unsafeApplyConfiguration
  split_ifs <;> rfl

@[simp] theorem started_nextStage (s : ConfNode P K) (ok : Bool) :
    (s.nextStage ok).started = s.started := by
  unfold nextStage toStable
  split
  · split_ifs <;> simp
  · simp
  · split_ifs <;> simp
  · rfl

@[simp] theorem started_onCaughtup (s : ConfNode P K) (version : ℕ) (peer : P) (succ ok : Bool) :
    (s.onCaughtup version peer succ ok).started = s.started := by
  unfold onCaughtup
  by_cases hversion : version ≠ s.ctx.version
  · rw [if_pos hversion]
  rw [if_neg hversion]
  cases succ with
  | false => exact started_reset _ _
  | true =>
    rw [if_pos rfl]
    dsimp only
    split_ifs <;> simp

@[simp] theorem started_handleCaughtUp (s : ConfNode P K) (c : OnCaughtUp P) (st : CaughtUpStatus)
    (ok : Bool) : (s.handleCaughtUp c st ok).started = s.started := by
  unfold handleCaughtUp
  split_ifs
  · rfl
  · cases st <;> simp

theorem started_unsafeRegisterConfChange {newConf : Configuration P} {done : Option K}
    {waits : P → Bool} {ok : Bool}
    (h : (s.unsafeRegisterConfChange s.conf newConf done waits ok).started ≠ s.started) :
    s.state = .leader ∧ s.ctx.stage = .none := by
  unfold unsafeRegisterConfChange at h
  split_ifs at h with hstate htransferring hbusy hequals
  · exact absurd rfl h
  · exact absurd rfl h
  · exact absurd rfl h
  · exact absurd rfl h
  · exact ⟨not_not.mp hstate, by simpa [ConfigurationCtx.isBusy] using hbusy⟩

/-- A change starts only at a leader that has none under way. -/
theorem started_step {e : Event P K} (hstep : s.step e = some s') (h : s'.started ≠ s.started) :
    s.state = .leader ∧ s.ctx.stage = .none := by
  cases e with
  | electSelf | transferLeadership | transferTimeout =>
    obtain ⟨-, rfl⟩ := ite_some_none_eq_some.mp hstep
    exact absurd rfl h
  | becomeLeader ok =>
    obtain ⟨-, rfl⟩ := ite_some_none_eq_some.mp hstep
    refine absurd ?_ h
    unfold ConfNode.becomeLeader flush
    split_ifs <;> simp
  | stepDown term =>
    cases hstep
    exact absurd (started_stepDown s term) h
  | deactivate =>
    cases hstep
    exact absurd (started_stepDown s s.currentTerm) h
  | configure conf oldConf =>
    obtain ⟨-, hs'⟩ := ite_none_left_eq_some.mp hstep
    obtain rfl := some_inj.mp hs'
    exact absurd rfl h
  | addPeer peer done waits ok | removePeer peer done waits ok
  | changePeers newPeers done waits ok =>
    cases hstep
    exact started_unsafeRegisterConfChange h
  | commit i =>
    cases hstep
    exact absurd rfl h
  | changeDone i ok =>
    unfold step at hstep
    dsimp only at hstep
    split at hstep
    · obtain ⟨-, rfl⟩ := ite_some_none_eq_some.mp hstep
      refine absurd ?_ h
      unfold onConfigurationChangeDone
      split_ifs <;> simp
    · cases hstep
  | caughtUp c st ok =>
    obtain ⟨-, rfl⟩ := ite_some_none_eq_some.mp hstep
    exact absurd (started_handleCaughtUp _ c st ok) h

end Started

/-- A leader without a change under way has committed the first entry of its term. -/
theorem Inv.first_committed (h : s.Inv) (hstate : s.state = .leader)
    (hstage : s.ctx.stage = .none) :
    ∃ first, s.entries.find? (·.term = s.currentTerm) = some first ∧ first.committed := by
  have hstaged := h.staged (by rw [hstate]; rfl)
  rw [Staged, hstage] at hstaged
  obtain ⟨hrun, ⟨last, hlast, hterm, -⟩, -⟩ := hstaged
  have hsome : (s.entries.find? (·.term = s.currentTerm)).isSome := by
    rw [find?_isSome]
    exact ⟨last, mem_of_getLast? hlast, by simpa using hterm⟩
  obtain ⟨first, hfirst⟩ := isSome_iff_exists.mp hsome
  have hmem := mem_of_find?_eq_some hfirst
  have hterm' : first.term = s.currentTerm := by simpa using find?_some hfirst
  exact ⟨first, hfirst, h.recorded.committed_of_run first hmem (hrun first hmem hterm')⟩

/-- **Configuration changes keep quorums overlapping.** Whatever peers are added, removed and
changed, whichever of them catch up, and whatever configuration a leader has found in its log:
quorums of two consecutive configuration entries of a leader have a peer in common. No two changes
are in progress, and a change starts only when none is in progress and the first configuration entry
of the leader is committed. -/
theorem changes_overlap (h : (system P K serverId).Reachable s) :
    (∀ i e e', s.entries[i]? = some e → s.entries[i + 1]? = some e' → e.term = e'.term →
        QuorumsMeet (e.conf, e.oldConf) (e'.conf, e'.oldConf)) ∧
      s.progress.length ≤ 1 ∧
      ∀ e s', (system P K serverId).step s e s' → s'.started ≠ s.started → s.progress = [] ∧
          ∃ first, s.entries.find? (·.term = s.currentTerm) = some first ∧ first.committed := by
  have hinv := Inv.reachable h
  refine ⟨hinv.recorded.meet, hinv.progress, fun e s' hstep hstarted => ?_⟩
  obtain ⟨hstate, hstage⟩ := started_step hstep hstarted
  exact ⟨hinv.progress_of_none hstage, hinv.first_committed hstate hstage⟩

end Runs

namespace Sample

def conf : Configuration (Fin 5) := ⟨[0, 1, 2], by decide⟩

def conf' : Configuration (Fin 5) := ⟨[0, 3, 4], by decide⟩

/-- Node `0` leads, its first entry is committed, and two of the three peers are replaced: the new
ones catch up, and the entry under both configurations is committed. -/
def replacement : List (Event (Fin 5) Unit) :=
  [.configure conf .empty, .electSelf, .becomeLeader true, .commit 0, .changeDone 0 true,
   .changePeers conf' none (fun _ => true) true, .caughtUp ⟨4, 1, 1⟩ .ok true,
   .caughtUp ⟨3, 1, 1⟩ .ok true, .commit 1, .changeDone 1 true]

def after (events : List (Event (Fin 5) Unit)) : ConfNode (Fin 5) Unit :=
  (events.foldlM ConfNode.step (init 0)).getD (init 0)

end Sample

theorem changes_overlap_replacement :
    (Sample.after Sample.replacement).entries.map (fun e => (e.conf, e.oldConf)) =
        [(Sample.conf, none), (Sample.conf', some Sample.conf), (Sample.conf', none)] ∧
      QuorumsMeet (Sample.conf, none) (Sample.conf', some Sample.conf) ∧
      (Sample.after Sample.replacement).progress.length ≤ 1 := by
  have hrun : Sample.replacement.foldlM step (init 0) =
      some (Sample.after Sample.replacement) := rfl
  have hreach : (system (Fin 5) Unit 0).Reachable (Sample.after Sample.replacement) :=
    ⟨init 0, rfl, System.run_of_foldlM hrun⟩
  obtain ⟨hmeet, hprogress, -⟩ := changes_overlap hreach
  exact ⟨rfl, hmeet 0 _ _ rfl rfl rfl, hprogress⟩

end ConfNode

end Braft.Joint
