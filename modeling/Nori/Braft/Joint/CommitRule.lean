import Nori.Braft.Joint.BallotBox
import Nori.Transition.System

/-!
# The commit rule

The ballot box of one node, through its leaderships: it is reset when the node becomes leader, gets
a ballot for each entry that the leader proposes under whatever configurations, hears which peers
have the entries, and is cleared when the leader steps down. In between, a follower is told what is
committed. Beside the box a leadership knows what was proposed in it, and how far each peer has the
log of the leader.

Committing an entry commits all entries before it, also those that their own configurations have not
granted: each of them is at a majority of the configurations of the entry that was granted.
-/

namespace Braft.Joint

open Transition Option

/-- A ballot box, the pending index that `become_leader` has set, the configurations of the entries
proposed since, and the last index up to which each peer has the log of the leader. -/
structure Leadership (P K : Type) where
  box : BallotBox P K
  first : ℕ
  proposed : List (Configuration P × Option (Configuration P))
  held : P → ℕ

/-- A call of a function of the ballot box; `persist` is a peer that gets more of the log. -/
inductive BoxEvent (P K : Type)
  | resetPendingIndex (newPendingIndex : ℕ) (held : P → ℕ)
  | persist (peer : P) (index : ℕ)
  | appendPendingTask (conf : Configuration P) (oldConf : Option (Configuration P))
      (closure : Option K)
  | commitAt (firstLogIndex lastLogIndex : ℕ) (peer : P)
  | clearPendingTasks
  | setLastCommittedIndex (index : ℕ)

namespace Leadership

variable {P K : Type} [DecidableEq P]

def init : Leadership P K := ⟨BallotBox.init, 0, [], fun _ => 0⟩

/-- The box is reset as its `CHECK`s ask for, and a peer is counted only for what it has. -/
def step (s : Leadership P K) : BoxEvent P K → Option (Leadership P K)
  | .resetPendingIndex newPendingIndex held =>
    if s.box.pendingIndex = 0 ∧ s.box.pendingMetaQueue.isEmpty ∧
        s.box.lastCommittedIndex < newPendingIndex then
      some ⟨s.box.resetPendingIndex newPendingIndex, newPendingIndex, [], held⟩
    else none
  | .persist peer index =>
    if s.held peer ≤ index then some { s with held := Function.update s.held peer index } else none
  | .appendPendingTask conf oldConf closure =>
    some { s with
      box := s.box.appendPendingTask conf oldConf closure
      proposed := s.proposed ++ [(conf, oldConf)] }
  | .commitAt firstLogIndex lastLogIndex peer =>
    if lastLogIndex ≤ s.held peer then
      some { s with box := (s.box.commitAt firstLogIndex lastLogIndex peer).2.1 }
    else none
  | .clearPendingTasks => some { s with box := s.box.clearPendingTasks.1 }
  | .setLastCommittedIndex index => some { s with box := (s.box.setLastCommittedIndex index).1 }

/-- The ballot box of a node. -/
def system (P K : Type) [DecidableEq P] : System (Leadership P K) (BoxEvent P K) :=
  System.ofStep init step

/-- A peer has the log of the leader up to an index. -/
def Holds (s : Leadership P K) (index : ℕ) (peer : P) : Prop := index ≤ s.held peer

/-- What holds of the ballots while a node leads. -/
structure Leads (s : Leadership P K) : Prop where
  first_le : s.first ≤ s.box.pendingIndex
  committed_lt : s.box.lastCommittedIndex < s.box.pendingIndex
  proposals : s.box.pendingMetaQueue.map Ballot.proposal =
    s.proposed.drop (s.box.pendingIndex - s.first)
  proposed_le : s.box.pendingIndex ≤ s.first + s.proposed.length
  sound : BallotBox.SoundFrom s.Holds s.box.pendingIndex s.box.pendingMetaQueue

/-- The invariant: a pending index other than `0` says that the node leads. -/
def Inv (s : Leadership P K) : Prop := s.box.pendingIndex ≠ 0 → s.Leads

variable {s s' : Leadership P K}

theorem Leads.proposed_of_decided (h : s.Leads) {c : ℕ} (hc : BallotBox.Decided s.Holds s.box c) :
    s.box.pendingIndex ≤ c ∧ ∃ conf oldConf, s.proposed[c - s.first]? = some (conf, oldConf) ∧
      Supported conf oldConf (s.Holds c) := by
  obtain ⟨hle, bl, hbl, hsupported⟩ := hc
  have hmap := congrArg (·[c - s.box.pendingIndex]?) h.proposals
  have hindex : s.box.pendingIndex - s.first + (c - s.box.pendingIndex) = c - s.first := by
    have := h.first_le
    omega
  simp only [List.getElem?_map, hbl, map_some, List.getElem?_drop, hindex] at hmap
  exact ⟨hle, bl.conf, bl.oldConf, hmap.symm, hsupported⟩

theorem Leads.commitAt (h : s.Leads) {box' : BallotBox P K}
    (hbox : BallotBox.Committing s.Holds s.box box') : Leads { s with box := box' } := by
  obtain ⟨hle, hproposals⟩ := hbox.proposals
  have hfirst := h.first_le
  have hproposed := h.proposed_le
  refine ⟨hfirst.trans hle, ?_, ?_, ?_, hbox.sound⟩
  · rcases hbox.decided with ⟨hlast, hpending⟩ | ⟨-, -, hpending⟩
    · exact hlast ▸ hpending ▸ h.committed_lt
    · exact hpending ▸ Nat.lt_succ_self _
  · dsimp only
    rw [hproposals, h.proposals, List.drop_drop]
    congr 1
    omega
  · rcases hbox.decided with ⟨-, hpending⟩ | ⟨-, hdecided, hpending⟩
    · exact hpending ▸ hproposed
    · obtain ⟨-, conf, oldConf, hc, -⟩ := h.proposed_of_decided hdecided
      have hlt := (List.getElem?_eq_some_iff.mp hc).1
      dsimp only
      omega

theorem Inv.step {e : BoxEvent P K} (h : s.Inv) (hstep : s.step e = some s') : s'.Inv := by
  cases e with
  | resetPendingIndex newPendingIndex held =>
    obtain ⟨⟨hpending, hempty, hlt⟩, rfl⟩ := ite_some_none_eq_some.mp hstep
    have hnil : s.box.pendingMetaQueue = [] := List.isEmpty_iff.mp hempty
    refine fun _ => ⟨le_rfl, hlt, ?_, le_rfl, ?_⟩
    · simp [BallotBox.resetPendingIndex, hnil]
    · intro j bl hj
      simp [BallotBox.resetPendingIndex, hnil] at hj
  | persist peer index =>
    obtain ⟨hle, rfl⟩ := ite_some_none_eq_some.mp hstep
    intro hpending
    have hleads := h hpending
    refine { hleads with sound j bl hj v hv := ?_ }
    have hheld := hleads.sound j bl hj v hv
    dsimp only [Holds] at hheld ⊢
    by_cases hv : v = peer
    · subst hv
      rw [Function.update_self]
      exact hheld.trans hle
    · rwa [Function.update_of_ne hv]
  | appendPendingTask conf oldConf closure =>
    cases hstep
    intro hpending
    have hleads := h hpending
    have hproposed := hleads.proposed_le
    refine { hleads with
      proposals := ?_
      proposed_le := ?_
      sound := hleads.sound.append conf oldConf 1 }
    · dsimp only [BallotBox.appendPendingTask]
      rw [List.map_append, hleads.proposals, List.map_singleton, Ballot.proposal_init,
        List.drop_append_of_le_length (by omega)]
    · dsimp only [BallotBox.appendPendingTask]
      rw [List.length_append]
      omega
  | commitAt firstLogIndex lastLogIndex peer =>
    obtain ⟨hlast, rfl⟩ := ite_some_none_eq_some.mp hstep
    by_cases hzero : s.box.pendingIndex = 0
    · rw [BallotBox.commitAt_of_eq_zero hzero]
      exact h
    · have hleads := h hzero
      exact fun _ => hleads.commitAt
        (BallotBox.commitAt_cases hleads.sound fun i _ hi _ => hi.trans hlast).1
  | clearPendingTasks =>
    cases hstep
    exact fun hpending => absurd rfl hpending
  | setLastCommittedIndex index =>
    cases hstep
    rcases s.box.setLastCommittedIndex_cases index with heq | ⟨hzero, -, heq⟩
    · rw [heq]
      exact h
    · rw [heq]
      exact fun hpending => absurd hzero hpending

theorem Inv.reachable (h : (system P K).Reachable s) : s.Inv := by
  refine h.invariant ?_ fun s e s' hstep hinv => hinv.step hstep
  rintro s rfl
  exact fun hpending => absurd rfl hpending

theorem Inv.committed {e : BoxEvent P K} (h : s.Inv) (hstep : s.step e = some s') :
    s'.box.lastCommittedIndex = s.box.lastCommittedIndex ∨
      (s.box.pendingIndex ≠ 0 ∧ BallotBox.Decided s.Holds s.box s'.box.lastCommittedIndex) ∨
      s.box.pendingIndex = 0 ∧ s.box.lastCommittedIndex < s'.box.lastCommittedIndex := by
  cases e with
  | resetPendingIndex newPendingIndex held | persist peer index =>
    obtain ⟨-, rfl⟩ := ite_some_none_eq_some.mp hstep
    exact .inl rfl
  | appendPendingTask conf oldConf closure | clearPendingTasks =>
    cases hstep
    exact .inl rfl
  | commitAt firstLogIndex lastLogIndex peer =>
    obtain ⟨hlast, rfl⟩ := ite_some_none_eq_some.mp hstep
    by_cases hzero : s.box.pendingIndex = 0
    · exact .inl (by rw [BallotBox.commitAt_of_eq_zero hzero])
    · have hcommit : BallotBox.Committing s.Holds s.box
          (s.box.commitAt firstLogIndex lastLogIndex peer).2.1 :=
        (BallotBox.commitAt_cases (h hzero).sound fun i _ hi _ => hi.trans hlast).1
      rcases hcommit.decided with ⟨hsame, -⟩ | ⟨-, hdecided, -⟩
      · exact .inl hsame
      · exact .inr (.inl ⟨hzero, hdecided⟩)
  | setLastCommittedIndex index =>
    cases hstep
    rcases s.box.setLastCommittedIndex_cases index with heq | ⟨hzero, hlt, heq⟩
    · exact .inl (by rw [heq])
    · exact .inr (.inr ⟨hzero, by rw [heq]; exact hlt⟩)

/-- **The commit rule.** However configurations change and acknowledgements overlap, the last
committed index never decreases. When it becomes `c` while a node leads, `c` is not below the
pending index of the leadership, and every index up to `c` that was proposed in the leadership is at
majorities of the configurations under which an index between it and `c` was proposed. -/
theorem commit_rule {e : BoxEvent P K} (h : (system P K).Reachable s)
    (hstep : (system P K).step s e s') :
    s.box.lastCommittedIndex ≤ s'.box.lastCommittedIndex ∧
      (s.box.pendingIndex ≠ 0 → s'.box.lastCommittedIndex ≠ s.box.lastCommittedIndex →
        s.first ≤ s'.box.lastCommittedIndex ∧ ∀ i, s.first ≤ i → i ≤ s'.box.lastCommittedIndex →
            ∃ j, i ≤ j ∧ j ≤ s'.box.lastCommittedIndex ∧
              ∃ conf oldConf, s.proposed[j - s.first]? = some (conf, oldConf) ∧
                Supported conf oldConf (s.Holds i)) := by
  have hinv := Inv.reachable h
  rcases hinv.committed hstep with heq | ⟨hne, hdecided⟩ | ⟨hzero, hlt⟩
  · exact ⟨heq.ge, fun _ hchange => absurd heq hchange⟩
  · have hleads := hinv hne
    have hfirst := hleads.first_le
    have hlast := hleads.committed_lt
    obtain ⟨hle, conf, oldConf, hc, hsupported⟩ := hleads.proposed_of_decided hdecided
    refine ⟨(hlast.trans_le hle).le, fun _ _ => ⟨hfirst.trans hle, fun i _ hi => ?_⟩⟩
    -- a peer that has the entry at `c` has those before it
    exact ⟨_, hi, le_rfl, conf, oldConf, hc, hsupported.mono fun v hv => hi.trans hv⟩
  · exact ⟨hlt.le, fun hne => absurd hzero hne⟩

namespace Sample

/-- Four peers, and three of them. -/
def four : Configuration (Fin 4) := ⟨[0, 1, 2, 3], by decide⟩

def three : Configuration (Fin 4) := ⟨[0, 1, 2], by decide⟩

/-- Peer `3` is removed: an entry is proposed under four peers, the next one under three. Two of
them have both. -/
def removal : List (BoxEvent (Fin 4) Unit) :=
  [.resetPendingIndex 5 fun _ => 4, .appendPendingTask four none none,
   .appendPendingTask three none none, .persist 0 6, .commitAt 5 6 0, .persist 1 6]

def after (events : List (BoxEvent (Fin 4) Unit)) : Leadership (Fin 4) Unit :=
  (events.foldlM step init).getD init

end Sample

open Leadership.Sample

theorem commit_rule_removal : (after removal).box.lastCommittedIndex = 0 ∧
      (after (removal ++ [.commitAt 5 6 1])).box.lastCommittedIndex = 6 ∧
      ∃ j, 5 ≤ j ∧ j ≤ 6 ∧ ∃ conf oldConf, (after removal).proposed[j - 5]? = some (conf, oldConf) ∧
          Supported conf oldConf ((after removal).Holds 5) := by
  have hrun : removal.foldlM step init = some (after removal) := rfl
  have hreach : (system (Fin 4) Unit).Reachable (after removal) :=
    ⟨init, rfl, System.run_of_foldlM hrun⟩
  have hstep : (system (Fin 4) Unit).step (after removal) (.commitAt 5 6 1)
      (after (removal ++ [.commitAt 5 6 1])) := rfl
  have hlast : (after (removal ++ [.commitAt 5 6 1])).box.lastCommittedIndex = 6 := rfl
  have hrule := (commit_rule hreach hstep).2 (by decide) (by decide)
  rw [hlast] at hrule
  exact ⟨rfl, hlast, hrule.2 5 (by decide) (by decide)⟩

end Leadership

end Braft.Joint
