import Nori.Consensus.Log

/-!
# Configurations and ballots

A configuration is the set of peers of a group, a ballot collects the grants of its peers until a
quorum of them is there. The configuration stays the same here, so a ballot has one set of peers
(`_old_peers` is empty), and the position hint of `grant`, which only saves a search, is left out.
-/

namespace Braft

open List

/-- A set of peers, in the order in which it is iterated over. -/
structure Configuration (P : Type) where
  peers : List P
  nodup : peers.Nodup

namespace Configuration

variable {P : Type} [DecidableEq P]

def contains (conf : Configuration P) (peer : P) : Bool := decide (peer ∈ conf.peers)

def members (conf : Configuration P) : Finset P := conf.peers.toFinset

end Configuration

/-- A peer of a ballot, and whether it has granted. -/
structure UnfoundPeerId (P : Type) where
  peerId : P
  found : Bool
deriving DecidableEq

/-- Who of the peers of a configuration has granted. `quorum` counts down from a majority. -/
structure Ballot {P : Type} (conf : Configuration P) where
  peers : List (UnfoundPeerId P)
  quorum : ℤ
  ids : peers.map UnfoundPeerId.peerId = conf.peers
  balance : quorum + peers.countP (·.found) = conf.peers.length / 2 + 1

namespace Ballot

variable {P : Type} {conf : Configuration P}

def init (conf : Configuration P) : Ballot conf where
  peers := conf.peers.map (⟨·, false⟩)
  quorum := conf.peers.length / 2 + 1
  ids := by
    rw [map_map]
    exact map_id' conf.peers
  balance := by simp [countP_map, Function.comp_def]

def granted (b : Ballot conf) : Bool := decide (b.quorum ≤ 0)

/-- A peer has granted. -/
def Found (b : Ballot conf) (peer : P) : Prop := ⟨peer, true⟩ ∈ b.peers

theorem not_found_init (peer : P) : ¬ (init conf).Found peer := by simp [init, Found]

variable [DecidableEq P]

/-- The entry of a peer, marked. -/
def mark (peer : P) (u : UnfoundPeerId P) : UnfoundPeerId P :=
  if u.peerId = peer then { u with found := true } else u

theorem peerId_mark (peer : P) (u : UnfoundPeerId P) : (mark peer u).peerId = u.peerId := by
  unfold mark
  split <;> rfl

theorem countP_map_mark {us : List (UnfoundPeerId P)} {peer : P}
    (hnodup : (us.map UnfoundPeerId.peerId).Nodup) (hmem : ⟨peer, false⟩ ∈ us) :
    (us.map (mark peer)).countP (·.found) = us.countP (·.found) + 1 := by
  induction us with
  | nil => cases hmem
  | cons u us ih =>
    rw [map_cons, nodup_cons] at hnodup
    rw [map_cons, countP_cons, countP_cons]
    rcases mem_cons.mp hmem with rfl | hmem
    · -- the peer does not stand in the rest of the list
      have hrest : us.map (mark peer) = us := by
        refine (map_congr_left fun v hv => ?_).trans (map_id us)
        refine if_neg ?_
        intro heq
        exact hnodup.1 (mem_map.mpr ⟨v, hv, heq⟩)
      simp [hrest, mark]
    · have hne : u.peerId ≠ peer := by
        intro heq
        exact hnodup.1 (mem_map.mpr ⟨_, hmem, heq.symm⟩)
      rw [ih hnodup.2 hmem, mark, if_neg hne]
      omega

def grant (b : Ballot conf) (peer : P) : Ballot conf :=
  if h : ⟨peer, false⟩ ∈ b.peers then
    { peers := b.peers.map (mark peer)
      quorum := b.quorum - 1
      ids := by
        rw [map_map, ← b.ids]
        exact map_congr_left fun u _ => peerId_mark peer u
      balance := by
        rw [countP_map_mark (b.ids ▸ conf.nodup) h]
        have hbalance := b.balance
        push_cast
        omega }
  else b

theorem found_grant {b : Ballot conf} {peer v : P} (h : (b.grant peer).Found v) :
    b.Found v ∨ v = peer := by
  unfold grant at h
  split at h
  swap
  · exact .inl h
  obtain ⟨u, hu, hmark⟩ := mem_map.mp h
  unfold mark at hmark
  split at hmark
  next heq =>
    have hv : u.peerId = v := congrArg UnfoundPeerId.peerId hmark
    exact .inr (hv.symm.trans heq)
  next =>
    subst hmark
    exact .inl hu

theorem forall_found_grant {b : Ballot conf} {peer : P} {p : P → Prop} (h : ∀ v, b.Found v → p v)
    (hpeer : p peer) : ∀ v, (b.grant peer).Found v → p v := by
  intro v hv
  rcases found_grant hv with hv | rfl
  · exact h v hv
  · exact hpeer

/-- **A ballot that is granted is granted by a majority of the configuration.** -/
theorem majority_of_granted {b : Ballot conf} (h : b.granted) :
    ∃ Q, Consensus.Majority conf.members Q ∧ ∀ v ∈ Q, b.Found v := by
  have hnodup : ((b.peers.filter (·.found)).map UnfoundPeerId.peerId).Nodup :=
    (b.ids ▸ conf.nodup).sublist (filter_sublist.map _)
  refine ⟨((b.peers.filter (·.found)).map UnfoundPeerId.peerId).toFinset, ⟨?_, ?_⟩, ?_⟩
  · intro v hv
    obtain ⟨u, hu, rfl⟩ := mem_map.mp (mem_toFinset.mp hv)
    rw [Configuration.members, mem_toFinset, ← b.ids]
    exact mem_map_of_mem (mem_of_mem_filter hu)
  · rw [Configuration.members, toFinset_card_of_nodup conf.nodup,
      toFinset_card_of_nodup hnodup, length_map, ← countP_eq_length_filter]
    have hbalance := b.balance
    have hquorum : b.quorum ≤ 0 := of_decide_eq_true h
    omega
  · intro v hv
    obtain ⟨u, hu, rfl⟩ := mem_map.mp (mem_toFinset.mp hv)
    obtain ⟨hu, hfound⟩ := mem_filter.mp hu
    have hself : (⟨u.peerId, true⟩ : UnfoundPeerId P) = u := by rw [← hfound]
    exact hself ▸ hu

end Ballot

end Braft
