import Nori.Braft.Ballot

/-!
# Ballots of changing configurations

While a configuration changes, an entry may need the grants of a majority of both the new and the
old peers. Peers are looked up with a hint, the position at which the last ballot had them: ballots
of different configurations stand next to each other, so the hint may be wrong.
-/

namespace Braft

open Option List

namespace Joint

variable {P : Type} [DecidableEq P]

/-- The position of a peer; the hint is tried first. -/
def findPeer (peer : P) (peers : List (UnfoundPeerId P)) (posHint : ℤ) : Option ℕ :=
  if posHint < 0 ∨ (peers.length : ℤ) ≤ posHint ∨
      peers[posHint.toNat]?.map UnfoundPeerId.peerId ≠ some peer then
    peers.findIdx? (·.peerId = peer)
  else some posHint.toNat

theorem findPeer_eq_some {peer : P} {peers : List (UnfoundPeerId P)} {hint : ℤ} {i : ℕ}
    (h : findPeer peer peers hint = some i) : ∃ u, peers[i]? = some u ∧ u.peerId = peer := by
  unfold findPeer at h
  split at h
  next =>
    obtain ⟨hlt, hpeer, -⟩ := findIdx?_eq_some_iff_getElem.mp h
    exact ⟨peers[i], getElem?_eq_getElem hlt, of_decide_eq_true hpeer⟩
  next hhint =>
    cases h
    rw [not_or, not_or, not_not] at hhint
    exact map_eq_some_iff.mp hhint.2.2

theorem findPeer_eq_none {peer : P} {peers : List (UnfoundPeerId P)} {hint : ℤ}
    (h : findPeer peer peers hint = none) : ∀ u ∈ peers, u.peerId ≠ peer := by
  unfold findPeer at h
  split at h
  · intro u hu
    simpa using findIdx?_eq_none_iff.mp h u hu
  · cases h

end Joint

namespace Ballot

variable {P : Type} {conf : Configuration P}

theorem eq_of_peers {b b' : Ballot conf} (h : b.peers = b'.peers) : b = b' := by
  obtain ⟨peers, quorum, ids, balance⟩ := b
  obtain ⟨peers', quorum', ids', balance'⟩ := b'
  obtain rfl : peers = peers' := h
  obtain rfl : quorum = quorum' := by omega
  rfl

/-- The peer at a position grants, unless it has already. -/
def found (b : Ballot conf) (i : ℕ) : Ballot conf :=
  match h : b.peers[i]? with
  | some ⟨peer, false⟩ =>
    { peers := b.peers.set i ⟨peer, true⟩
      quorum := b.quorum - 1
      ids := by
        have hlt : i < b.peers.length := (List.getElem?_eq_some_iff.mp h).1
        rw [← b.ids]
        refine ext_getElem? fun j => ?_
        rw [getElem?_map, getElem?_map]
        by_cases hj : i = j
        · subst hj
          rw [getElem?_set_self hlt, h]
          rfl
        · rw [getElem?_set_ne hj]
      balance := by
        obtain ⟨hlt, heq⟩ := List.getElem?_eq_some_iff.mp h
        have hcount := b.balance
        rw [countP_set hlt, heq]
        simp only [Bool.false_eq_true, if_false, if_true]
        push_cast
        omega }
  | _ => b

variable (b : Ballot conf)

theorem peers_inj {i j : ℕ} {u v : UnfoundPeerId P} (hi : b.peers[i]? = some u)
    (hj : b.peers[j]? = some v) (h : u.peerId = v.peerId) : i = j := by
  refine (getElem?_inj ?_ (b.ids ▸ conf.nodup)).mp ?_
  · rw [length_map]
    exact (List.getElem?_eq_some_iff.mp hi).1
  · rw [getElem?_map, getElem?_map, hi, hj, map_some, map_some, h]

theorem peers_found_of_false {peer : P} {i : ℕ}
    (h : b.peers[i]? = some ⟨peer, false⟩) : (b.found i).peers = b.peers.set i ⟨peer, true⟩ := by
  unfold found
  split
  next id hid =>
    cases hid.symm.trans h
    rfl
  next hnot => exact absurd h (hnot peer)

theorem found_of_true {peer : P} {i : ℕ} (h : b.peers[i]? = some ⟨peer, true⟩) : b.found i = b := by
  unfold found
  split
  next id hid => cases hid.symm.trans h
  next => rfl

variable [DecidableEq P]

/-- `grant` with a hint for one set of peers; the position that was found is the next hint. -/
def grantAt (b : Ballot conf) (peer : P) (pos : ℤ) : Ballot conf × ℤ :=
  match Joint.findPeer peer b.peers pos with
  | some i => (b.found i, i)
  | none => (b, -1)

theorem peers_grant (b : Ballot conf) (peer : P) :
    (b.grant peer).peers = b.peers.map (mark peer) := by
  unfold grant
  split
  · rfl
  next hnot =>
    refine ((map_congr_left fun u hu => ?_).trans (map_id _)).symm
    obtain ⟨id, found⟩ := u
    unfold mark
    split
    next heq =>
      -- a peer that is here has granted already
      subst heq
      cases found with
      | false => exact absurd hu hnot
      | true => rfl
    next => rfl

theorem peers_found (b : Ballot conf) {peer : P} {i : ℕ} {u : UnfoundPeerId P}
    (hu : b.peers[i]? = some u) (hpeer : u.peerId = peer) :
    (b.found i).peers = b.peers.map (mark peer) := by
  have hlt : i < b.peers.length := (List.getElem?_eq_some_iff.mp hu).1
  have hother : ∀ j, i ≠ j → (b.peers.map (mark peer))[j]? = b.peers[j]? := by
    intro j hij
    rw [getElem?_map]
    cases hv : b.peers[j]? with
    | none => rfl
    | some v =>
      refine congrArg some (if_neg fun hvpeer => ?_)
      exact hij (b.peers_inj hu hv (hpeer.trans hvpeer.symm))
  obtain ⟨id, found⟩ := u
  obtain rfl : id = peer := hpeer
  refine ext_getElem? fun j => ?_
  by_cases hij : i = j
  · subst hij
    cases found with
    | false =>
      rw [b.peers_found_of_false hu, getElem?_set_self hlt, getElem?_map, hu]
      simp [mark]
    | true =>
      rw [b.found_of_true hu, getElem?_map, hu]
      simp [mark]
  · rw [hother j hij]
    cases found with
    | false => rw [b.peers_found_of_false hu, getElem?_set_ne hij]
    | true => rw [b.found_of_true hu]

/-- **A hint changes nothing but where the search ends.** -/
theorem grantAt_fst (b : Ballot conf) (peer : P) (pos : ℤ) :
    (b.grantAt peer pos).1 = b.grant peer := by
  refine eq_of_peers ?_
  rw [peers_grant, grantAt]
  split
  next i hfind =>
    obtain ⟨u, hu, hpeer⟩ := Joint.findPeer_eq_some hfind
    exact b.peers_found hu hpeer
  next hfind =>
    refine ((map_congr_left fun u hu => ?_).trans (map_id _)).symm
    exact if_neg (Joint.findPeer_eq_none hfind u hu)

theorem peers_foldl_grant (conf : Configuration P) (peers : List P) :
    (peers.foldl grant (init conf)).peers = conf.peers.map fun v => ⟨v, decide (v ∈ peers)⟩ := by
  induction peers using reverseRecOn with
  | nil => simp [init]
  | append_singleton peers peer ih =>
    rw [List.foldl_concat, peers_grant, ih, List.map_map]
    refine map_congr_left fun v _ => ?_
    by_cases hv : v = peer <;> simp [mark, hv]

end Ballot

namespace Joint

/-- Where the last ballot had a peer, among the new and the old peers. -/
structure PosHint where
  pos0 : ℤ := -1
  pos1 : ℤ := -1

/-- The ballot of a configuration, and the one of the old configuration if the entry is proposed
under both. -/
structure Ballot (P : Type) where
  conf : Configuration P
  ballot : Braft.Ballot conf
  old : Option ((oldConf : Configuration P) × Braft.Ballot oldConf)

namespace Ballot

variable {P : Type}

def init (conf : Configuration P) (oldConf : Option (Configuration P)) : Ballot P where
  conf := conf
  ballot := Braft.Ballot.init conf
  old := oldConf.map fun oldConf => ⟨oldConf, Braft.Ballot.init oldConf⟩

def granted (b : Ballot P) : Bool := b.ballot.granted && b.old.all (·.2.granted)

/-- The configuration before a change that is under way. -/
def oldConf (b : Ballot P) : Option (Configuration P) := b.old.map Sigma.fst

/-- The configurations under which an entry is proposed. -/
def proposal (b : Ballot P) : Configuration P × Option (Configuration P) := (b.conf, b.oldConf)

/-- A peer has granted, as a new or as an old one. -/
def Found (b : Ballot P) (peer : P) : Prop := b.ballot.Found peer ∨ ∃ old ∈ b.old, old.2.Found peer

theorem not_found_init (conf : Configuration P) (oldConf : Option (Configuration P)) (peer : P) :
    ¬ (init conf oldConf).Found peer := by
  rintro (h | ⟨old, hold, h⟩)
  · exact Braft.Ballot.not_found_init peer h
  · obtain ⟨conf', -, rfl⟩ := map_eq_some_iff.mp hold
    exact Braft.Ballot.not_found_init peer h

theorem proposal_init (conf : Configuration P) (old : Option (Configuration P)) :
    (init conf old).proposal = (conf, old) := by
  cases old <;> rfl

variable [DecidableEq P]

def grant (b : Ballot P) (peer : P) (hint : PosHint) : Ballot P × PosHint :=
  let (ballot, pos0) := b.ballot.grantAt peer hint.pos0
  match b.old with
  | none => (⟨b.conf, ballot, none⟩, ⟨pos0, -1⟩)
  | some ⟨oldConf, old⟩ =>
    if old.peers = [] then (⟨b.conf, ballot, some ⟨oldConf, old⟩⟩, ⟨pos0, -1⟩)
    else
      let (old, pos1) := old.grantAt peer hint.pos1
      (⟨b.conf, ballot, some ⟨oldConf, old⟩⟩, ⟨pos0, pos1⟩)

theorem grant_fst (b : Ballot P) (peer : P) (hint : PosHint) : (b.grant peer hint).1 =
      ⟨b.conf, b.ballot.grant peer, b.old.map fun old => ⟨old.1, old.2.grant peer⟩⟩ := by
  obtain ⟨conf, ballot, old⟩ := b
  unfold grant
  cases old with
  | none => simp only [Braft.Ballot.grantAt_fst, map_none]
  | some old =>
    obtain ⟨oldConf, old⟩ := old
    dsimp only
    split
    next hempty =>
      -- there are no old peers to grant
      have hsame : old.grant peer = old := by
        refine Braft.Ballot.eq_of_peers ?_
        rw [Braft.Ballot.peers_grant, hempty]
        rfl
      simp only [Braft.Ballot.grantAt_fst, map_some, hsame]
    next => simp only [Braft.Ballot.grantAt_fst, map_some]

theorem proposal_grant (b : Ballot P) (peer : P) (hint : PosHint) :
    (b.grant peer hint).1.proposal = b.proposal := by
  rw [grant_fst, proposal, proposal, oldConf, oldConf, Option.map_map]
  rfl

theorem found_grant {b : Ballot P} {peer v : P} {hint : PosHint}
    (h : (b.grant peer hint).1.Found v) : b.Found v ∨ v = peer := by
  rw [grant_fst] at h
  rcases h with h | ⟨old, hold, h⟩
  · exact (Braft.Ballot.found_grant h).imp_left .inl
  · obtain ⟨old', hold', rfl⟩ := map_eq_some_iff.mp hold
    exact (Braft.Ballot.found_grant h).imp_left fun hv => .inr ⟨old', hold', hv⟩

end Ballot

/-- The peers that satisfy `R` are a majority of a configuration. -/
def MostOf {P : Type} [DecidableEq P] (conf : Configuration P) (R : P → Prop) : Prop :=
  ∃ Q, Consensus.Majority conf.members Q ∧ ∀ v ∈ Q, R v

/-- The peers that satisfy `R` are a majority of a configuration, and of the old one if there is
one. -/
def Supported {P : Type} [DecidableEq P] (conf : Configuration P)
    (oldConf : Option (Configuration P)) (R : P → Prop) : Prop :=
  MostOf conf R ∧ ∀ old ∈ oldConf, MostOf old R

theorem Supported.mono {P : Type} [DecidableEq P] {conf : Configuration P}
    {oldConf : Option (Configuration P)} {R R' : P → Prop} (h : Supported conf oldConf R)
    (hR : ∀ v, R v → R' v) : Supported conf oldConf R' := by
  have hmost : ∀ {c}, MostOf c R → MostOf c R' := by
    rintro c ⟨Q, hQ, hv⟩
    exact ⟨Q, hQ, fun v hvQ => hR v (hv v hvQ)⟩
  exact ⟨hmost h.1, fun old hold => hmost (h.2 old hold)⟩

/-- **A granted ballot has majorities of its configurations.** -/
theorem Ballot.supported_of_granted {P : Type} [DecidableEq P] {b : Ballot P} (h : b.granted) :
    Supported b.conf b.oldConf b.Found := by
  obtain ⟨hnew, hold⟩ := (Bool.and_eq_true_iff ..).mp h
  refine ⟨?_, fun conf hconf => ?_⟩
  · obtain ⟨Q, hQ, hfound⟩ := Braft.Ballot.majority_of_granted hnew
    exact ⟨Q, hQ, fun v hv => .inl (hfound v hv)⟩
  · obtain ⟨old, hmem, rfl⟩ := map_eq_some_iff.mp hconf
    rw [hmem] at hold
    obtain ⟨Q, hQ, hfound⟩ := Braft.Ballot.majority_of_granted hold
    exact ⟨Q, hQ, fun v hv => .inr ⟨old, hmem, hfound v hv⟩⟩

variable {P : Type} [DecidableEq P]

theorem granted_foldl_grant (conf : Configuration P) (peers : List P) :
    (peers.foldl Braft.Ballot.grant (.init conf)).granted ↔ MostOf conf (· ∈ peers) := by
  have hbalance := (peers.foldl Braft.Ballot.grant (.init conf)).balance
  have hmembers : conf.members.card = conf.peers.length := toFinset_card_of_nodup conf.nodup
  -- the marked peers are those of the configuration that have granted
  have hcard : (conf.members.filter (· ∈ peers)).card =
      (peers.foldl Braft.Ballot.grant (.init conf)).peers.countP (·.found) := by
    rw [Braft.Ballot.peers_foldl_grant, countP_map, countP_eq_length_filter,
      ← toFinset_card_of_nodup (conf.nodup.filter _)]
    congr 1
    ext v
    simp [Configuration.members]
  rw [Braft.Ballot.granted, decide_eq_true_iff]
  refine ⟨fun hquorum => ⟨conf.members.filter (· ∈ peers), ⟨Finset.filter_subset _ _, by omega⟩,
    fun v hv => (Finset.mem_filter.mp hv).2⟩, ?_⟩
  rintro ⟨Q, hQ, hpeers⟩
  have hle := Finset.card_le_card fun v hv => Finset.mem_filter.mpr ⟨hQ.subset hv, hpeers v hv⟩
  have hhalf := hQ.half
  omega

theorem Ballot.foldl_grant (conf : Configuration P) (oldConf : Option (Configuration P))
    (grants : List (P × PosHint)) :
    grants.foldl (fun b g => (b.grant g.1 g.2).1) (init conf oldConf) =
      ⟨conf, (grants.map Prod.fst).foldl Braft.Ballot.grant (.init conf), oldConf.map fun old =>
        ⟨old, (grants.map Prod.fst).foldl Braft.Ballot.grant (.init old)⟩⟩ := by
  induction grants using reverseRecOn with
  | nil => rfl
  | append_singleton grants g ih =>
    rw [foldl_concat, ih, grant_fst]
    simp [Function.comp_def]

/-- **A ballot counts the peers that have granted.** Whatever peers grant, however often and with
whatever hints, the ballot is granted if and only if those of them that are in the configuration are
a majority of it, and so for the old configuration if there is one. -/
theorem Ballot.granted_iff_supported (conf : Configuration P) (oldConf : Option (Configuration P))
    (grants : List (P × PosHint)) :
    (grants.foldl (fun b g => (b.grant g.1 g.2).1) (init conf oldConf)).granted ↔
      Supported conf oldConf (· ∈ grants.map Prod.fst) := by
  rw [foldl_grant, granted, Bool.and_eq_true, granted_foldl_grant]
  cases oldConf <;> simp only [Supported, map_none, map_some, all_none, all_some, mem_some_iff,
    forall_eq', granted_foldl_grant, not_mem_none, false_imp_iff, implies_true]

end Joint

end Braft
