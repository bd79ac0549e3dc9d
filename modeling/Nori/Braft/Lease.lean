import Mathlib.Data.List.Sort
import Mathlib.Order.Bounds.Defs
import Nori.Braft.Ballot

/-!
# How long a leader has been heard

A leader may serve reads for a while after a majority of its peers was active. The time up to which
one was is found with a heap of the latest timestamps of the other peers: it keeps half as many as
there are peers, which with the leader make a majority. A leader that is not among the peers is one
short of it.
-/

namespace Braft

open List

/-- The heap has its smallest timestamp on top, and is written down in order. -/
def pushHeap (bound : ℕ) (heap : List ℤ) (timestamp : ℤ) : List ℤ :=
  let heap := heap.orderedInsert (· ≤ ·) timestamp
  if bound < heap.length then heap.tail else heap

/-- The heap has the largest timestamps: as many above any time as there are, up to the bound. -/
structure Keeps (bound : ℕ) (ts heap : List ℤ) : Prop where
  sorted : heap.Pairwise (· ≤ ·)
  length_eq : heap.length = min bound ts.length
  countP_eq : ∀ T, heap.countP (T ≤ ·) = min bound (ts.countP (T ≤ ·))

theorem Keeps.pushHeap {bound : ℕ} {ts heap : List ℤ} (h : Keeps bound ts heap) (t : ℤ) :
    Keeps bound (ts ++ [t]) (pushHeap bound heap t) := by
  obtain ⟨hsorted, hlength, hcount⟩ := h
  have hsorted' := hsorted.orderedInsert t
  have hlength' := orderedInsert_length (· ≤ ·) heap t
  have hcount' := fun T : ℤ => (perm_orderedInsert (· ≤ ·) t heap).countP_eq (T ≤ ·)
  unfold Braft.pushHeap
  dsimp only
  generalize heap.orderedInsert (· ≤ ·) t = heap' at *
  split_ifs with hfull
  · cases heap' with
    | nil => cases hlength'
    | cons a heap' =>
      rw [length_cons] at hlength' hfull
      obtain ⟨hle, hsorted'⟩ := pairwise_cons.mp hsorted'
      refine ⟨hsorted', ?_, fun T => ?_⟩
      · rw [tail_cons, length_append, length_singleton]
        omega
      · have hcount' := hcount' T
        have hbound := countP_le_length (p := (T ≤ ·)) (l := heap')
        rw [countP_cons, countP_cons, hcount] at hcount'
        rw [tail_cons, countP_append, countP_singleton]
        -- if the smallest of them is not before a time, none is
        have hall : T ≤ a → heap'.countP (T ≤ ·) = heap'.length := fun hT =>
          countP_eq_length.mpr fun x hx => decide_eq_true (hT.trans (hle x hx))
        simp only [decide_eq_true_eq] at hcount' ⊢
        split_ifs at hcount' ⊢ <;> omega
  · refine ⟨hsorted', ?_, fun T => ?_⟩
    · rw [length_append, length_singleton]
      omega
    · have hle := countP_le_length (p := (T ≤ ·)) (l := heap)
      rw [hcount', countP_cons, hcount, countP_append, countP_singleton]
      rw [hcount] at hle
      split_ifs <;> omega

theorem keeps_foldl (bound : ℕ) (ts : List ℤ) : Keeps bound ts (ts.foldl (pushHeap bound) []) := by
  induction ts using reverseRecOn with
  | nil => exact ⟨.nil, by simp, by simp⟩
  | append_singleton ts t ih =>
    rw [foldl_concat]
    exact ih.pushHeap t

/-- The top of the heap is the latest time at which there was a majority of `n`, of which `e` always
count, if one of them does or the timestamp at the next rank is the same. -/
theorem Keeps.isGreatest_iff {now : ℤ} {n e : ℕ} {ts heap : List ℤ} (h : Keeps (n / 2) ts heap)
    (hlen : e + ts.length = n) (hone : e ≤ 1) :
    IsGreatest {T | (T = now ∨ T ∈ ts) ∧ n < 2 * (e + ts.countP (T ≤ ·))} (heap.headD now) ↔
      0 < e ∨ n = 1 ∧ (∀ t ∈ ts, t = now) ∨
        ∃ T, ts.countP (T < ·) < n / 2 ∧ n / 2 < ts.countP (T ≤ ·) := by
  have hlength := h.length_eq
  cases heap with
  | nil =>
    rw [length_nil] at hlength
    rcases ts with _ | ⟨t, ts⟩
    · simp only [length_nil, Nat.add_zero] at hlen
      subst hlen
      simp [IsGreatest, upperBounds]
      omega
    · rw [length_cons] at hlength hlen
      obtain ⟨rfl, rfl, hts⟩ : e = 0 ∧ n = 1 ∧ ts.length = 0 := by omega
      rw [length_eq_zero_iff] at hts
      subst hts
      simp [IsGreatest, upperBounds]
      split_ifs <;> omega
  | cons r rest =>
    rw [length_cons] at hlength
    have hr : n / 2 ≤ ts.countP (r ≤ ·) := by
      have hall : (r :: rest).countP (r ≤ ·) = (r :: rest).length :=
        countP_eq_length.mpr fun x hx => decide_eq_true
          ((mem_cons.mp hx).elim Eq.ge ((pairwise_cons.mp h.sorted).1 x))
      rw [h.countP_eq, length_cons] at hall
      omega
    have habove : ∀ T, r < T → ts.countP (T ≤ ·) < n / 2 := by
      intro T hT
      have hcount := h.countP_eq T
      rw [countP_cons, if_neg (by simpa using hT)] at hcount
      have := countP_le_length (p := (T ≤ ·)) (l := rest)
      omega
    have hmem : r ∈ ts := by
      by_contra hnot
      have := habove (r + 1) (by omega)
      have heq : ts.countP (r ≤ ·) = ts.countP (r + 1 ≤ ·) := countP_congr fun x hx => by
        have : x ≠ r := fun h => hnot (h ▸ hx)
        simp only [decide_eq_true_eq]
        omega
      omega
    constructor
    · rintro ⟨⟨-, hfeasible⟩, -⟩
      rw [headD_cons] at hfeasible
      rcases Nat.le_one_iff_eq_zero_or_eq_one.mp hone with rfl | rfl
      · exact .inr (.inr ⟨r, habove (r + 1) (by omega), by omega⟩)
      · exact .inl one_pos
    · intro hsettled
      refine ⟨⟨.inr hmem, ?_⟩, ?_⟩
      · rw [headD_cons]
        rcases hsettled with he | ⟨rfl, -⟩ | ⟨T, hlt, hle⟩
        · omega
        · omega
        · have : ts.countP (T < ·) = ts.countP (T + 1 ≤ ·) := rfl
          rcases lt_trichotomy r T with hT | rfl | hT
          · have := habove T hT
            omega
          · omega
          · have := countP_mono_left (l := ts) (p := (r ≤ ·)) (q := (T < ·)) fun x _ hx => by
              simp only [decide_eq_true_eq] at hx ⊢
              omega
            omega
      · rintro T ⟨-, hT⟩
        by_contra hlt
        have := habove T (lt_of_not_ge hlt)
        omega

/-- What a leader knows when it asks how long it was heard. -/
structure Hearing (P : Type) where
  now : ℤ
  serverId : P
  timestamp : P → ℤ

namespace Hearing

variable {P : Type} [DecidableEq P] (l : Hearing P) (conf : Configuration P)

/-- The timestamps of the other peers. -/
def others : List ℤ := (conf.peers.filter (· ≠ l.serverId)).map l.timestamp

/-- `last_leader_active_timestamp` of one configuration. -/
def lastActive : ℤ := ((l.others conf).foldl (pushHeap (conf.peers.length / 2)) []).headD l.now

/-- `last_leader_active_timestamp`: while configurations change, of both. -/
def lastLeaderActiveTimestamp (oldConf : Option (Configuration P)) : ℤ :=
  match oldConf with
  | none => l.lastActive conf
  | some old => min (l.lastActive conf) (l.lastActive old)

/-- The timestamps, and the current time, at which a majority was active. The leader counts if it is
a peer, and is always active. -/
def activeTimes : Set ℤ :=
  {T | (T = l.now ∨ T ∈ l.others conf) ∧
    conf.peers.length < 2 * (conf.peers.count l.serverId + (l.others conf).countP (T ≤ ·))}

/-- The leader is a peer, or its place does not matter: the timestamp at the next rank, with a
single peer its only one, is the same. -/
def Settled : Prop :=
  l.serverId ∈ conf.peers ∨ conf.peers.length = 1 ∧ (∀ t ∈ l.others conf, t = l.now) ∨
    ∃ T, (l.others conf).countP (T < ·) < conf.peers.length / 2 ∧
      conf.peers.length / 2 < (l.others conf).countP (T ≤ ·)

theorem isGreatest_lastActive :
    IsGreatest (l.activeTimes conf) (l.lastActive conf) ↔ l.Settled conf := by
  unfold activeTimes Settled
  rw [← count_pos_iff]
  refine (keeps_foldl _ _).isGreatest_iff ?_ (nodup_iff_count_le_one.mp conf.nodup l.serverId)
  rw [others, length_map, ← countP_eq_length_filter, length_eq_countP_add_countP (· = l.serverId)]
  simp [count, BEq.beq]

/-- **Leader activity.** The latest time of a majority is found in every configuration, and the
smaller of two, exactly if the leader's place is settled in each. -/
theorem lastLeaderActiveTimestamp_iff (oldConf : Option (Configuration P)) :
    (IsGreatest (l.activeTimes conf) (l.lastActive conf) ∧
      (oldConf = none → l.lastLeaderActiveTimestamp conf oldConf = l.lastActive conf) ∧
      ∀ old ∈ oldConf, IsGreatest (l.activeTimes old) (l.lastActive old) ∧
        l.lastLeaderActiveTimestamp conf oldConf = min (l.lastActive conf) (l.lastActive old)) ↔
      l.Settled conf ∧ ∀ old ∈ oldConf, l.Settled old := by
  simp only [isGreatest_lastActive]
  cases oldConf <;> simp [lastLeaderActiveTimestamp]

/-- A leader outside a configuration of two, of which one was active at time 10. -/
def outside : Hearing ℕ := ⟨20, 0, fun p => if p = 1 then 10 else 5⟩

theorem outside_too_late : ¬ IsGreatest (outside.activeTimes ⟨[1, 2], by decide⟩)
      (outside.lastActive ⟨[1, 2], by decide⟩) := by
  rintro ⟨⟨-, hmajority⟩, -⟩
  exact absurd hmajority (by decide)

end Hearing

end Braft
