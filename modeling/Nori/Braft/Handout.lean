import Nori.Braft.FsmCaller

/-!
# Which closures a commit hands out

When entries are applied, the closures of those that the state machine keeps are delivered with
them, and those of the others are run with the error. Together they are the closures that were taken
out of the queue, each at the index of its entry.
-/

namespace Braft

open List Option

variable {K : Type}

/-- Closures with indexes, of which the first is given. -/
def indexed : ℕ → List (Option K) → List (ℕ × K)
  | _, [] => []
  | first, closure :: queue => closure.toList.map (first, ·) ++ indexed (first + 1) queue

theorem indexed_append (first : ℕ) (queue queue' : List (Option K)) :
    indexed first (queue ++ queue') =
      indexed first queue ++ indexed (first + queue.length) queue' := by
  induction queue generalizing first with
  | nil => rfl
  | cons closure queue ih =>
    have hlen : first + (queue.length + 1) = first + 1 + queue.length := by omega
    rw [cons_append, indexed, indexed, ih, append_assoc, length_cons, hlen]

theorem mem_indexed {first i : ℕ} {k : K} {queue : List (Option K)}
    (h : (i, k) ∈ indexed first queue) :
    ∃ j, i = first + j ∧ queue[j]? = some (some k) := by
  induction queue generalizing first with
  | nil => cases h
  | cons closure queue ih =>
    rcases mem_append.mp h with h | h
    · obtain ⟨k', hk', heq⟩ := mem_map.mp h
      cases heq
      exact ⟨0, rfl, congrArg some (mem_toList.mp hk')⟩
    · obtain ⟨j, rfl, hj⟩ := ih h
      exact ⟨j + 1, by omega, hj⟩

theorem map_snd_indexed (first : ℕ) (queue : List (Option K)) :
    (indexed first queue).map Prod.snd = queue.filterMap id := by
  induction queue generalizing first with
  | nil => rfl
  | cons closure queue ih =>
    rw [indexed, map_append, ih, filterMap_cons]
    cases closure <;> rfl

/-- The closures in the queue, with the indexes of their entries. -/
def ClosureQueue.waiting (cq : ClosureQueue K) : List (ℕ × K) := indexed cq.firstIndex cq.queue

/-- The closures that were taken out for the entries from `lo` on and before `hi`. -/
def PoppedClosures.between (popped : PoppedClosures K) (lo hi : ℕ) : List (ℕ × K) :=
  (range' lo (hi - lo)).flatMap fun i => (popped.doneAt i).toList.map (i, ·)

namespace PoppedClosures

variable {popped : PoppedClosures K} {lo mid hi : ℕ}

theorem between_append (hlo : lo ≤ mid) (hhi : mid ≤ hi) :
    popped.between lo mid ++ popped.between mid hi = popped.between lo hi := by
  have hlen : hi - lo = (mid - lo) + (hi - mid) := by omega
  have hmid : lo + (mid - lo) = mid := by omega
  unfold between
  rw [hlen, ← range'_append_1, hmid, flatMap_append]

theorem between_eq_nil (h : hi ≤ popped.firstClosureIndex) : popped.between lo hi = [] := by
  unfold between
  rw [flatMap_eq_nil_iff]
  intro i hi'
  have hlt : i < popped.firstClosureIndex := by
    have := mem_range'_1.mp hi'
    omega
  rw [doneAt, if_pos hlt]
  rfl

theorem mem_between {i : ℕ} {k : K} (h : (i, k) ∈ popped.between lo hi) :
    lo ≤ i ∧ i < hi ∧ popped.doneAt i = some k := by
  obtain ⟨j, hj, hk⟩ := mem_flatMap.mp h
  obtain ⟨k', hk', heq⟩ := mem_map.mp hk
  cases heq
  obtain ⟨hlo, hhi⟩ := mem_range'_1.mp hj
  exact ⟨hlo, by omega, mem_toList.mp hk'⟩

theorem filter_between (hlo : lo ≤ mid) (hhi : mid ≤ hi) :
    (popped.between lo hi).filter (·.1 < mid) = popped.between lo mid := by
  rw [← between_append hlo hhi, filter_append]
  have hkeep : (popped.between lo mid).filter (·.1 < mid) = popped.between lo mid := by
    refine filter_eq_self.mpr fun x hx => ?_
    simpa using (mem_between hx).2.1
  have hdrop : (popped.between mid hi).filter (·.1 < mid) = [] := by
    refine filter_eq_nil_iff.mpr fun x hx => ?_
    simpa using (mem_between hx).1
  rw [hkeep, hdrop, append_nil]

theorem between_all (closures : List (Option K)) (first : ℕ) :
    (⟨closures, first⟩ : PoppedClosures K).between first (first + closures.length) =
      indexed first closures := by
  unfold between
  rw [Nat.add_sub_cancel_left]
  induction closures generalizing first with
  | nil => rfl
  | cons closure closures ih =>
    rw [length_cons, range'_succ, flatMap_cons, indexed, ← ih (first + 1)]
    congr 1
    · simp [doneAt]
    · refine flatMap_congr fun i hi => ?_
      have hlt : first < i := (mem_range'_1.mp hi).1
      have hindex : i - first = i - (first + 1) + 1 := by omega
      simp only [doneAt, hindex, getElem?_cons_succ]
      rw [if_neg (by omega), if_neg (by omega)]

end PoppedClosures

/-- The closure that a call delivers. -/
def SmCall.handed : SmCall K → Option (ℕ × K)
  | .apply index closure => closure.map (index, ·)
  | .done index closure => some (index, closure)
  | _ => none

/-- The closures delivered with their entries. Those of entries that the user takes back are not
among them. -/
def delivered (calls : List (SmCall K)) : List (ℕ × K) :=
  calls.foldl (fun acc call =>
    match call with
    | .rollback index => acc.filter (·.1 < index)
    | call => acc ++ call.handed.toList) []

/-- The closures run with the error. -/
def failed (calls : List (SmCall K)) : List (ℕ × K) :=
  calls.filterMap fun call =>
    match call with
    | .failed index closure => some (index, closure)
    | _ => none

theorem delivered_append {calls more : List (SmCall K)} (h : ∀ i, .rollback i ∉ more) :
    delivered (calls ++ more) = delivered calls ++ more.filterMap SmCall.handed := by
  unfold delivered
  rw [foldl_append]
  generalize foldl _ [] calls = acc
  induction more generalizing acc with
  | nil => rw [filterMap_nil, append_nil, foldl_nil]
  | cons call more ih =>
    rw [foldl_cons, ih fun i hi => h i (mem_cons_of_mem _ hi)]
    cases call
    case rollback i => exact absurd mem_cons_self (h i)
    all_goals
      rw [append_assoc, filterMap_cons]
      cases hhanded : SmCall.handed _ <;> rfl

theorem delivered_rollback (calls : List (SmCall K)) (index : ℕ) :
    delivered (calls ++ [.rollback index]) = (delivered calls).filter (·.1 < index) := by
  unfold delivered
  rw [foldl_append, foldl_cons, foldl_nil]

theorem failed_append (calls more : List (SmCall K)) :
    failed (calls ++ more) = failed calls ++ failed more := filterMap_append

section Cover

variable {log : CommittedLog} {popped : PoppedClosures K}

theorem handed_callsAt (index : ℕ) : (callsAt log popped index).filterMap SmCall.handed =
      (popped.doneAt index).toList.map (index, ·) := by
  by_cases hdata : (log.entry index).type = .data
  · rw [callsAt, hdata]
    cases popped.doneAt index <;> rfl
  · rw [callsAt_of_ne hdata, filterMap_append]
    have hnone : (if (log.entry index).type = .configuration false
        then [SmCall.configurationCommitted index] else [] : List (SmCall K)).filterMap
          SmCall.handed = [] := by
      split_ifs <;> rfl
    rw [hnone, nil_append]
    cases popped.doneAt index <;> rfl

theorem handed_cover (a m : ℕ) :
    (cover log popped a m).filterMap SmCall.handed = popped.between (a + 1) m := by
  unfold cover PoppedClosures.between
  generalize range' (a + 1) (m - (a + 1)) = indexes
  induction indexes with
  | nil => rfl
  | cons index indexes ih => rw [flatMap_cons, filterMap_append, ih, handed_callsAt, flatMap_cons]

theorem plain_cover {a m : ℕ} {call : SmCall K} (h : call ∈ cover log popped a m) :
    (∀ i, call ≠ .rollback i) ∧ ∀ i k, call ≠ .failed i k := by
  obtain ⟨index, -, hcall⟩ := mem_flatMap.mp h
  constructor
  · rintro i rfl
    rcases mem_callsAt hcall with ⟨done, hcall⟩ | hcall | ⟨closure, hcall⟩ <;> cases hcall
  · rintro i k rfl
    rcases mem_callsAt hcall with ⟨done, hcall⟩ | hcall | ⟨closure, hcall⟩ <;> cases hcall

theorem delivered_cover (calls : List (SmCall K)) (a m : ℕ) :
    delivered (calls ++ cover log popped a m) = delivered calls ++ popped.between (a + 1) m := by
  rw [delivered_append fun i hi => (plain_cover hi).1 i rfl, handed_cover]

theorem failed_cover (a m : ℕ) : failed (cover log popped a m) = [] := by
  refine filterMap_eq_nil_iff.mpr fun call hcall => ?_
  cases call
  case failed i k => exact absurd rfl ((plain_cover hcall).2 i k)
  all_goals rfl

end Cover

theorem PoppedClosures.between_max (popped : PoppedClosures K) (lo hi : ℕ) :
    popped.between (max lo popped.firstClosureIndex) hi = popped.between lo hi := by
  rcases le_total popped.firstClosureIndex lo with hfirst | hfirst
  · rw [max_eq_left hfirst]
  · rw [max_eq_right hfirst]
    rcases le_total popped.firstClosureIndex hi with hhi | hhi
    · rw [← between_append hfirst hhi, between_eq_nil le_rfl, nil_append]
    · rw [between_eq_nil hhi, between_eq_nil hhi]

theorem IteratorImpl.failed_restClosures (it : IteratorImpl K) :
    failed it.restClosures = it.popped.between it.curIndex (it.committedIndex + 1) := by
  rw [← PoppedClosures.between_max]
  unfold restClosures failed PoppedClosures.between
  rw [filterMap_flatMap]
  refine flatMap_congr fun i _ => ?_
  cases it.popped.doneAt i <;> rfl

theorem IteratorImpl.delivered_restClosures (it : IteratorImpl K) (calls : List (SmCall K)) :
    delivered (calls ++ it.restClosures) = delivered calls := by
  have hcall : ∀ call ∈ it.restClosures, ∃ i k, call = .failed i k := by
    intro call hcall
    obtain ⟨i, -, hcall⟩ := mem_flatMap.mp hcall
    obtain ⟨k, -, rfl⟩ := mem_map.mp hcall
    exact ⟨i, k, rfl⟩
  rw [delivered_append, filterMap_eq_nil_iff.mpr, append_nil]
  · intro call hmem
    obtain ⟨i, k, rfl⟩ := hcall call hmem
    rfl
  · intro i hmem
    obtain ⟨_, _, h⟩ := hcall _ hmem
    cases h

/-- What an iterator that has come to its end has handed out, and what it leaves to be run with an
error. -/
theorem IteratorImpl.Finished.handout {log : CommittedLog} {popped : PoppedClosures K} {a c : ℕ}
    {it : IteratorImpl K} (h : it.Finished log popped a c)
    {calls : List (SmCall K)} (hbefore : ∀ x ∈ delivered calls, x.1 ≤ a) :
    delivered (calls ++ it.calls) = delivered calls ++ popped.between (a + 1) it.curIndex ∧
      failed (calls ++ it.calls) = failed calls := by
  rcases h.passed with ⟨-, hcur, hcalls⟩ | ⟨-, hlt, hle, hcalls | ⟨m, hm, hmc, hcalls⟩⟩
  · rw [hcalls, hcur, delivered_cover, failed_append, failed_cover, append_nil]
    exact ⟨rfl, rfl⟩
  · rw [hcalls, delivered_cover, failed_append, failed_cover, append_nil]
    exact ⟨rfl, rfl⟩
  · -- what was delivered before is not taken back
    have hkeep : (delivered calls).filter (·.1 < it.curIndex) = delivered calls :=
      filter_eq_self.mpr fun x hx => by
        have := hbefore x hx
        simpa using this.trans_lt hlt
    rw [hcalls, ← append_assoc, delivered_rollback, delivered_cover, filter_append, hkeep,
      PoppedClosures.filter_between hlt hm.le, failed_append, failed_append, failed_cover,
      append_nil]
    exact ⟨rfl, append_nil _⟩

namespace FsmCaller

/-- **What `do_committed` hands out.** The closures that were taken out for the entries up to one
are delivered, and those from it on are run with the error. -/
theorem doCommitted_handout (log : CommittedLog) (react : ℕ → Reaction) (c : ℕ)
    (cq : ClosureQueue K) {s : FsmCaller K}
    (hbefore : ∀ x ∈ delivered s.calls, x.1 ≤ s.lastAppliedIndex) :
    let r := doCommitted log react c (cq, s)
    let taken := (cq.popClosureUntil c).getD (cq, ⟨[], 0⟩)
    r = (cq, s) ∨ s.lastAppliedIndex < c ∧ r.2.lastAppliedIndex = c ∧ r.1 = taken.1 ∧
        ∃ m, s.lastAppliedIndex < m ∧ m ≤ c + 1 ∧
          (∀ i, s.lastAppliedIndex < i → i < m → log.getEntry i = some (log.entry i)) ∧
          delivered r.2.calls = delivered s.calls ++ taken.2.between (s.lastAppliedIndex + 1) m ∧
          failed r.2.calls = failed s.calls ++ taken.2.between m (c + 1) := by
  by_cases herror : s.error.isSome
  · exact .inl (if_pos herror)
  by_cases hle : c ≤ s.lastAppliedIndex
  · left
    unfold doCommitted
    dsimp only
    rw [if_neg herror, if_pos hle]
  right
  have hlt := Nat.lt_of_not_le hle
  unfold doCommitted
  dsimp only
  rw [if_neg herror, if_neg hle]
  generalize (cq.popClosureUntil c).getD (cq, ⟨[], 0⟩) = r
  obtain ⟨cq', popped⟩ := r
  have hfinished : IteratorImpl.Finished log popped s.lastAppliedIndex c
      ((IteratorImpl.init log popped s.lastAppliedIndex c).loop log react
        (c - s.lastAppliedIndex)) := IteratorImpl.finished_loop react hlt
  generalize (IteratorImpl.init log popped s.lastAppliedIndex c).loop log react
    (c - s.lastAppliedIndex) = it at *
  obtain ⟨hdelivered, hfailed⟩ := hfinished.handout hbefore
  refine ⟨hlt, rfl, rfl, it.curIndex, ?_, ?_, hfinished.before, ?_⟩
  · rcases hfinished.passed with ⟨-, hcur, -⟩ | ⟨-, hcur, -⟩ <;> omega
  · rcases hfinished.passed with ⟨-, hcur, -⟩ | ⟨-, -, hcur, -⟩ <;> omega
  · rcases hfinished.passed with ⟨herr, hcur, -⟩ | ⟨herr, -⟩
    · have hnil : popped.between it.curIndex (c + 1) = [] := by
        rw [hcur, PoppedClosures.between, Nat.sub_self]
        rfl
      rw [herr, hnil, append_nil]
      exact ⟨hdelivered, hfailed⟩
    · obtain ⟨e, he⟩ := isSome_iff_exists.mp herr
      rw [he]
      dsimp only [setError]
      rw [it.delivered_restClosures, failed_append, it.failed_restClosures, hfinished.popped_eq,
        hfinished.committed_eq, hdelivered, hfailed]
      exact ⟨rfl, rfl⟩

end FsmCaller

namespace ClosureQueue

variable {cq : ClosureQueue K} {c a : ℕ}

/-- **What is taken out of the queue is handed out, and the rest stays.** -/
theorem waiting_pop (ha : a < cq.firstIndex) (hc : c < cq.firstIndex + cq.queue.length) :
    ∃ cq' popped, cq.popClosureUntil c = some (cq', popped) ∧
      cq.waiting = popped.between (a + 1) (c + 1) ++ cq'.waiting ∧
      c < cq'.firstIndex ∧
      cq'.firstIndex + cq'.queue.length = cq.firstIndex + cq.queue.length := by
  unfold popClosureUntil
  by_cases hnone : cq.queue = [] ∨ c < cq.firstIndex
  · rw [if_pos hnone]
    refine ⟨_, _, rfl, ?_, ?_, rfl⟩
    · rw [PoppedClosures.between_eq_nil le_rfl, nil_append]
    · rcases hnone with hempty | hlt
      · rw [hempty] at hc
        exact hc
      · exact hlt
  · obtain ⟨-, hle⟩ := not_or.mp hnone
    rw [if_neg hnone, if_neg (by omega)]
    have htake : (cq.queue.take (c + 1 - cq.firstIndex)).length = c + 1 - cq.firstIndex :=
      length_take_of_le (by omega)
    have hend : cq.firstIndex + (cq.queue.take (c + 1 - cq.firstIndex)).length = c + 1 := by omega
    refine ⟨_, _, rfl, ?_, Nat.lt_succ_self c, ?_⟩
    · have hall := PoppedClosures.between_all (cq.queue.take (c + 1 - cq.firstIndex)) cq.firstIndex
      rw [hend] at hall
      have hsplit : (⟨cq.queue.take (c + 1 - cq.firstIndex), cq.firstIndex⟩ :
          PoppedClosures K).between (a + 1) (c + 1) = _ :=
        (PoppedClosures.between_append (Nat.succ_le_of_lt ha) (by omega)).symm
      rw [hsplit, PoppedClosures.between_eq_nil le_rfl, nil_append, hall]
      have hparts := indexed_append cq.firstIndex (cq.queue.take (c + 1 - cq.firstIndex))
        (cq.queue.drop (c + 1 - cq.firstIndex))
      rwa [take_append_drop, hend] at hparts
    · dsimp only
      rw [length_drop]
      omega

end ClosureQueue

end Braft
