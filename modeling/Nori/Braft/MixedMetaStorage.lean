import Mathlib.Data.List.Induction

/-!
# Term and vote in two storages

`MixedMetaStorage` writes them to a storage of the node and then to one that it shares with others.
When they are read, the one that is behind catches up.
-/

namespace Braft.MixedMetaStorage

open List

/-- No vote is `ANY_PEER`. -/
structure StableMeta (P : Type) where
  term : ℕ
  votedfor : Option P
deriving DecidableEq

/-- The single storage reads the pair that it has in memory, and has one in its file. -/
structure Mixed (P : Type) where
  single : StableMeta P
  file : StableMeta P
  merged : StableMeta P

variable {P : Type} {s : Mixed P} {m : StableMeta P} {calls : List (StableMeta P × Bool)}

/-- The single storage has the pair in memory even if it cannot save it. Where the merged one
refuses, or the process dies before, nothing has changed there. -/
def setTermAndVotedfor (ok ok' : Bool) (m : StableMeta P) (s : Mixed P) : Bool × Mixed P :=
  if ok then
    if ok' then (true, ⟨m, m, m⟩) else (false, { s with single := m, file := m })
  else (false, { s with single := m })

/-- The process starts again, and the single storage loads its file. -/
def restart (s : Mixed P) : Mixed P := { s with single := s.file }

/-- `none` at a conflict, or if the catch-up is refused. -/
def getTermAndVotedfor [DecidableEq P] (ok : Bool) (s : Mixed P) :
    Option (StableMeta P) × Mixed P :=
  if s.single = s.merged then (some s.single, s)
  else if s.single.term = s.merged.term ∧ s.single.votedfor ≠ none ∧ s.merged.votedfor ≠ none then
    (none, s)
  else if s.merged.term < s.single.term ∨
      s.single.term = s.merged.term ∧ s.single.votedfor ≠ none ∧ s.merged.votedfor = none then
    if ok then (some s.single, { s with merged := s.single }) else (none, s)
  else if ok then (some s.merged, { s with single := s.merged, file := s.merged })
  else (none, { s with single := s.merged })

/-- What a node that has stored `m` may write next. -/
def Follows (m m' : StableMeta P) : Prop := m.term < m'.term ∨ m.term = m'.term ∧ m.votedfor = none

/-- A call that fails; the `Bool` is whether the single storage has saved the pair. -/
def failed (s : Mixed P) (call : StableMeta P × Bool) : Mixed P :=
  (setTermAndVotedfor call.2 false call.1 s).2

/-- The pair of the last call. -/
def last (m : StableMeta P) (calls : List (StableMeta P × Bool)) : StableMeta P :=
  (calls.getLast?.map Prod.fst).getD m

/-- The single storage has the last pair in memory, and the last one that it has saved in its
file. -/
theorem foldl_failed : calls.foldl failed s =
    ⟨last s.single calls, last s.file (calls.filter Prod.snd), s.merged⟩ := by
  induction calls using reverseRecOn with
  | nil => rfl
  | append_singleton calls call ih =>
    obtain ⟨m, _ | _⟩ := call
    all_goals
      rw [foldl_append, ih]
      simp [failed, setTermAndVotedfor, last]

theorem last_follows (hcalls : ∀ call ∈ calls, Follows m call.1) :
    last m calls = m ∨ Follows m (last m calls) := by
  unfold last
  cases hlast : calls.getLast? with
  | none => exact .inl rfl
  | some call => exact .inr (hcalls call (mem_of_getLast? hlast))

variable [DecidableEq P]

/-- A pair that follows on that of the merged storage is read, and the merged storage gets it. -/
theorem get_of_follows {m' file : StableMeta P} (h : m' = m ∨ Follows m m') :
    getTermAndVotedfor true ⟨m', file, m⟩ = (some m', ⟨m', file, m'⟩) := by
  by_cases heq : m' = m
  · simp [getTermAndVotedfor, heq]
  · rcases h.resolve_left heq with hlt | ⟨hterm, hnone⟩
    · simp [getTermAndVotedfor, heq, hlt, Nat.ne_of_gt hlt]
    · -- two pairs of one term differ by the vote
      have hvote : m'.votedfor ≠ none := by
        intro hvote
        cases m
        cases m'
        simp_all
      simp [getTermAndVotedfor, heq, hterm, hnone, hvote]

/-- **The last pair of the single storage is read.** After a call that succeeds, and calls that
fail, there is no conflict: the pair of the last call is returned, and after a restart that of the
last call which the single storage has saved. -/
theorem newest_restored (hcalls : ∀ call ∈ calls, Follows m call.1) :
    let s' := calls.foldl failed (setTermAndVotedfor true true m s).2
    let saved := last m (calls.filter Prod.snd)
    getTermAndVotedfor true s' =
        (some (last m calls), ⟨last m calls, saved, last m calls⟩) ∧
      getTermAndVotedfor true (restart s') = (some saved, ⟨saved, saved, saved⟩) := by
  dsimp only
  rw [foldl_failed]
  exact ⟨get_of_follows (last_follows hcalls),
    get_of_follows (last_follows fun call hcall => hcalls call (mem_filter.mp hcall).1)⟩

theorem newest_restored_vote :
    let s : Mixed ℕ := [(⟨2, none⟩, true), (⟨2, some 0⟩, false)].foldl failed
      ⟨⟨1, none⟩, ⟨1, none⟩, ⟨1, none⟩⟩
    (getTermAndVotedfor true s).1 = some ⟨2, some 0⟩ ∧
      (getTermAndVotedfor true (restart s)).1 = some ⟨2, none⟩ := by
  have h := @newest_restored ℕ ⟨⟨1, none⟩, ⟨1, none⟩, ⟨1, none⟩⟩ ⟨1, none⟩
    [(⟨2, none⟩, true), (⟨2, some 0⟩, false)] _ (by simp [Follows])
  exact ⟨congrArg Prod.fst h.1, congrArg Prod.fst h.2⟩

end Braft.MixedMetaStorage
