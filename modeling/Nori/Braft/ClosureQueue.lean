import Mathlib.Data.List.Basic

/-!
# Closures that wait for the commitment of entries

The closures of the tasks that a leader has appended, in the order of their indexes. A task may
have none.
-/

namespace Braft

structure ClosureQueue (K : Type) where
  firstIndex : ℕ
  queue : List (Option K)

/-- The closures that were taken out, and the index of the first. -/
structure PoppedClosures (K : Type) where
  closure : List (Option K)
  firstClosureIndex : ℕ

namespace ClosureQueue

variable {K : Type}

def init : ClosureQueue K := ⟨0, []⟩

/-- The queue is empty afterwards; the closures in it are run with `EPERM`. -/
def clear (cq : ClosureQueue K) : ClosureQueue K × List K := (⟨0, []⟩, cq.queue.filterMap id)

def resetFirstIndex (firstIndex : ℕ) (cq : ClosureQueue K) : ClosureQueue K :=
  { cq with firstIndex }

def appendPendingClosure (closure : Option K) (cq : ClosureQueue K) : ClosureQueue K :=
  { cq with queue := cq.queue ++ [closure] }

/-- The closures up to an index; `none` is the error that the queue does not reach so far. -/
def popClosureUntil (index : ℕ) (cq : ClosureQueue K) :
    Option (ClosureQueue K × PoppedClosures K) :=
  if cq.queue = [] ∨ index < cq.firstIndex then some (cq, ⟨[], index + 1⟩)
  else if cq.firstIndex + cq.queue.length - 1 < index then none
  else
    some (⟨index + 1, cq.queue.drop (index + 1 - cq.firstIndex)⟩,
      ⟨cq.queue.take (index + 1 - cq.firstIndex), cq.firstIndex⟩)

end ClosureQueue

end Braft
