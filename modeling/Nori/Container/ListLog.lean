import Mathlib.Data.List.Basic

/-!
# Logs as lists

A log is a list whose elements have consecutive indexes. It grows at its end and is cut at either
end; a series of such operations only ever shows what was there before or what it has appended.
-/

namespace Container

open List

structure ListLog (α : Type) where
  first : ℕ
  entries : List α
deriving DecidableEq

namespace ListLog

variable {α : Type} {l : ListLog α} {es : List α} {i k : ℕ} {e : α}

/-- The index after the last one. -/
def next (l : ListLog α) : ℕ := l.first + l.entries.length

def get (l : ListLog α) (i : ℕ) : Option α := if i < l.first then none else l.entries[i - l.first]?

def append (l : ListLog α) (es : List α) : ListLog α := { l with entries := l.entries ++ es }

/-- Drops what lies before an index. The log is empty afterwards if it does not reach the index. -/
def truncatePrefix (l : ListLog α) (firstKept : ℕ) : ListLog α :=
  if firstKept ≤ l.first then l else ⟨firstKept, l.entries.drop (firstKept - l.first)⟩

/-- Drops what lies after an index. -/
def truncateSuffix (l : ListLog α) (lastKept : ℕ) : ListLog α :=
  { l with entries := l.entries.take (lastKept + 1 - l.first) }

/-- The empty log that goes on with an index. -/
def reset (next : ℕ) : ListLog α := ⟨next, []⟩

/-! ## Reading -/

theorem get_of_lt (h : i < l.first) : l.get i = none := if_pos h

theorem get_of_le (h : l.first ≤ i) : l.get i = l.entries[i - l.first]? := if_neg (Nat.not_lt.mpr h)

theorem get_add (l : ListLog α) (j : ℕ) : l.get (l.first + j) = l.entries[j]? := by
  rw [get_of_le (Nat.le_add_right _ _), Nat.add_sub_cancel_left]

theorem get_of_next_le (h : l.next ≤ i) : l.get i = none := by
  unfold next at h
  rw [get_of_le (by omega)]
  exact getElem?_eq_none (by omega)

theorem range_of_get (h : l.get i = some e) : l.first ≤ i ∧ i < l.next := by
  refine ⟨?_, ?_⟩
  · by_contra hlt
    rw [get_of_lt (Nat.not_le.mp hlt)] at h
    cases h
  · by_contra hle
    rw [get_of_next_le (Nat.not_lt.mp hle)] at h
    cases h

theorem exists_get (hfirst : l.first ≤ i) (hnext : i < l.next) : ∃ e, l.get i = some e := by
  unfold next at hnext
  rw [get_of_le hfirst]
  exact ⟨_, getElem?_eq_getElem (by omega)⟩

theorem mem_of_get (h : l.get i = some e) : e ∈ l.entries := by
  rw [get_of_le (range_of_get h).1] at h
  exact mem_of_getElem? h

theorem exists_get_of_mem (h : e ∈ l.entries) : ∃ i, l.get i = some e := by
  obtain ⟨j, hj⟩ := mem_iff_getElem?.mp h
  exact ⟨l.first + j, (get_add l j).trans hj⟩

theorem ext_get {l' : ListLog α} (hfirst : l.first = l'.first) (hget : ∀ i, l.get i = l'.get i) :
    l = l' := by
  obtain ⟨first, es⟩ := l
  obtain ⟨_, es'⟩ := l'
  obtain rfl : first = _ := hfirst
  have hentries : es = es' := ext_getElem? fun j => by
    have hj := hget (first + j)
    rwa [get_add ⟨first, es⟩, get_add ⟨first, es'⟩] at hj
  rw [hentries]

/-! ## The operations -/

@[simp] theorem first_append (l : ListLog α) (es : List α) : (l.append es).first = l.first := rfl

@[simp] theorem next_append (l : ListLog α) (es : List α) :
    (l.append es).next = l.next + es.length := by
  dsimp only [next, append]
  rw [length_append]
  omega

theorem append_nil (l : ListLog α) : l.append [] = l := by
  unfold append
  rw [List.append_nil]

theorem append_append (l : ListLog α) (es es' : List α) :
    (l.append es).append es' = l.append (es ++ es') := by
  unfold append
  rw [append_assoc]

theorem get_append_of_lt (h : i < l.next) : (l.append es).get i = l.get i := by
  dsimp only [next] at h
  dsimp only [get, append]
  split_ifs with hfirst
  · rfl
  · exact getElem?_append_left (by omega)

theorem get_append_of_le (h : l.next ≤ i) : (l.append es).get i = es[i - l.next]? := by
  dsimp only [next] at h ⊢
  rw [get_of_le (by rw [first_append]; omega)]
  dsimp only [append]
  rw [getElem?_append_right (by omega)]
  congr 1
  omega

@[simp] theorem first_truncatePrefix (l : ListLog α) (k : ℕ) :
    (l.truncatePrefix k).first = max l.first k := by
  unfold truncatePrefix
  split_ifs with h
  · exact (Nat.max_eq_left h).symm
  · exact (Nat.max_eq_right (Nat.le_of_not_le h)).symm

@[simp] theorem next_truncatePrefix (l : ListLog α) (k : ℕ) :
    (l.truncatePrefix k).next = max l.next k := by
  unfold truncatePrefix
  split_ifs with h
  · dsimp only [next]
    omega
  · dsimp only [next]
    rw [length_drop]
    omega

theorem get_truncatePrefix (h : k ≤ i) : (l.truncatePrefix k).get i = l.get i := by
  unfold truncatePrefix
  split_ifs with hk
  · rfl
  · rw [get_of_le h, get_of_le (by omega), getElem?_drop]
    dsimp only
    congr 1
    omega

theorem next_truncateSuffix (hfirst : l.first ≤ k + 1) (hnext : k + 1 ≤ l.next) :
    (l.truncateSuffix k).next = k + 1 := by
  dsimp only [next, truncateSuffix] at hnext ⊢
  rw [length_take]
  omega

theorem truncateSuffix_of_next_le (h : l.next ≤ k + 1) : l.truncateSuffix k = l := by
  unfold next at h
  unfold truncateSuffix
  rw [take_of_length_le (by omega)]

theorem get_truncateSuffix (h : i ≤ k) : (l.truncateSuffix k).get i = l.get i := by
  dsimp only [get, truncateSuffix]
  split_ifs with hfirst
  · rfl
  · exact getElem?_take_of_lt (by omega)

theorem get_truncateSuffix_of_lt (h : k < i) : (l.truncateSuffix k).get i = none := by
  dsimp only [get, truncateSuffix]
  split_ifs with hfirst
  · rfl
  · exact getElem?_eq_none (by rw [length_take]; omega)

theorem get_reset (n i : ℕ) : (reset n : ListLog α).get i = none := by
  dsimp only [get, reset]
  split_ifs <;> rfl

/-! ## Series of operations -/

inductive Op (α : Type)
  | append (es : List α)
  | truncatePrefix (firstKept : ℕ)
  | truncateSuffix (lastKept : ℕ)
  | reset (next : ℕ)

/-- What an operation appends. -/
def Op.added : Op α → List α
  | .append es => es
  | _ => []

def run (l : ListLog α) : Op α → ListLog α
  | .append es => l.append es
  | .truncatePrefix k => l.truncatePrefix k
  | .truncateSuffix k => l.truncateSuffix k
  | .reset n => reset n

def runAll (l : ListLog α) (ops : List (Op α)) : ListLog α := ops.foldl run l

@[simp] theorem runAll_nil (l : ListLog α) : l.runAll [] = l := rfl

@[simp] theorem runAll_cons (l : ListLog α) (op : Op α) (ops : List (Op α)) :
    l.runAll (op :: ops) = (l.run op).runAll ops := rfl

theorem get_run {op : Op α} (h : (l.run op).get i = some e) : l.get i = some e ∨ e ∈ op.added := by
  cases op with
  | append es =>
    rcases Nat.lt_or_ge i l.next with hi | hi
    · exact .inl ((get_append_of_lt hi).symm.trans h)
    · exact .inr (mem_of_getElem? ((get_append_of_le hi).symm.trans h))
  | truncatePrefix k =>
    have hk : k ≤ i := by
      have := (range_of_get h).1
      rw [show (l.run (.truncatePrefix k)).first = max l.first k from first_truncatePrefix l k]
        at this
      omega
    exact .inl ((get_truncatePrefix hk).symm.trans h)
  | truncateSuffix k =>
    rcases Nat.lt_or_ge k i with hi | hi
    · exact absurd ((get_truncateSuffix_of_lt hi).symm.trans h) (by simp)
    · exact .inl ((get_truncateSuffix hi).symm.trans h)
  | reset n => exact absurd ((get_reset n i).symm.trans h) (by simp)

/-- **What a series of operations leaves.** An element that can be read afterwards could be read
before, or the series has appended it. -/
theorem get_runAll {ops : List (Op α)} (h : (l.runAll ops).get i = some e) :
    l.get i = some e ∨ ∃ op ∈ ops, e ∈ op.added := by
  induction ops generalizing l with
  | nil => exact .inl h
  | cons op ops ih =>
    rcases ih h with h | ⟨op', hop', he⟩
    · rcases get_run h with h | he
      · exact .inl h
      · exact .inr ⟨op, mem_cons_self, he⟩
    · exact .inr ⟨op', mem_cons_of_mem _ hop', he⟩

end ListLog

end Container
