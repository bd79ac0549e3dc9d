import Mathlib.Data.List.Sort

/-!
# Ordered sets and ordered maps

Balanced-tree containers as a program sees them: a strictly increasing list of keys. The
increasing order is a field, so an unsorted container cannot be built, and iteration is in key
order.
-/

namespace Container

open List

variable {κ ν : Type} [LinearOrder κ]

/-! ## Sets -/

/-- A set kept in increasing order. -/
structure OrderedSet (κ : Type) [LinearOrder κ] where
  elems : List κ
  sorted : elems.Pairwise (· < ·)
deriving DecidableEq

namespace OrderedSet

instance : EmptyCollection (OrderedSet κ) := ⟨⟨[], .nil⟩⟩

instance : Membership κ (OrderedSet κ) := ⟨fun s x => x ∈ s.elems⟩

instance (x : κ) (s : OrderedSet κ) : Decidable (x ∈ s) :=
  inferInstanceAs (Decidable (x ∈ s.elems))

variable {s : OrderedSet κ} {x z : κ}

@[simp] theorem mem_elems : x ∈ s.elems ↔ x ∈ s := Iff.rfl

@[simp] theorem notMem_empty (x : κ) : x ∉ (∅ : OrderedSet κ) := not_mem_nil

/-- Insertion into an increasing list; a key already there is not repeated. -/
def insertElems (x : κ) : List κ → List κ
  | [] => [x]
  | y :: ys => if x < y then x :: y :: ys else if y < x then y :: insertElems x ys else y :: ys

theorem mem_insertElems {ys : List κ} : z ∈ insertElems x ys ↔ z = x ∨ z ∈ ys := by
  induction ys with
  | nil => simp [insertElems]
  | cons y ys ih =>
    unfold insertElems
    split_ifs with hxy hyx
    · simp
    · simp only [mem_cons, ih]
      tauto
    · have hx : x = y := le_antisymm (not_lt.mp hyx) (not_lt.mp hxy)
      simp [hx]

theorem sorted_insertElems {ys : List κ} (h : ys.Pairwise (· < ·)) :
    (insertElems x ys).Pairwise (· < ·) := by
  induction ys with
  | nil => exact pairwise_singleton _ _
  | cons y ys ih =>
    obtain ⟨hy, hys⟩ := pairwise_cons.mp h
    unfold insertElems
    split_ifs with hxy hyx
    · refine pairwise_cons.mpr ⟨fun z hz => ?_, h⟩
      rcases mem_cons.mp hz with rfl | hz
      · exact hxy
      · exact hxy.trans (hy z hz)
    · refine pairwise_cons.mpr ⟨fun z hz => ?_, ih hys⟩
      rcases mem_insertElems.mp hz with rfl | hz
      · exact hyx
      · exact hy z hz
    · exact h

/-- `s.insert(x)`. -/
def insert (s : OrderedSet κ) (x : κ) : OrderedSet κ :=
  ⟨insertElems x s.elems, sorted_insertElems s.sorted⟩

/-- `s.erase(x)`. -/
def erase (s : OrderedSet κ) (x : κ) : OrderedSet κ := ⟨s.elems.filter (· ≠ x), s.sorted.filter _⟩

@[simp] theorem mem_insert : z ∈ s.insert x ↔ z = x ∨ z ∈ s := mem_insertElems

@[simp] theorem mem_erase : z ∈ s.erase x ↔ z ∈ s ∧ z ≠ x := by
  rw [← mem_elems]
  simp [erase]

theorem filterMap_elems_congr {α : Type} {t : OrderedSet κ} {f : κ → Option α}
    (h : ∀ x, (f x).isSome = true → (x ∈ s ↔ x ∈ t)) :
    s.elems.filterMap f = t.elems.filterMap f := by
  have hdefined : ∀ l : List κ, l.filterMap f = (l.filter fun x => (f x).isSome).filterMap f := by
    intro l
    rw [filterMap_filter]
    refine filterMap_congr fun x _ => ?_
    cases hx : f x <;> simp
  have heq : s.elems.filter (fun x => (f x).isSome) = t.elems.filter (fun x => (f x).isSome) := by
    refine List.Pairwise.eq_of_mem_iff (s.sorted.filter _) (t.sorted.filter _) fun x => ?_
    simp only [mem_filter, mem_elems]
    exact and_congr_left (h x)
  rw [hdefined, hdefined t.elems, heq]

end OrderedSet

/-! ## Maps -/

/-- A map kept in increasing key order. -/
structure OrderedMap (κ ν : Type) [LinearOrder κ] where
  entries : List (κ × ν)
  sorted : entries.Pairwise (fun a b => a.1 < b.1)

instance [DecidableEq ν] : DecidableEq (OrderedMap κ ν) := fun a b =>
  decidable_of_iff (a.entries = b.entries)
    ⟨fun h => by cases a; cases b; cases h; rfl, fun h => h ▸ rfl⟩

namespace OrderedMap

instance : EmptyCollection (OrderedMap κ ν) := ⟨⟨[], .nil⟩⟩

/-- `m.find(k)`. -/
def find? (m : OrderedMap κ ν) (k : κ) : Option ν := (m.entries.find? (·.1 = k)).map (·.2)

/-- Insertion into a list increasing in its keys: the value of a key already there is
overwritten. -/
def assignEntries (k : κ) (v : ν) : List (κ × ν) → List (κ × ν)
  | [] => [(k, v)]
  | e :: es =>
    if k < e.1 then (k, v) :: e :: es
    else if e.1 < k then e :: assignEntries k v es else (k, v) :: es

variable {es : List (κ × ν)} {v : ν}

theorem keys_assignEntries {k z : κ} :
    z ∈ (assignEntries k v es).map Prod.fst ↔ z = k ∨ z ∈ es.map Prod.fst := by
  induction es with
  | nil => simp [assignEntries]
  | cons e es ih =>
    unfold assignEntries
    split_ifs with hlt hgt
    · simp
    · simp only [map_cons, mem_cons, ih]
      tauto
    · have hk : k = e.1 := le_antisymm (not_lt.mp hgt) (not_lt.mp hlt)
      simp [hk]

variable {m : OrderedMap κ ν} {k : κ}

theorem sorted_assignEntries (h : es.Pairwise (fun a b => a.1 < b.1)) :
    (assignEntries k v es).Pairwise (fun a b => a.1 < b.1) := by
  induction es with
  | nil => exact pairwise_singleton _ _
  | cons e es ih =>
    obtain ⟨he, hes⟩ := pairwise_cons.mp h
    unfold assignEntries
    split_ifs with hlt hgt
    · refine pairwise_cons.mpr ⟨fun z hz => ?_, h⟩
      rcases mem_cons.mp hz with rfl | hz
      · exact hlt
      · exact hlt.trans (he z hz)
    · refine pairwise_cons.mpr ⟨fun z hz => ?_, ih hes⟩
      rcases keys_assignEntries.mp (mem_map_of_mem hz) with hzk | hz'
      · rw [hzk]
        exact hgt
      · obtain ⟨w, hw, hwz⟩ := mem_map.mp hz'
        rw [← hwz]
        exact he w hw
    · have hk : k = e.1 := le_antisymm (not_lt.mp hgt) (not_lt.mp hlt)
      exact pairwise_cons.mpr ⟨fun z hz => hk ▸ he z hz, hes⟩

/-- `m[k] = v`. -/
def assign (m : OrderedMap κ ν) (k : κ) (v : ν) : OrderedMap κ ν :=
  ⟨assignEntries k v m.entries, sorted_assignEntries m.sorted⟩

/-- `m.insert(std::make_pair(k, v))`: the value of a key already there is kept. -/
def emplace (m : OrderedMap κ ν) (k : κ) (v : ν) : OrderedMap κ ν :=
  if (m.find? k).isSome then m else m.assign k v

/-- `m.erase(k)`. -/
def erase (m : OrderedMap κ ν) (k : κ) : OrderedMap κ ν :=
  ⟨m.entries.filter (·.1 ≠ k), m.sorted.filter _⟩

theorem find?_eq_some_iff : m.find? k = some v ↔ (k, v) ∈ m.entries := by
  obtain ⟨es, hes⟩ := m
  unfold find?
  induction es with
  | nil => simp
  | cons e es ih =>
    obtain ⟨he, hes⟩ := pairwise_cons.mp hes
    by_cases hk : e.1 = k
    -- the key was found, and every later key is larger
    · have hnot : (k, v) ∉ es := fun hmem => (he _ hmem).ne hk
      simp [hk, hnot, Prod.ext_iff, eq_comm]
    · have hne : (k, v) ≠ e := fun heq => hk (heq ▸ rfl)
      simp [hk, hne, ih hes]

theorem mem_assignEntries (h : es.Pairwise (fun a b => a.1 < b.1)) (e : κ × ν) :
    e ∈ assignEntries k v es ↔ e = (k, v) ∨ e.1 ≠ k ∧ e ∈ es := by
  induction es with
  | nil => simp [assignEntries]
  | cons first es ih =>
    obtain ⟨hfirst, hes⟩ := pairwise_cons.mp h
    unfold assignEntries
    split_ifs with hlt hgt
    · -- the key is below all others
      have hother : e ∈ first :: es → e.1 ≠ k := by
        intro he
        rcases mem_cons.mp he with rfl | he
        · exact hlt.ne'
        · exact (hlt.trans (hfirst e he)).ne'
      rw [mem_cons]
      exact or_congr_right ⟨fun he => ⟨hother he, he⟩, fun he => he.2⟩
    · have hne : e = first → e.1 ≠ k := fun he => he ▸ hgt.ne
      rw [mem_cons, mem_cons, ih hes]
      tauto
    · have hk : k = first.1 := le_antisymm (not_lt.mp hgt) (not_lt.mp hlt)
      have hother : e ∈ es → e.1 ≠ k := fun he => hk ▸ (hfirst e he).ne'
      have hsame : e = first → e.1 = k := fun he => he ▸ hk.symm
      rw [mem_cons, mem_cons]
      tauto

theorem find?_assign (m : OrderedMap κ ν) (k z : κ) (v : ν) :
    (m.assign k v).find? z = if z = k then some v else m.find? z := by
  ext w
  have hmem := mem_assignEntries (k := k) (v := v) m.sorted (z, w)
  rw [find?_eq_some_iff, assign, hmem]
  split_ifs with hz
  · simp [hz, eq_comm]
  · simp [hz, find?_eq_some_iff]

theorem find?_foldl_emplace (g : κ → ν) (xs : List κ) (m : OrderedMap κ ν) (k : κ) :
    (xs.foldl (fun m x => m.emplace x (g x)) m).find? k =
      (m.find? k).or (if k ∈ xs then some (g k) else none) := by
  induction xs generalizing m with
  | nil => simp
  | cons x xs ih =>
    rw [foldl_cons, ih, emplace]
    by_cases hk : k = x
    · subst hk
      cases hfind : m.find? k <;> simp [find?_assign, hfind]
    · split_ifs <;> simp_all [find?_assign]

theorem find?_erase (m : OrderedMap κ ν) (k z : κ) :
    (m.erase k).find? z = if z = k then none else m.find? z := by
  ext w
  rw [find?_eq_some_iff, erase, mem_filter]
  split_ifs with hz
  · simp [hz]
  · simp [hz, find?_eq_some_iff]

theorem find?_erase_eq_some {z : κ} :
    (m.erase k).find? z = some v ↔ m.find? z = some v ∧ z ≠ k := by
  rw [find?_erase, Option.ite_none_left_eq_some, and_comm]

@[simp] theorem find?_empty (k : κ) : (∅ : OrderedMap κ ν).find? k = none := rfl

theorem find?_foldl_assign {α : Type} (f : α → κ) (g : α → ν) (xs : List α) (m : OrderedMap κ ν)
    (k : κ) :
    (∃ x ∈ xs, f x = k ∧ (xs.foldl (fun m x => m.assign (f x) (g x)) m).find? k = some (g x)) ∨
      (∀ x ∈ xs, f x ≠ k) ∧ (xs.foldl (fun m x => m.assign (f x) (g x)) m).find? k = m.find? k := by
  induction xs generalizing m with
  | nil => exact .inr ⟨by simp, rfl⟩
  | cons x xs ih =>
    rw [foldl_cons]
    rcases ih (m.assign (f x) (g x)) with ⟨y, hy, hkey, hfind⟩ | ⟨hnone, hfind⟩
    · exact .inl ⟨y, mem_cons_of_mem _ hy, hkey, hfind⟩
    · rw [hfind, find?_assign]
      by_cases hx : k = f x
      · exact .inl ⟨x, mem_cons_self, hx.symm, if_pos hx⟩
      · refine .inr ⟨fun y hy => ?_, if_neg hx⟩
        rcases mem_cons.mp hy with rfl | hy
        · exact Ne.symm hx
        · exact hnone y hy

theorem nodup_entries (m : OrderedMap κ ν) : m.entries.Nodup :=
  m.sorted.imp fun h heq => h.ne (congrArg Prod.fst heq)

theorem entries_perm_of_find? (h : m.find? k = some v) :
    m.entries.Perm ((k, v) :: (m.erase k).entries) := by
  have hnot : (k, v) ∉ (m.erase k).entries := by simp [erase]
  refine (perm_ext_iff_of_nodup m.nodup_entries
    (nodup_cons.mpr ⟨hnot, nodup_entries _⟩)).mpr fun e => ?_
  obtain ⟨z, w⟩ := e
  rw [mem_cons, ← find?_eq_some_iff, ← find?_eq_some_iff, find?_erase]
  by_cases hz : z = k
  · subst hz
    simp [h, eq_comm]
  · simp [hz]

theorem entries_assign_perm (v : ν) (h : m.find? k = none) :
    (m.assign k v).entries.Perm ((k, v) :: m.entries) := by
  have hfresh : ∀ e ∈ m.entries, e.1 ≠ k := by
    rintro ⟨z, w⟩ he rfl
    rw [find?_eq_some_iff.mpr he] at h
    cases h
  refine (perm_ext_iff_of_nodup (nodup_entries _)
    (nodup_cons.mpr ⟨fun hmem => hfresh _ hmem rfl, m.nodup_entries⟩)).mpr fun e => ?_
  rw [mem_cons, assign, mem_assignEntries m.sorted]
  exact or_congr_right ⟨fun he => he.2, fun he => ⟨hfresh e he, he⟩⟩

theorem find?_assign_eq_some {v w : ν} {z : κ} (h : m.find? k = none) :
    (m.assign k v).find? z = some w ↔ (z = k ∧ w = v) ∨ m.find? z = some w := by
  rw [find?_eq_some_iff, (entries_assign_perm v h).mem_iff, mem_cons, Prod.mk.injEq,
    find?_eq_some_iff]

@[simp] theorem entries_empty : (∅ : OrderedMap κ ν).entries = [] := rfl

theorem entries_emplace_of_lt (v : ν) (h : ∀ e ∈ m.entries, e.1 < k) :
    (m.emplace k v).entries = m.entries ++ [(k, v)] := by
  have hfresh : m.find? k = none := by
    unfold find?
    rw [Option.map_eq_none_iff, find?_eq_none]
    intro e he
    simpa using (h e he).ne
  have hend : assignEntries k v m.entries = m.entries ++ [(k, v)] := by
    generalize m.entries = es at h ⊢
    induction es with
    | nil => rfl
    | cons e es ih =>
      obtain ⟨hlt, hes⟩ := forall_mem_cons.mp h
      simp [assignEntries, hlt, hlt.not_gt, ih hes]
  simpa [emplace, hfresh, assign] using hend

/-- Entries inserted in order stay in order. -/
theorem entries_foldl_emplace (h : (m.entries ++ es).Pairwise (fun a b => a.1 < b.1)) :
    (es.foldl (fun m e => m.emplace e.1 e.2) m).entries = m.entries ++ es := by
  induction es generalizing m with
  | nil => simp
  | cons e es ih =>
    have hlt : ∀ a ∈ m.entries, a.1 < e.1 := fun a ha =>
      (pairwise_append.mp h).2.2 a ha e mem_cons_self
    have hentries := entries_emplace_of_lt e.2 hlt
    rw [append_cons, ← hentries] at h
    rw [foldl_cons, ih h, hentries, ← append_cons]

end OrderedMap

end Container
