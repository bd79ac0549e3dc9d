import Mathlib.Data.List.AList

/-!
# Unordered maps

A hash map as a program sees it: an association list without repeated keys, whose list order
is the order in which the program iterates over it. The order carries no meaning, and an
insertion may rearrange it arbitrarily. Lookups never depend on it.
-/

namespace Container

open List AList

/-- A hash map: its entries in iteration order, no key twice. -/
abbrev UnorderedMap (κ ν : Type) := AList (fun _ : κ => ν)

namespace UnorderedMap

variable {κ ν σ : Type}

section Write

variable [DecidableEq κ] {k : κ} {m : UnorderedMap κ ν}

theorem mem_keys_of_lookup {v : ν} (h : m.lookup k = some v) : k ∈ m.keys := by
  rw [← AList.mem_keys, ← AList.lookup_isSome, h]
  rfl

theorem mem_entries_of_lookup {v : ν} (h : m.lookup k = some v) : ⟨k, v⟩ ∈ m.entries :=
  mem_lookup_iff.mp h

/-- `m[k] = v`: the value is overwritten in place, or a new entry is made. -/
def assign (m : UnorderedMap κ ν) (k : κ) (v : ν) : UnorderedMap κ ν :=
  match m.lookup k with
  | some _ => m.replace k v
  | none => m.insert k v

/-- Overwrite through an iterator: nothing happens when the key is absent. -/
def modify (m : UnorderedMap κ ν) (k : κ) (f : ν → ν) : UnorderedMap κ ν :=
  match m.lookup k with
  | some v => m.replace k (f v)
  | none => m

theorem dlookup_kreplace (l : List (Σ _ : κ, ν)) (a k : κ) (v : ν) : (l.kreplace a v).dlookup k =
      if k = a then (l.dlookup k).map fun _ => v else l.dlookup k := by
  induction l with
  | nil => simp [kreplace]
  | cons e l ih =>
    obtain ⟨b, w⟩ := e
    -- only the first entry of a key is replaced, and there is no second one
    by_cases hb : a = b
    · subst hb
      have hhead : kreplace a v (⟨a, w⟩ :: l) = ⟨a, v⟩ :: l := lookmap_cons_some _ _ (by simp)
      rw [hhead]
      by_cases hk : k = a
      · subst hk
        simp
      · rw [dlookup_cons_ne _ _ hk, dlookup_cons_ne _ _ hk, if_neg hk]
    · have htail : kreplace a v (⟨b, w⟩ :: l) = ⟨b, w⟩ :: kreplace a v l :=
        lookmap_cons_none _ _ (by simp [hb])
      rw [htail]
      by_cases hk : k = b
      · subst hk
        simp [Ne.symm hb]
      · rw [dlookup_cons_ne _ _ hk, dlookup_cons_ne _ _ hk, ih]

variable (m : UnorderedMap κ ν) (a k : κ)

theorem lookup_replace (v : ν) : (m.replace a v).lookup k =
      if k = a then (m.lookup k).map fun _ => v else m.lookup k :=
  dlookup_kreplace m.entries a k v

theorem map_kreplace {β : Type*} (f : (Σ _ : κ, ν) → β) {a : κ} {v : ν} {l : List (Σ _ : κ, ν)}
    (h : ∀ w, ⟨a, w⟩ ∈ l → f ⟨a, v⟩ = f ⟨a, w⟩) : (l.kreplace a v).map f = l.map f := by
  induction l with
  | nil => rfl
  | cons e l ih =>
    obtain ⟨b, w⟩ := e
    by_cases hb : a = b
    · subst hb
      have hhead : kreplace a v (⟨a, w⟩ :: l) = ⟨a, v⟩ :: l := lookmap_cons_some _ _ (by simp)
      rw [hhead, map_cons, map_cons, h w mem_cons_self]
    · have htail : kreplace a v (⟨b, w⟩ :: l) = ⟨b, w⟩ :: kreplace a v l :=
        lookmap_cons_none _ _ (by simp [hb])
      rw [htail, map_cons, map_cons, ih fun w' hw' => h w' (mem_cons_of_mem _ hw')]

/-- What does not tell the new value from the old one is read off the entries as before, in the
same order. -/
theorem map_entries_replace {β : Type*} (f : (Σ _ : κ, ν) → β) {m : UnorderedMap κ ν} {k : κ}
    {v w : ν} (hm : m.lookup k = some w) (hf : f ⟨k, v⟩ = f ⟨k, w⟩) :
    (m.replace k v).entries.map f = m.entries.map f := by
  refine map_kreplace f fun w' hw' => ?_
  have hlookup : m.lookup k = some w' := mem_lookup_iff.mpr hw'
  rw [hm] at hlookup
  rw [hf, Option.some.inj hlookup]

theorem lookup_assign (v : ν) : (m.assign a v).lookup k = if k = a then some v else m.lookup k := by
  unfold assign
  cases ha : m.lookup a with
  | some w =>
    simp only [lookup_replace]
    by_cases hk : k = a
    · subst hk
      simp [ha]
    · simp [hk]
  | none =>
    by_cases hk : k = a
    · subst hk
      simp
    · simp [hk, lookup_insert_ne hk]

theorem lookup_modify (f : ν → ν) :
    (m.modify a f).lookup k = if k = a then (m.lookup k).map f else m.lookup k := by
  unfold modify
  cases ha : m.lookup a with
  | some w =>
    simp only [lookup_replace]
    by_cases hk : k = a
    · subst hk
      simp [ha]
    · simp [hk]
  | none =>
    by_cases hk : k = a
    · subst hk
      simp [ha]
    · simp [hk]

@[simp] theorem keys_modify (a : κ) (f : ν → ν) : (m.modify a f).keys = m.keys := by
  unfold modify
  split
  · exact keys_replace _ _ _
  · rfl

theorem lookup_erase_eq : (m.erase a).lookup k = if k = a then none else m.lookup k := by
  by_cases hk : k = a
  · subst hk
    simp
  · simp [hk, lookup_erase_ne hk]

theorem lookup_foldl_erase (keys : List κ) (m : UnorderedMap κ ν) (k : κ) :
    (keys.foldl (fun m key => m.erase key) m).lookup k = if k ∈ keys then none else m.lookup k := by
  induction keys generalizing m with
  | nil => simp
  | cons first keys ih =>
    rw [foldl_cons, ih, lookup_erase_eq]
    by_cases hk : k = first <;> simp [hk]

/-- The entries of another map written one after the other: no key comes twice, so the order does
not matter. -/
theorem lookup_foldl_assign {α : Type} (f : α → ν) {es : List (Σ _ : κ, α)} (h : es.NodupKeys)
    (m : UnorderedMap κ ν) (k : κ) :
    (es.foldl (fun m e => m.assign e.1 (f e.2)) m).lookup k =
      ((es.dlookup k).map f).or (m.lookup k) := by
  induction es generalizing m with
  | nil => simp
  | cons e es ih =>
    obtain ⟨b, v⟩ := e
    rw [nodupKeys_cons] at h
    rw [foldl_cons, ih h.2, lookup_assign]
    by_cases hk : k = b
    · subst hk
      simp [dlookup_eq_none.mpr h.1]
    · rw [if_neg hk, dlookup_cons_ne es ⟨b, v⟩ hk]

section

variable {α : Type} {f : α → κ} {g : α → ν} {xs : List α} {m : UnorderedMap κ ν} {k : κ}

theorem mem_of_lookup_foldl_assign {v : ν}
    (h : (xs.foldl (fun m x => m.assign (f x) (g x)) m).lookup k = some v) :
    (∃ x ∈ xs, f x = k ∧ v = g x) ∨ m.lookup k = some v := by
  -- of two writes to one key the last is kept, so the map filled so far matters
  induction xs generalizing m with
  | nil => exact .inr h
  | cons x xs ih =>
    rcases ih h with ⟨y, hy, hkey, hvalue⟩ | hold
    · exact .inl ⟨y, mem_cons_of_mem _ hy, hkey, hvalue⟩
    · rw [lookup_assign] at hold
      split at hold
      · rename_i hkey
        exact .inl ⟨x, mem_cons_self, hkey.symm, (Option.some.inj hold).symm⟩
      · exact .inr hold

theorem isSome_lookup_foldl_assign (h : (∃ x ∈ xs, f x = k) ∨ (m.lookup k).isSome = true) :
    ((xs.foldl (fun m x => m.assign (f x) (g x)) m).lookup k).isSome = true := by
  induction xs generalizing m with
  | nil => exact h.resolve_left (by simp)
  | cons x xs ih =>
    refine ih ?_
    rw [exists_mem_cons_iff, or_assoc] at h
    rcases h with hx | hlater | hold
    · exact .inr (by rw [lookup_assign, if_pos hx.symm]; rfl)
    · exact .inl hlater
    · refine .inr ?_
      rw [lookup_assign]
      split
      · rfl
      · exact hold

theorem lookup_foldl_assign_of_mem (h : ∃ x ∈ xs, f x = k) :
    ∃ x ∈ xs, f x = k ∧ (xs.foldl (fun m x => m.assign (f x) (g x)) m).lookup k = some (g x) := by
  induction xs generalizing m with
  | nil => simp at h
  | cons x xs ih =>
    by_cases hlater : ∃ y ∈ xs, f y = k
    · obtain ⟨y, hy, hkey, hlookup⟩ := ih hlater
      exact ⟨y, mem_cons_of_mem _ hy, hkey, hlookup⟩
    · have hx : f x = k := ((exists_mem_cons_iff _ _ _).mp h).resolve_right hlater
      have hsome : (((x :: xs).foldl (fun m x => m.assign (f x) (g x)) m).lookup k).isSome = true :=
        isSome_lookup_foldl_assign (.inl h)
      obtain ⟨v, hv⟩ := Option.isSome_iff_exists.mp hsome
      rw [foldl_cons] at hv ⊢
      rcases mem_of_lookup_foldl_assign hv with ⟨y, hy, hkey, -⟩ | hold
      · exact absurd ⟨y, hy, hkey⟩ hlater
      · rw [lookup_assign, if_pos hx.symm] at hold
        exact ⟨x, mem_cons_self, hx, hv.trans hold.symm⟩

end

end Write

/-! ## Loops over a map -/

/-- One pass over the entries, in order: each value is rewritten, and a state is carried from
entry to entry. -/
def traverseEntries (f : σ → κ → ν → σ × ν) : σ → List (Σ _ : κ, ν) → σ × List (Σ _ : κ, ν)
  | s, [] => (s, [])
  | s, ⟨k, v⟩ :: es =>
    ((traverseEntries f (f s k v).1 es).1, ⟨k, (f s k v).2⟩ :: (traverseEntries f (f s k v).1 es).2)

theorem keys_traverseEntries (f : σ → κ → ν → σ × ν) (s : σ) (es : List (Σ _ : κ, ν)) :
    (traverseEntries f s es).2.keys = es.keys := by
  induction es generalizing s with
  | nil => rfl
  | cons e es ih =>
    obtain ⟨k, v⟩ := e
    simp [traverseEntries, keys_cons, ih]

/-- `for (auto& value : m)` with a loop-carried state. -/
def traverse (f : σ → κ → ν → σ × ν) (s : σ) (m : UnorderedMap κ ν) : σ × UnorderedMap κ ν :=
  ((traverseEntries f s m.entries).1, ⟨(traverseEntries f s m.entries).2, by
      rw [NodupKeys, keys_traverseEntries]
      exact m.nodupKeys⟩)

theorem map_entries_traverse {β : Type*} (g : (Σ _ : κ, ν) → β) {f : σ → κ → ν → σ × ν}
    (hg : ∀ s k v, g ⟨k, (f s k v).2⟩ = g ⟨k, v⟩) (s : σ) (m : UnorderedMap κ ν) :
    (traverse f s m).2.entries.map g = m.entries.map g := by
  change (traverseEntries f s m.entries).2.map g = _
  induction m.entries generalizing s with
  | nil => rfl
  | cons e es ih => rw [traverseEntries, map_cons, map_cons, ih, hg]

section Lookup

variable [DecidableEq κ]

theorem lookup_traverse (f : σ → κ → ν → σ × ν) (s : σ) (m : UnorderedMap κ ν) (k : κ) :
    ∃ s', (traverse f s m).2.lookup k = (m.lookup k).map fun v => (f s' k v).2 := by
  change ∃ s', (traverseEntries f s m.entries).2.dlookup k = (m.entries.dlookup k).map _
  induction m.entries generalizing s with
  | nil => exact ⟨s, rfl⟩
  | cons e es ih =>
    obtain ⟨b, v⟩ := e
    by_cases hk : k = b
    · subst hk
      exact ⟨s, by simp [traverseEntries]⟩
    -- the state at the key is the one the entries before it lead to
    · obtain ⟨s', hs'⟩ := ih (f s b v).1
      refine ⟨s', ?_⟩
      rw [traverseEntries, dlookup_cons_ne _ _ hk, dlookup_cons_ne _ _ hk, hs']

/-- A state property that the body keeps, and adds at certain entries, holds after the loop where
it held before or one of these entries was passed. -/
theorem traverse_state_iff {f : σ → κ → ν → σ × ν} {P : σ → Prop} {R : κ → ν → Prop}
    (hf : ∀ s k v, P (f s k v).1 ↔ P s ∨ R k v) (s : σ) (m : UnorderedMap κ ν) :
    P (traverse f s m).1 ↔ P s ∨ ∃ k v, m.lookup k = some v ∧ R k v := by
  have hentries : (∃ e ∈ m.entries, R e.1 e.2) ↔ ∃ k v, m.lookup k = some v ∧ R k v := by
    constructor
    · rintro ⟨⟨k, v⟩, he, hR⟩
      exact ⟨k, v, mem_lookup_iff.mpr he, hR⟩
    · rintro ⟨k, v, hk, hR⟩
      exact ⟨⟨k, v⟩, mem_entries_of_lookup hk, hR⟩
  rw [← hentries]
  change P (traverseEntries f s m.entries).1 ↔ _
  induction m.entries generalizing s with
  | nil => simp [traverseEntries]
  | cons e es ih => rw [traverseEntries, ih, hf, or_assoc, exists_mem_cons_iff]

end Lookup

end UnorderedMap

/-! ## Iteration order -/

/-- What an insertion may do to the iteration order of a hash map: any rearrangement of its
entries. -/
structure Arrangement (κ ν : Type) where
  run : UnorderedMap κ ν → UnorderedMap κ ν
  perm : ∀ m, (run m).entries.Perm m.entries

namespace Arrangement

variable {κ ν : Type}

/-- The order is left as it is. -/
def keep : Arrangement κ ν := ⟨id, fun _ => .refl _⟩

/-- The order is reversed. -/
def reverse : Arrangement κ ν where
  run m := ⟨m.entries.reverse, (perm_nodupKeys (reverse_perm m.entries)).mpr m.nodupKeys⟩
  perm m := reverse_perm m.entries

/-- Lookups do not see the iteration order. -/
theorem lookup_run [DecidableEq κ] (a : Arrangement κ ν) (m : UnorderedMap κ ν) (k : κ) :
    (a.run m).lookup k = m.lookup k :=
  perm_lookup (a.perm m)

end Arrangement

end Container
