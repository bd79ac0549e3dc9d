import Nori.Container.UnorderedMap

/-!
# Hash tables and their iteration order

A hash table that is iterated bucket by bucket. The entries of a bucket stand together. A new key
goes to the front of its bucket, or to the front of the table if the bucket is empty. Only a rehash,
which takes more buckets, moves the entries that are there.

A program that stops an iteration at a key and goes on from it later needs to know what stands
behind the key then. The keys that stood behind it and were never taken out still do, even if the
key itself was taken out and came back.
-/

namespace Container

open List AList

section Order

variable {κ ι : Type}

/-- Keys of the same bucket stand together. -/
def Grouped (f : κ → ι) : List κ → Prop
  | [] => True
  | k :: l => (f k ∈ l.map f → l.head?.map f = some (f k)) ∧ Grouped f l

/-- A key is put in front of the first one of its bucket. -/
def placeFirst {α : Type} [DecidableEq ι] (f : α → ι) (a : α) : List α → List α
  | [] => [a]
  | b :: l => if f b = f a then a :: b :: l else b :: placeFirst f a l

/-- Where a new key goes. -/
def place {α : Type} [DecidableEq ι] (f : α → ι) (a : α) (l : List α) : List α :=
  if f a ∈ l.map f then placeFirst f a l else a :: l

section Place

variable {α : Type} [DecidableEq ι] {f : α → ι} {a : α} {l : List α}

theorem placeFirst_perm : (placeFirst f a l).Perm (a :: l) := by
  induction l with
  | nil => exact .refl _
  | cons b l ih =>
    rw [placeFirst]
    split
    · exact .refl _
    · exact (ih.cons b).trans (.swap a b l)

theorem place_perm : (place f a l).Perm (a :: l) := by
  unfold place
  split
  · exact placeFirst_perm
  · exact .refl _

theorem map_place {β : Type} {g : β → ι} (h : α → β) (hg : ∀ a, g (h a) = f a) :
    (place f a l).map h = place g (h a) (l.map h) := by
  have hfirst : (placeFirst f a l).map h = placeFirst g (h a) (l.map h) := by
    induction l with
    | nil => rfl
    | cons b l ih =>
      rw [map_cons, placeFirst, placeFirst, hg, hg]
      split
      · rfl
      · rw [map_cons, ih]
  have hmap : (l.map h).map g = l.map f := by
    rw [map_map]
    exact map_congr_left fun a _ => hg a
  unfold place
  rw [hg, hmap]
  split
  · exact hfirst
  · rfl

end Place

variable {f : κ → ι} {k : κ} {l : List κ}

theorem Grouped.of_nodup (h : l.Nodup) : Grouped id l := by
  induction l with
  | nil => trivial
  | cons a l ih =>
    obtain ⟨ha, hl⟩ := nodup_cons.mp h
    exact ⟨fun hmem => absurd (by simpa using hmem) ha, ih hl⟩

theorem Grouped.placeFirst [DecidableEq ι] (h : Grouped f l) (hk : f k ∈ l.map f) :
    Grouped f (Container.placeFirst f k l) := by
  induction l with
  | nil => cases hk
  | cons b l ih =>
    rw [Container.placeFirst]
    split
    · rename_i heq
      exact ⟨fun _ => congrArg some heq, h⟩
    · rename_i hne
      have hrest : f k ∈ l.map f := by
        rcases mem_cons.mp hk with heq | hmem
        · exact absurd heq.symm hne
        · exact hmem
      refine ⟨fun hmem => ?_, ih h.2 hrest⟩
      -- the first key of the rest stays the first one, as it shares its bucket with `b`
      have hmem' : f b ∈ l.map f := by
        rw [(placeFirst_perm.map f).mem_iff, map_cons, mem_cons] at hmem
        exact hmem.resolve_left hne
      have hhead := h.1 hmem'
      cases l with
      | nil => cases hhead
      | cons c l =>
        have hc : f c = f b := Option.some.inj hhead
        rw [Container.placeFirst, if_neg (hc ▸ hne)]
        exact congrArg some hc

theorem Grouped.place [DecidableEq ι] (h : Grouped f l) : Grouped f (Container.place f k l) := by
  unfold Container.place
  split
  · rename_i hk
    exact h.placeFirst hk
  · rename_i hk
    exact ⟨fun hmem => absurd hmem hk, h⟩

theorem Grouped.erase [DecidableEq κ] (h : Grouped f l) (k : κ) : Grouped f (l.erase k) := by
  induction l with
  | nil => trivial
  | cons b l ih =>
    rw [erase_cons]
    split
    · exact h.2
    · refine ⟨fun hmem => ?_, ih h.2⟩
      obtain ⟨a, ha, hfa⟩ := mem_map.mp hmem
      have hhead := h.1 (mem_map.mpr ⟨a, mem_of_mem_erase ha, hfa⟩)
      cases l with
      | nil => cases hhead
      | cons c l =>
        rw [erase_cons] at ha ⊢
        split
        · rename_i hck
          -- the head went; what is left of the bucket follows it
          rw [if_pos hck] at ha
          have hc : f c = f b := Option.some.inj hhead
          have hnext := h.2.1 (mem_map.mpr ⟨a, ha, hfa.trans hc.symm⟩)
          rw [hnext, hc]
        · exact hhead

/-! ### What stands behind a key -/

/-- Keys with `Q` stand behind the first one with `p`, if there is one. -/
def Behind (p Q : κ → Prop) : List κ → Prop
  | [] => True
  | a :: l => p a ∨ (¬ (Q a ∧ ∃ b ∈ l, p b) ∧ Behind p Q l)

namespace Behind

variable {p p' Q Q' : κ → Prop} {a : κ}

theorem of_forall_not (h : ∀ a ∈ l, ¬ p a) : Behind p Q l := by
  induction l with
  | nil => trivial
  | cons a l ih =>
    have hl : ∀ b ∈ l, ¬ p b := fun b hb => h b (mem_cons_of_mem _ hb)
    exact .inr ⟨fun ⟨_, b, hb, hp⟩ => hl b hb hp, ih hl⟩

theorem mono (h : Behind p Q l) (hQ : ∀ a, Q' a → Q a) : Behind p Q' l := by
  induction l with
  | nil => trivial
  | cons a l ih =>
    exact h.imp_right fun ⟨hfirst, hl⟩ => ⟨fun ⟨ha, hb⟩ => hfirst ⟨hQ a ha, hb⟩, ih hl⟩

/-- The first key of a larger kind stands no later. -/
theorem weaken (h : Behind p Q l) (hmem : ∃ a ∈ l, p a) (hp : ∀ a, p a → p' a) : Behind p' Q l := by
  induction l with
  | nil => trivial
  | cons a l ih =>
    by_cases ha : p' a
    · exact .inl ha
    · obtain ⟨hfirst, hl⟩ := h.resolve_left fun hpa => ha (hp a hpa)
      obtain ⟨b, hb, hpb⟩ := hmem
      have hb' : b ∈ l := (mem_cons.mp hb).resolve_left fun heq => ha (heq ▸ hp b hpb)
      exact .inr ⟨fun ⟨hQ, _⟩ => hfirst ⟨hQ, b, hb', hpb⟩, ih hl ⟨b, hb', hpb⟩⟩

theorem of_split {l₁ l₂ : List κ} (h : ∀ b ∈ l₁, ¬ Q b) (ha : p a) :
    Behind p Q (l₁ ++ a :: l₂) := by
  induction l₁ with
  | nil => exact .inl ha
  | cons b l₁ ih =>
    exact .inr ⟨fun hb => h b mem_cons_self hb.1, ih fun c hc => h c (mem_cons_of_mem _ hc)⟩

theorem not_of_mem_takeWhile [DecidablePred p] (h : Behind p Q l) (hp : ∃ b ∈ l, p b)
    (ha : a ∈ l.takeWhile fun b => !decide (p b)) : ¬ Q a := by
  induction l with
  | nil => cases ha
  | cons b l ih =>
    by_cases hb : p b
    · rw [takeWhile_cons_of_neg (by simp [hb])] at ha
      cases ha
    · obtain ⟨hfirst, hl⟩ := h.resolve_left hb
      rw [takeWhile_cons_of_pos (by simp [hb])] at ha
      obtain ⟨c, hc, hpc⟩ := hp
      have hc' : c ∈ l := (mem_cons.mp hc).resolve_left fun heq => hb (heq ▸ hpc)
      rcases mem_cons.mp ha with rfl | ha'
      · exact fun hQ => hfirst ⟨hQ, c, hc', hpc⟩
      · exact ih hl ⟨c, hc', hpc⟩ ha'

theorem erase [DecidableEq κ] {i : ι} (hl : Grouped f l) (h : Behind (f · = i) Q l) (k : κ) :
    Behind (f · = i) Q (l.erase k) := by
  induction l with
  | nil => trivial
  | cons a l ih =>
    rw [erase_cons]
    split
    · rcases h with ha | ⟨-, hrest⟩
      · -- the first key of the kind goes: the next one follows it, or there is none
        by_cases hmem : f a ∈ l.map f
        · have hhead := hl.1 hmem
          cases l with
          | nil => cases hhead
          | cons b l => exact .inl ((Option.some.inj hhead).trans ha)
        · refine of_forall_not fun b hb hfb => hmem ?_
          exact mem_map.mpr ⟨b, hb, hfb.trans ha.symm⟩
      · exact hrest
    · refine h.imp_right fun ⟨hfirst, hrest⟩ => ⟨?_, ih hl.2 hrest⟩
      rintro ⟨hQ, b, hb, hfb⟩
      exact hfirst ⟨hQ, b, mem_of_mem_erase hb, hfb⟩

theorem place_of_not [DecidableEq ι] (h : Behind p Q l) (hp : ¬ p a) (hQ : ¬ Q a) :
    Behind p Q (place f a l) := by
  have hfirst : Behind p Q (placeFirst f a l) := by
    induction l with
    | nil => exact .inr ⟨fun ⟨ha, _⟩ => hQ ha, trivial⟩
    | cons b l ih =>
      rw [placeFirst]
      split
      · exact .inr ⟨fun ⟨ha, _⟩ => hQ ha, h⟩
      · refine h.imp_right fun ⟨hb, hl⟩ => ⟨?_, ih hl⟩
        rintro ⟨hQb, c, hc, hpc⟩
        rw [placeFirst_perm.mem_iff, mem_cons] at hc
        exact hb ⟨hQb, c, hc.resolve_left fun heq => hp (heq ▸ hpc), hpc⟩
  unfold place
  split
  · exact hfirst
  · exact .inr ⟨fun ⟨ha, _⟩ => hQ ha, h⟩

theorem place_self [DecidableEq ι] (h : Behind (f · = f a) Q l) : Behind (· = a) Q (place f a l)
    := by
  have hfirst : f a ∈ l.map f → Behind (· = a) Q (placeFirst f a l) := by
    intro hmem
    induction l with
    | nil => cases hmem
    | cons b l ih =>
      rw [placeFirst]
      split
      · exact .inl rfl
      · rename_i hne
        obtain ⟨hb, hl⟩ := h.resolve_left hne
        have hrest : f a ∈ l.map f := by
          rcases mem_cons.mp hmem with heq | hmem
          · exact absurd heq.symm hne
          · exact hmem
        refine .inr ⟨?_, ih hl hrest⟩
        rintro ⟨hQb, -⟩
        obtain ⟨c, hc, hfc⟩ := mem_map.mp hrest
        exact hb ⟨hQb, c, hc, hfc⟩
  unfold place
  split
  · rename_i hmem
    exact hfirst hmem
  · exact .inl rfl

end Behind

/-- The keys with `Q` can be reached from where an iteration stopped: they stand behind the key it
stopped at, and behind the beginning of its bucket in case the key is gone and comes back. -/
structure Resumable (f : κ → ι) (last : κ) (Q : κ → Prop) (l : List κ) : Prop where
  bucket : Behind (f · = f last) Q l
  key : Behind (id · = last) Q l

namespace Resumable

variable {last a : κ} {Q Q' : κ → Prop}

theorem mono (h : Resumable f last Q l) (hQ : ∀ a, Q' a → Q a) : Resumable f last Q' l :=
  ⟨h.bucket.mono hQ, h.key.mono hQ⟩

theorem of_split {l₁ l₂ : List κ} (h : ∀ b ∈ l₁, ¬ Q b) : Resumable f last Q (l₁ ++ last :: l₂) :=
  ⟨Behind.of_split h rfl, Behind.of_split h rfl⟩

theorem erase [DecidableEq κ] (hl : Grouped f l) (hnodup : l.Nodup) (h : Resumable f last Q l)
    (k : κ) :
    Resumable f last Q (l.erase k) :=
  ⟨h.bucket.erase hl k, h.key.erase (Grouped.of_nodup hnodup) k⟩

/-- A new key comes in that the iteration does not have to see. -/
theorem place [DecidableEq ι] (h : Resumable f last Q l) (hQ : ¬ Q a) :
    Resumable f last Q (place f a l) := by
  have hkey : Behind (id · = last) Q (Container.place f a l) := by
    by_cases ha : a = last
    · subst ha
      exact h.bucket.place_self
    · exact h.key.place_of_not ha hQ
  refine ⟨?_, hkey⟩
  by_cases ha : f a = f last
  · have hbucket : Behind (f · = f a) Q l := by
      rw [ha]
      exact h.bucket
    have hmem : a ∈ Container.place f a l := place_perm.mem_iff.mpr mem_cons_self
    refine hbucket.place_self.weaken ⟨a, hmem, rfl⟩ ?_
    rintro b rfl
    exact ha
  · exact h.bucket.place_of_not ha hQ

/-- What a resumed iteration passes over. -/
theorem not_of_mem_takeWhile [DecidableEq κ] (h : Resumable f last Q l) (hlast : last ∈ l)
    (ha : a ∈ l.takeWhile (· ≠ last)) : ¬ Q a := by
  refine h.key.not_of_mem_takeWhile ⟨last, hlast, rfl⟩ ?_
  simpa using ha

end Resumable

end Order

/-! ## Tables -/

/-- A hash table: the entries in iteration order, those of a bucket together. -/
structure HashTable (κ ν : Type) (bucket : ℕ → κ → ℕ) where
  bucketCount : ℕ
  map : UnorderedMap κ ν
  grouped : Grouped (bucket bucketCount) map.keys

namespace HashTable

variable {κ ν : Type} {bucket : ℕ → κ → ℕ}

/-- A table with an entry for a new key. -/
def insertNew (t : HashTable κ ν bucket) (k : κ) (v : ν) (h : k ∉ t.map) :
    HashTable κ ν bucket where
  bucketCount := t.bucketCount
  map :=
    { entries := place (fun e => bucket t.bucketCount e.1) ⟨k, v⟩ t.map.entries
      nodupKeys := by
        have hperm := (place_perm (f := fun e : Σ _ : κ, ν => bucket t.bucketCount e.1)
          (a := ⟨k, v⟩) (l := t.map.entries))
        rw [List.perm_nodupKeys hperm, List.nodupKeys_cons]
        exact ⟨h, t.map.nodupKeys⟩ }
  grouped := by
    change Grouped _
      ((place (fun e => bucket t.bucketCount e.1) ⟨k, v⟩ t.map.entries).map Sigma.fst)
    rw [map_place (g := bucket t.bucketCount) Sigma.fst fun _ => rfl]
    exact t.grouped.place

/-- The same entries over more buckets, in any order. -/
def RehashOf (t t' : HashTable κ ν bucket) : Prop :=
  t'.map.entries.Perm t.map.entries ∧ t.bucketCount < t'.bucketCount

variable {t t' : HashTable κ ν bucket} {k : κ} {v : ν}

theorem keys_insertNew (h : k ∉ t.map) :
    (t.insertNew k v h).map.keys = place (bucket t.bucketCount) k t.map.keys :=
  map_place Sigma.fst fun _ => rfl

theorem RehashOf.mem_iff (h : t.RehashOf t') : k ∈ t'.map ↔ k ∈ t.map := by
  have hperm : t'.map.keys.Perm t.map.keys := h.1.map Sigma.fst
  rw [AList.mem_keys, AList.mem_keys, hperm.mem_iff]

variable [DecidableEq κ]

/-- `t[k] = v`: the value is overwritten in place, or a new entry is made. -/
def assign (t : HashTable κ ν bucket) (k : κ) (v : ν) : HashTable κ ν bucket :=
  if h : k ∈ t.map then
    { t with
      map := t.map.replace k v
      grouped := by
        rw [keys_replace]
        exact t.grouped }
  else t.insertNew k v h

def erase (t : HashTable κ ν bucket) (k : κ) : HashTable κ ν bucket where
  bucketCount := t.bucketCount
  map := t.map.erase k
  grouped := by
    rw [keys_erase]
    exact t.grouped.erase k

theorem mem_erase {k' : κ} : k' ∈ (t.erase k).map ↔ k' ≠ k ∧ k' ∈ t.map := AList.mem_erase

@[simp] theorem bucketCount_assign : (t.assign k v).bucketCount = t.bucketCount := by
  unfold assign
  split <;> rfl

section Resume

variable {last : κ} {Q : κ → Prop}

theorem resumable_assign (h : Resumable (bucket t.bucketCount) last Q t.map.keys)
    (hQ : k ∉ t.map → ¬ Q k) :
    Resumable (bucket t.bucketCount) last Q (t.assign k v).map.keys := by
  unfold assign
  split
  · rw [keys_replace]
    exact h
  · rename_i hk
    rw [keys_insertNew]
    exact h.place (hQ hk)

theorem resumable_erase (h : Resumable (bucket t.bucketCount) last Q t.map.keys) (k : κ) :
    Resumable (bucket t.bucketCount) last Q (t.erase k).map.keys := by
  rw [erase, keys_erase]
  exact h.erase t.grouped t.map.keys_nodup k

end Resume

end HashTable

end Container
