import Mathlib.Data.Nat.Bitwise
import Mathlib.Data.Nat.Size
import Mathlib.Tactic.SplitIfs

/-!
# Bucket counts of `FlatMap`

`find_power2` fills a word with ones from its highest bit down, by shifts that double what is filled
already. It does so with the word below the count, so that `0` and the counts above `2 ^ 63` wrap
around to no bucket at all. `init` accepts that, and `flatmap_mod` then leaves every hash code as it
is.
-/

namespace Butil

/-! ## Filling a word from its highest bit down -/

/-- No bit is set from `m` on, and the `w` bits below it are. -/
def Filled (m w x : ℕ) : Prop := ∀ i, (x.testBit i → i < m) ∧ (i < m → m ≤ i + w → x.testBit i)

section Filled

open Nat

variable {m w : ℕ}

theorem Filled.size (x : ℕ) : Filled x.size 1 x := by
  intro i
  refine ⟨fun hi => lt_size.mpr (ge_two_pow_of_testBit hi), fun hlt hle => ?_⟩
  exact testBit_of_two_pow_le_and_two_pow_add_one_gt (lt_size.mp hlt) (size_le.mp hle)

/-- A bit that is not set yet is `w` below one that is. -/
theorem Filled.smear {x s : UInt64} (h : Filled m w x.toNat) (hs : s.toNat % 64 = w) :
    Filled m (2 * w) (x ||| x >>> s).toNat := by
  intro i
  obtain ⟨hlt, hset⟩ := h i
  obtain ⟨hlt', hset'⟩ := h (w + i)
  rw [UInt64.toNat_or, UInt64.toNat_shiftRight, hs, testBit_or, testBit_shiftRight,
    Bool.or_eq_true]
  refine ⟨fun hi => ?_, fun hi hle => ?_⟩
  · exact hi.elim hlt fun hi => (Nat.le_add_left i w).trans_lt (hlt' hi)
  · by_cases hnear : m ≤ i + w
    · exact .inl (hset hi hnear)
    · exact .inr (hset' (by omega) (by omega))

theorem Filled.eq_two_pow_sub_one {x : ℕ} (h : Filled m w x) (hw : m ≤ w) : x = 2 ^ m - 1 := by
  refine eq_of_testBit_eq fun i => ?_
  rw [testBit_two_pow_sub_one, Bool.eq_iff_iff, decide_eq_true_iff]
  exact ⟨(h i).1, fun hi => (h i).2 hi (by omega)⟩

end Filled

/-! ## The map -/

def findPower2 (b : UInt64) : UInt64 :=
  let b := b - 1
  let b := b ||| (b >>> 1)
  let b := b ||| (b >>> 2)
  let b := b ||| (b >>> 4)
  let b := b ||| (b >>> 8)
  let b := b ||| (b >>> 16)
  let b := b ||| (b >>> 32)
  b + 1

def flatmapRound (nbucket : UInt64) : UInt64 := findPower2 nbucket

def flatmapMod (hashCode nbucket : UInt64) : UInt64 := hashCode &&& (nbucket - 1)

/-- What a map is made of: the size of its buckets, which have a pointer each, its load factor, and
whether it has a thumbnail with a bit for each bucket. -/
structure FlatMapType where
  sizeofBucket : UInt64
  sizeof_pos : 8 ≤ sizeofBucket
  loadFactor : UInt32
  sparse : Bool

/-- The memory there is at a call. -/
abbrev Malloc := UInt64 → Bool

def bitArrayMalloc (malloc : Malloc) (nbit : UInt64) : Bool :=
  nbit ≠ 0 && malloc ((nbit + 63) / 64 * 8)

/-- `FlatMap::init` of a map that is not initialized: the number of buckets if it returns `0`. Where
the product wraps around, the loop over the buckets runs out of the memory and nothing is
returned. -/
def FlatMapType.init (t : FlatMapType) (malloc : Malloc) (nbucket : UInt64) : Option UInt64 :=
  let nbucket := flatmapRound nbucket
  if (10 ≤ t.loadFactor ∧ t.loadFactor ≤ 100) ∧ malloc (t.sizeofBucket * (nbucket + 1)) ∧
      t.sizeofBucket.toNat * (nbucket.toNat + 1) < 2 ^ 64 ∧
      (t.sparse → bitArrayMalloc malloc nbucket) then some nbucket
  else none

/-- `FlatMap::resize`: the number of buckets afterwards. The elements go into the new map one by
one, which can make that grow again by calls of the same kind. -/
def FlatMapType.resize (t : FlatMapType) (nbucket nbucket2 : UInt64) (malloc : Malloc) : UInt64 :=
  let nbucket2 := flatmapRound nbucket2
  if nbucket = nbucket2 then nbucket else (t.init malloc nbucket2).getD nbucket

/-- The number of buckets after calls of `resize(_nbucket + 1)`. -/
def FlatMapType.grow (t : FlatMapType) (nbucket : UInt64) (calls : List Malloc) : UInt64 :=
  calls.foldl (fun m => t.resize m (m + 1)) nbucket

/-- The buckets are a power of two, at least as many as asked for, and hash codes are taken to
them. -/
def Addressed (n nbucket : UInt64) : Prop :=
  (∃ k, nbucket.toNat = 2 ^ k) ∧ max n.toNat 1 ≤ nbucket.toNat ∧ ∀ h, flatmapMod h nbucket < nbucket

/-! ## Rounding -/

variable {t : FlatMapType} {malloc : Malloc} {n m : UInt64}

theorem toNat_findPower2 (n : UInt64) :
    (findPower2 n).toNat = 2 ^ (n - 1).toNat.size % 2 ^ 64 := by
  have hfilled := ((((((Filled.size (n - 1).toNat).smear (s := 1) rfl).smear (s := 2) rfl).smear
    (s := 4) rfl).smear (s := 8) rfl).smear (s := 16) rfl).smear (s := 32) rfl
  have hle : (n - 1).toNat.size ≤ 64 := Nat.size_le.mpr (n - 1).toNat_lt
  rw [findPower2, UInt64.toNat_add, hfilled.eq_two_pow_sub_one hle]
  congr 1
  exact Nat.sub_add_cancel Nat.one_le_two_pow

theorem flatmapMod_lt {k : ℕ} (h : m.toNat = 2 ^ k) (code : UInt64) : flatmapMod code m < m := by
  have hone : (1 : UInt64) ≤ m := UInt64.le_iff_toNat_le.mpr (h ▸ Nat.one_le_two_pow)
  rw [UInt64.lt_iff_toNat_lt, flatmapMod, UInt64.toNat_and, UInt64.toNat_sub_of_le m 1 hone, h]
  exact (Nat.and_two_pow_sub_one_eq_mod _ k).trans_lt (Nat.mod_lt _ (Nat.two_pow_pos k))

/-- In range, `find_power2` rounds up to a power of two. -/
theorem addressed_findPower2 (hone : 1 ≤ n.toNat) (hmax : n.toNat ≤ 2 ^ 63) :
    Addressed n (findPower2 n) ∧ (findPower2 n).toNat ≤ 2 ^ 63 := by
  have hpred : (n - 1).toNat = n.toNat - 1 := UInt64.toNat_sub_of_le n 1 hone
  have hsize : (n - 1).toNat.size ≤ 63 := by
    rw [hpred, Nat.size_le]
    omega
  have hpow : 2 ^ (n - 1).toNat.size ≤ 2 ^ 63 := Nat.pow_le_pow_right Nat.two_pos hsize
  have heq : (findPower2 n).toNat = 2 ^ (n - 1).toNat.size :=
    (toNat_findPower2 n).trans (Nat.mod_eq_of_lt (hpow.trans_lt (by decide)))
  have hself := Nat.lt_size_self (n - 1).toNat
  exact ⟨⟨⟨_, heq⟩, by omega, flatmapMod_lt heq⟩, by omega⟩

theorem findPower2_eq_zero (h : ¬ (1 ≤ n.toNat ∧ n.toNat ≤ 2 ^ 63)) : findPower2 n = 0 := by
  have hpred : (n - 1).toNat = (2 ^ 64 - 1 + n.toNat) % 2 ^ 64 := UInt64.toNat_sub n 1
  have hsize : (n - 1).toNat.size = 64 := by
    refine le_antisymm (Nat.size_le.mpr (n - 1).toNat_lt) (Nat.lt_size.mpr ?_)
    have := n.toNat_lt
    omega
  rw [← UInt64.toNat_inj, toNat_findPower2, hsize]
  rfl

/-- A map that is initialized fits into the memory. -/
theorem FlatMapType.init_spec (h : t.init malloc n = some m) :
    findPower2 n = m ∧ m.toNat < 2 ^ 61 := by
  have hpos : 8 ≤ t.sizeofBucket.toNat := UInt64.le_iff_toNat_le.mp t.sizeof_pos
  simp only [init, Option.ite_none_right_eq_some, Option.some.injEq] at h
  obtain ⟨⟨-, -, hfits, -⟩, rfl⟩ := h
  have hle := Nat.mul_le_mul_right ((flatmapRound n).toNat + 1) hpos
  exact ⟨rfl, by omega⟩

/-- What `resize(_nbucket + 1)` keeps. -/
theorem Addressed.resize (h : Addressed n m ∧ m.toNat < 2 ^ 61) :
    Addressed n (t.resize m (m + 1) malloc) ∧ (t.resize m (m + 1) malloc).toNat < 2 ^ 61 := by
  unfold FlatMapType.resize flatmapRound
  dsimp only
  split
  · exact h
  cases hinit : t.init malloc (findPower2 (m + 1)) with
  | none => exact h
  | some m' =>
    obtain ⟨⟨-, hn, -⟩, hm⟩ := h
    obtain ⟨rfl, hm'⟩ := FlatMapType.init_spec hinit
    have hsucc : (m + 1).toNat = (m.toNat + 1) % 2 ^ 64 := UInt64.toNat_add m 1
    obtain ⟨⟨-, hle, -⟩, hmax⟩ := addressed_findPower2 (n := m + 1) (by omega) (by omega)
    obtain ⟨⟨hpow, hle', hmod⟩, -⟩ := addressed_findPower2 (n := findPower2 (m + 1)) (by omega) hmax
    exact ⟨⟨hpow, by rw [Option.getD_some]; omega, hmod⟩, hm'⟩

/-- **Hash codes are taken to buckets** after `init` and any number of `resize(_nbucket + 1)`,
exactly where the count is neither `0` nor above `2 ^ 63`. -/
theorem addressed_iff (h : t.init malloc n = some m) :
    (∀ calls, Addressed n (t.grow m calls)) ↔ 1 ≤ n.toNat ∧ n.toNat ≤ 2 ^ 63 := by
  obtain ⟨rfl, hm⟩ := FlatMapType.init_spec h
  constructor
  · intro hall
    by_contra hout
    obtain ⟨⟨k, hk⟩, -⟩ := hall []
    rw [FlatMapType.grow, List.foldl_nil, findPower2_eq_zero hout] at hk
    exact (Nat.two_pow_pos k).ne hk
  · rintro ⟨hone, hmax⟩ calls
    refine (List.foldlRecOn (motive := fun m => Addressed n m ∧ m.toNat < 2 ^ 61) calls _
      ⟨(addressed_findPower2 hone hmax).1, hm⟩ ?_).1
    intro m h malloc _
    exact Addressed.resize h

namespace Sample

/-- The map of `HPACK` headers. -/
def headers : FlatMapType := ⟨40, by decide, 80, false⟩

end Sample

open Sample

theorem addressed_headers : headers.init (fun _ => true) 100 = some 128 ∧
    Addressed 100 (headers.grow 128 [fun _ => true]) := by
  have hinit : headers.init (fun _ => true) 100 = some 128 := rfl
  exact ⟨hinit, (addressed_iff hinit).mpr (by decide) _⟩

/-- The index table of a peer that allows `33` bytes has no bucket, and every header is looked up
behind its memory. -/
theorem not_addressed_zero : headers.init (fun _ => true) 0 = some 0 ∧ ¬ Addressed 0 0 ∧
    flatmapMod 7 0 = 7 := by
  refine ⟨rfl, ?_, rfl⟩
  rintro ⟨⟨k, hk⟩, -⟩
  exact (Nat.two_pow_pos k).ne hk

end Butil
