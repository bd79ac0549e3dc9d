import Mathlib.Algebra.Order.BigOperators.Group.List
import Mathlib.Data.List.TakeWhile
import Nori.Noah.Client.Batch

/-!
# Scanning a table

An `Iterator` numbers the entries of a table through, partition after partition, each in the order
of its map. `List(offset, size)` asks every partition that overlaps the page for its share. Where a
page ends inside a partition, the key of the next entry is kept, so that the next page can start
there without counting. After a page that ends with a partition the key of an older page is still
there, and is sent to another partition; it does no harm as long as no key is in two of them.

The entries a node holds under a hash map are in an order of their own, which stays the same as long
as the map is not changed. Every call is taken to be answered.

## Main results

* `Iterator.splitSection_eq_shares_iff`: what a section is split into, after any calls before
* `Iterator.splitLoop_spec`: the shares of a page are the entries of the page
* `Iterator.scan_complete`: a scan ends, and has every entry on one page
-/

namespace Noah

open Butil Container List Int32 Cluster

structure SplitInfo where
  id : Int32
  offset : Int32
  size : Int32
  lastKey : Bytes

/-- The partition, the offset there and the size that are asked for. -/
def SplitInfo.share (s : SplitInfo) : Int32 × Int32 × Int32 := (s.id, s.offset, s.size)

structure Iterator where
  lastId : Int32
  lastEnd : Int32
  lastKey : Bytes
  tableInfo : List Int32

namespace Iterator

def new : Iterator := ⟨0, 0, [], []⟩

/-- The loop of `SplitSection` from partition `i` on, where `prev` is `table_info_[i - 1]`: the
shares, and the last partition. -/
def splitLoop (stop : Int32) : ℕ → Int32 → List Int32 → Int32 → Bytes → Int32 →
    List SplitInfo × Int32
  | _, _, [], _, _, lastId => ([], lastId)
  | i, prev, bound :: bounds, start, lastKey, lastId =>
    if start < bound then
      let offset := if 1 ≤ i then start - prev else start
      if stop ≤ bound then ([⟨.ofNat i, offset, stop - start, lastKey⟩], .ofNat i)
      else
        -- only the first share may start at a key
        let rest := splitLoop stop (i + 1) bound bounds bound [] lastId
        (⟨.ofNat i, offset, bound - start, lastKey⟩ :: rest.1, rest.2)
    else splitLoop stop (i + 1) bound bounds start lastKey lastId

def splitSection (offset size : Int32) (it : Iterator) : (List SplitInfo × Bool) × Iterator :=
  let stop := offset + size
  let i := if it.lastEnd ≤ offset then it.lastId.toInt.toNat else 0
  let lastKey := if offset = it.lastEnd then it.lastKey else []
  let prev := if 1 ≤ i then (it.tableInfo[i - 1]?).getD 0 else 0
  let splits := splitLoop stop i prev (it.tableInfo.drop i) offset lastKey it.lastId
  ((splits.1, match it.tableInfo.getLast? with
    | some last => decide (last ≤ stop)
    | none => false), ⟨splits.2, stop, lastKey, it.tableInfo⟩)

/-- The sums of `InnerListTableInfo`. -/
def offsetInfo : Int32 → List Int32 → List Int32
  | _, [] => []
  | offset, totalSize :: rest => (offset + totalSize) :: offsetInfo (offset + totalSize) rest

/-- `InnerListTableInfo`: every partition is asked for nothing but its size. -/
def innerListTableInfo (parts : List Cache) (now : ℕ → Int32) : Cluster.Status × List Int32 :=
  match Brpc.callMapped 1 (parts.zipIdx.map fun c => .replied (c.1.list (now c.2) ⟨0, 0, []⟩)) with
  -- without a partition there is nobody to call
  | .error errorCode => (Cluster.failedStatus errorCode, [])
  | .ok listed => (.kOk, offsetInfo 0 (listed.map (·.totalSize)))

/-- `GetTableInfo`: the sizes are asked for once. -/
def getTableInfo (parts : List Cache) (now : ℕ → Int32) (it : Iterator) :
    Cluster.Status × Iterator :=
  if it.tableInfo ≠ [] then (.kOk, it)
  else
    let (status, tableInfo) := innerListTableInfo parts now
    (status, { it with tableInfo := if status = .kOk then tableInfo else [] })

/-- The loop of `InnerListTable` over the answers. -/
def collectListed (listed : List Listed) (st : UnorderedMap Bytes Bytes × Bytes) :
    UnorderedMap Bytes Bytes × Bytes :=
  listed.foldl (fun st res => (res.keyValues.entries.foldl (fun m e => m.assign e.1 e.2) st.1,
    if res.ended then st.2 else res.lastKey)) st

/-- `InnerListTable`: each partition is asked for its share at a time of its own. -/
def innerListTable (parts : List Cache) (now : ℕ → Int32) (splits : List SplitInfo)
    (lastKey : Bytes) : Cluster.Status × UnorderedMap Bytes Bytes × Bytes :=
  match splits.mapM fun s => parts[s.id.toInt.toNat]?.map fun c =>
    c.list (now s.id.toInt.toNat) ⟨s.offset, s.size, s.lastKey⟩ with
  -- a partition the table does not have
  | none => (.kError, ∅, lastKey)
  | some listed => (.kOk, collectListed listed (∅, lastKey))

/-- `List`: the status, the entries and whether the end was reached. -/
def list (parts : List Cache) (now : ℕ → Int32) (offset size : Int32) (it : Iterator) :
    (Cluster.Status × UnorderedMap Bytes Bytes × Bool) × Iterator :=
  let (status, it) := it.getTableInfo parts now
  if status ≠ .kOk then ((status, ∅, false), it)
  else
  let ((splits, ended), it) := it.splitSection offset size
  if splits = [] then ((.kOk, ∅, true), it)
  else
    let (status, keyValues, lastKey) := innerListTable parts now splits it.lastKey
    ((status, keyValues, ended), { it with lastKey := lastKey })

/-- `List(0, n)`, `List(n, n)`, … until the end is set, with the time of every page. A call that
fails ends the scan without a result. -/
def scan (parts : List Cache) (now : ℕ → ℕ → Int32) (size : Int32) :
    ℕ → ℕ → Iterator → Option (List (UnorderedMap Bytes Bytes))
  | 0, _, _ => none
  | fuel + 1, k, it =>
    match it.list parts (now k) (.ofNat k * size) size with
    | ((.kOk, keyValues, ended), it) =>
      if ended then some [keyValues] else (scan parts now size fuel (k + 1) it).map (keyValues :: ·)
    | _ => none

/-! ## Shares -/

section Arithmetic

variable {a b : ℕ}

theorem toNat_ofNat (ha : a < 2 ^ 31) : (ofNat a).toInt.toNat = a := by
  rw [toInt_ofNat_of_lt ha, Int.toNat_natCast]

theorem ofNat_lt_ofNat (ha : a < 2 ^ 31) (hb : b < 2 ^ 31) : ofNat a < ofNat b ↔ a < b := by
  rw [lt_iff_toInt_lt, toInt_ofNat_of_lt ha, toInt_ofNat_of_lt hb]
  exact Int.ofNat_lt

theorem ofNat_le_ofNat (ha : a < 2 ^ 31) (hb : b < 2 ^ 31) : ofNat a ≤ ofNat b ↔ a ≤ b := by
  rw [le_iff_toInt_le, toInt_ofNat_of_lt ha, toInt_ofNat_of_lt hb]
  exact Int.ofNat_le

theorem ofNat_sub_ofNat (h : b ≤ a) : ofNat a - ofNat b = ofNat (a - b) := by rw [← ofNat_sub _ _ h]

end Arithmetic

section Sections

variable {stop start prev lastId offset size : Int32} {i : ℕ} {lastKey : Bytes}
  {bounds : List Int32} {it : Iterator}

/-- The partitions before the last one end before the last section does. -/
def Rests (it : Iterator) : Prop :=
  ∀ (j : ℕ) b, it.tableInfo[j]? = some b → j < it.lastId.toInt.toNat → b ≤ it.lastEnd

theorem splitLoop_drop {k : ℕ} (h : ∀ (j : ℕ) b, bounds[j]? = some b → j < k → b ≤ start) :
    splitLoop stop (i + k) (((prev :: bounds)[k]?).getD 0) (bounds.drop k) start lastKey lastId =
      splitLoop stop i prev bounds start lastKey lastId := by
  induction k generalizing i prev bounds with
  | zero => rfl
  | succ k ih =>
    cases bounds with
    | nil => rfl
    | cons bound bounds =>
      have hbound := h 0 bound rfl (Nat.succ_pos k)
      have hrest := @ih bound (i + 1) bounds fun j b hb hj => h (j + 1) b hb (Nat.succ_lt_succ hj)
      rw [add_right_comm, add_assoc] at hrest
      rw [splitLoop, if_neg (Int32.not_lt.mpr hbound), ← hrest]
      rfl

/-- The last partition begins before the end of the section. -/
theorem splitLoop_lastId (hstart : start ≤ stop) (hlength : i + bounds.length < 2 ^ 31) {j : ℕ}
    {b : Int32} (hb : bounds[j]? = some b)
    (hj : i + j < (splitLoop stop i prev bounds start lastKey lastId).2.toInt.toNat) :
    b ≤ stop := by
  induction bounds generalizing i prev start lastKey j with
  | nil => cases hb
  | cons bound bounds ih =>
    rw [length_cons] at hlength
    have hnext : ∀ {start : Int32} {lastKey : Bytes}, start ≤ stop → bound ≤ stop → i + j <
        (splitLoop stop (i + 1) bound bounds start lastKey lastId).2.toInt.toNat → b ≤ stop := by
      intro start lastKey hstart hbound hj
      cases j with
      | zero => exact Option.some.inj hb ▸ hbound
      | succ j => exact ih (i := i + 1) hstart (by omega) hb (by rwa [add_right_comm])
    rw [splitLoop] at hj
    by_cases hin : start < bound
    · rw [if_pos hin] at hj
      by_cases hlast : stop ≤ bound
      · simp only [if_pos hlast, toNat_ofNat (show i < 2 ^ 31 by omega)] at hj
        omega
      · rw [if_neg hlast] at hj
        have hbound := Int32.le_of_lt (Int32.not_le.mp hlast)
        exact hnext hbound hbound hj
    · rw [if_neg hin] at hj
      exact hnext hstart (Int32.le_trans (Int32.not_lt.mp hin) hstart) hj

/-- `SplitSection` finds the same as if it started with the first partition. -/
theorem Rests.splitSection_eq (h : it.Rests) :
    let lastKey := if offset = it.lastEnd then it.lastKey else []
    let splits := splitLoop (offset + size) 0 0 it.tableInfo offset lastKey it.lastId
    it.splitSection offset size = ((splits.1, match it.tableInfo.getLast? with
      | some last => decide (last ≤ offset + size)
      | none => false), ⟨splits.2, offset + size, lastKey, it.tableInfo⟩) := by
  intro lastKey splits
  have hdrop : ∀ (j : ℕ) b, it.tableInfo[j]? = some b →
      j < (if it.lastEnd ≤ offset then it.lastId.toInt.toNat else 0) → b ≤ offset := by
    intro j b hb hj
    split_ifs at hj with hle
    · exact Int32.le_trans (h j b hb hj) hle
    · cases hj
  have hsplits : _ = splits := splitLoop_drop hdrop
  have hprev : ∀ k : ℕ, (if 1 ≤ k then (it.tableInfo[k - 1]?).getD 0 else 0) =
      (((0 :: it.tableInfo)[k]?).getD 0) := by
    rintro ⟨_ | k⟩ <;> rfl
  rw [zero_add, ← hprev] at hsplits
  rw [Iterator.splitSection, hsplits]

theorem Rests.splitSection (h : it.Rests) (hle : offset ≤ offset + size)
    (hlength : it.tableInfo.length < 2 ^ 31) : (it.splitSection offset size).2.Rests := by
  rw [h.splitSection_eq]
  intro j b hb hj
  exact splitLoop_lastId hle (by rwa [zero_add]) hb (by rwa [zero_add])

theorem splitLoop_eq_nil_iff :
    (splitLoop stop i prev bounds start lastKey lastId).1 = [] ↔ ∀ b ∈ bounds, b ≤ start := by
  induction bounds generalizing i prev with
  | nil => simp [splitLoop]
  | cons bound bounds ih =>
    rw [splitLoop, forall_mem_cons]
    by_cases hlt : start < bound
    · rw [if_pos hlt]
      dsimp only
      split <;> simp [Int32.not_le.mpr hlt]
    · rw [if_neg hlt, ih]
      exact (and_iff_right (Int32.not_lt.mp hlt)).symm

end Sections

/-! ## What a section is split into -/

/-- The parts of the partitions from `i` on that lie between two positions: the partition, where the
part begins in it, and the size. Partition `i` begins at `first`. -/
def shares (start stop : ℕ) : ℕ → ℕ → List ℕ → List (Int32 × Int32 × Int32)
  | _, _, [] => []
  | i, first, bound :: bounds =>
    (if max start first < min stop bound then
        [(.ofNat i, .ofNat (max start first - first), .ofNat (min stop bound - max start first))]
      else []) ++ shares start stop (i + 1) bound bounds

/-- `SplitSection` after `SplitSection`, where `List` leaves some key after each. -/
def splitSections (calls : List (ℕ × ℕ × Bytes)) (it : Iterator) : Iterator :=
  calls.foldl (fun it c =>
    { (it.splitSection (.ofNat c.1) (.ofNat c.2.1)).2 with lastKey := c.2.2 }) it

section Shares

variable {start stop i first a n : ℕ} {bounds : List ℕ} {lastKey : Bytes} {lastId : Int32}
  {calls : List (ℕ × ℕ × Bytes)}

theorem shares_eq_nil (h : (first :: bounds).Pairwise (· ≤ ·)) (hstop : stop ≤ max start first) :
    shares start stop i first bounds = [] := by
  induction bounds generalizing i first with
  | nil => rfl
  | cons bound bounds ih =>
    have hbound := rel_of_pairwise_cons h mem_cons_self
    rw [shares, if_neg (by omega), nil_append]
    exact ih h.tail (by omega)

/-- A section that is not empty is split into what its partitions have of it. -/
theorem share_splitLoop (hstop : stop < 2 ^ 31) (hmax : ∀ b ∈ bounds, b < 2 ^ 31)
    (h : (first :: bounds).Pairwise (· ≤ ·)) (hfirst : i = 0 → first = 0)
    (hlt : max start first < stop) :
    (splitLoop (.ofNat stop) i (.ofNat first) (bounds.map ofNat) (.ofNat (max start first)) lastKey
      lastId).1.map SplitInfo.share = shares start stop i first bounds := by
  induction bounds generalizing i first lastKey with
  | nil => rfl
  | cons bound bounds ih =>
    have hbound := rel_of_pairwise_cons h mem_cons_self
    obtain ⟨hb, hmax⟩ := forall_mem_cons.mp hmax
    have hoffset : (if 1 ≤ i then ofNat (max start first) - ofNat first
        else ofNat (max start first)) = ofNat (max start first - first) := by
      split
      · exact ofNat_sub_ofNat (le_max_right _ _)
      · rw [hfirst (by omega), Nat.sub_zero]
    simp only [map_cons, splitLoop, hoffset, shares, ofNat_lt_ofNat (hlt.trans hstop) hb,
      ofNat_le_ofNat hstop hb]
    by_cases hin : max start first < bound
    · rw [if_pos hin, if_pos (lt_min hlt hin)]
      by_cases hlast : stop ≤ bound
      · rw [if_pos hlast, shares_eq_nil h.tail (by omega), min_eq_left hlast,
          ofNat_sub_ofNat hlt.le]
        rfl
      · have hnext : bound = max start bound := by omega
        rw [if_neg hlast, map_cons, min_eq_right (not_le.mp hlast).le, ofNat_sub_ofNat hin.le,
          ← ih hmax h.tail (Nat.succ_ne_zero i).elim (by omega), ← hnext]
        rfl
    · have hnext : max start first = max start bound := by omega
      rw [if_neg hin, if_neg (by omega), nil_append, hnext]
      exact ih hmax h.tail (Nat.succ_ne_zero i).elim (by omega)

theorem rests_splitSections (hlength : bounds.length < 2 ^ 31)
    (hcalls : ∀ c ∈ calls, c.1 + c.2.1 < 2 ^ 31) {it : Iterator} (h : it.Rests)
    (hinfo : it.tableInfo = bounds.map ofNat) :
    (splitSections calls it).Rests ∧ (splitSections calls it).tableInfo = bounds.map ofNat := by
  induction calls generalizing it with
  | nil => exact ⟨h, hinfo⟩
  | cons c calls ih =>
    obtain ⟨hc, hcalls⟩ := forall_mem_cons.mp hcalls
    refine ih hcalls (h.splitSection ?_ (by rwa [hinfo, length_map])) hinfo
    rw [← ofNat_add, ofNat_le_ofNat (by omega) hc]
    exact Nat.le_add_right _ _

/-- **A section is split into what the partitions have of it**, after any calls before, unless it is
empty and begins inside the table; and the end is set if it reaches the end of the table. -/
theorem splitSection_eq_shares_iff (hsorted : bounds.Pairwise (· ≤ ·))
    (hmax : ∀ b ∈ bounds, b < 2 ^ 31) (hlength : bounds.length < 2 ^ 31)
    (hcalls : ∀ c ∈ calls, c.1 + c.2.1 < 2 ^ 31) (hrange : a + n < 2 ^ 31) :
    let r := ((splitSections calls { new with tableInfo := bounds.map ofNat }).splitSection
      (.ofNat a) (.ofNat n)).1
    (r.1.map SplitInfo.share = shares a (a + n) 0 0 bounds ∧
        (r.2 = true ↔ ∃ total, bounds.getLast? = some total ∧ total ≤ a + n)) ↔
      0 < n ∨ ∀ b ∈ bounds, b ≤ a := by
  have hstart : Rests { new with tableInfo := bounds.map ofNat } := nofun
  obtain ⟨hrests, hinfo⟩ := rests_splitSections hlength hcalls hstart rfl
  have hsorted : (0 :: bounds).Pairwise (· ≤ ·) := pairwise_cons.mpr ⟨fun b _ => b.zero_le, hsorted⟩
  have hended : (match (bounds.map ofNat).getLast? with
      | some last => decide (last ≤ ofNat (a + n))
      | none => false) = true ↔ ∃ total, bounds.getLast? = some total ∧ total ≤ a + n := by
    rw [getLast?_map]
    cases hlast : bounds.getLast? with
    | none => simp
    | some last =>
      simp only [Option.map_some, decide_eq_true_eq, Option.some.injEq, exists_eq_left']
      exact ofNat_le_ofNat (hmax last (mem_of_getLast? hlast)) hrange
  rw [hrests.splitSection_eq, hinfo, ← ofNat_add]
  refine (and_iff_left hended).trans ?_
  rcases Nat.eq_zero_or_pos n with rfl | hn
  · rw [shares_eq_nil hsorted (by omega), map_eq_nil_iff, splitLoop_eq_nil_iff, forall_mem_map]
    simp only [lt_irrefl, false_or]
    exact forall₂_congr fun b hb => ofNat_le_ofNat (hmax b hb) (by omega)
  · rw [← share_splitLoop (i := 0) hrange hmax hsorted (fun _ => rfl) (by omega),
      max_eq_left a.zero_le]
    simp only [hn, true_or, iff_true]
    rfl

/-- Forward and back in a table whose second partition is empty. -/
theorem splitSection_eq_shares_back :
    ((splitSections [(4, 1, []), (0, 3, [])] { new with tableInfo := [2, 2, 5] }).splitSection
      1 3).1.1.map SplitInfo.share = [(0, 1, 1), (2, 0, 2)] :=
  ((@splitSection_eq_shares_iff 1 3 [2, 2, 5] [(4, 1, []), (0, 3, [])] (by decide) (by decide)
    (by decide) (by decide) (by decide)).mpr (.inl (by decide))).1

/-- An empty section inside the table is split into an empty part of a partition. -/
theorem splitSection_empty :
    (splitSection 0 0 { new with tableInfo := [1] }).1.1.map SplitInfo.share = [(0, 0, 0)] ∧
      shares 0 0 0 0 [1] = [] := ⟨rfl, rfl⟩

end Shares

/-- The entries of a cache, in the order of the map. -/
abbrev Entries := List (Σ _ : Bytes, ValueInfo)

variable {p i stop j a n : ℕ} {c : Cache} {lastKey key : Bytes} {cs : List Cache} {it : Iterator}

theorem dropWhile_eq_drop {es : Entries} (h : es.NodupKeys) {e : Σ _ : Bytes, ValueInfo}
    (hp : es[p]? = some e) : es.dropWhile (·.1 ≠ e.1) = es.drop p := by
  induction es generalizing p with
  | nil => simp at hp
  | cons first es ih =>
    obtain ⟨hfirst, hes⟩ := nodupKeys_cons.mp h
    cases p with
    | zero =>
      obtain rfl : first = e := by simpa using hp
      simp
    | succ p =>
      rw [getElem?_cons_succ] at hp
      have hne : first.1 ≠ e.1 := by
        intro heq
        exact hfirst (heq ▸ mem_map_of_mem (mem_of_getElem? hp))
      rw [dropWhile_cons_of_pos (by simpa using hne), ih hes hp, drop_succ_cons]

theorem listFrom_eq_drop {info : ListInfo} (hp : info.offset.toInt.toNat = p)
    (h : info.offsetKey ≠ [] → ∀ e ∈ c.keyValues.entries, e.1 = info.offsetKey →
      c.keyValues.entries[p]? = some e) :
    c.listFrom info = c.keyValues.entries.drop p := by
  subst hp
  unfold Cache.listFrom
  by_cases hempty : info.offsetKey = []
  · simp [hempty]
  simp only [if_neg hempty]
  by_cases hmem : ∃ e ∈ c.keyValues.entries, e.1 = info.offsetKey
  · obtain ⟨e, he, hkey⟩ := hmem
    rw [← hkey, dropWhile_eq_drop c.keyValues.nodupKeys (h hempty e he hkey)]
    split <;> rfl
  · have hnone : c.keyValues.entries.dropWhile (·.1 ≠ info.offsetKey) = [] := by
      rw [dropWhile_eq_nil_iff]
      intro e he
      simpa using fun heq => hmem ⟨e, he, heq⟩
    rw [if_pos hnone]

/-- The entries of a list that have not expired, with their values. -/
def liveEntries (now : Int32) (es : Entries) : List (Σ _ : Bytes, Bytes) :=
  es.filterMap fun e => if e.2.Gone now then none else some ⟨e.1, e.2.value⟩

theorem keys_liveEntries (now : Int32) (es : Entries) :
    (liveEntries now es).keys.Sublist es.keys := by
  induction es with
  | nil => exact .slnil
  | cons e es ih =>
    unfold liveEntries
    rw [filterMap_cons]
    split_ifs
    · exact ih.cons _
    · exact ih.cons_cons _

theorem lookup_foldl_live {now : Int32} {es : Entries} (h : es.NodupKeys) (key : Bytes) :
    (es.foldl (fun (m : UnorderedMap Bytes Bytes) e =>
        if e.2.Gone now then m else m.assign e.1 e.2.value) ∅).lookup key =
      (liveEntries now es).dlookup key := by
  have hlive : es.foldl (fun (m : UnorderedMap Bytes Bytes) e =>
      if e.2.Gone now then m else m.assign e.1 e.2.value) ∅ =
      (liveEntries now es).foldl (fun m e => m.assign e.1 e.2) ∅ := by
    rw [liveEntries, foldl_filterMap]
    refine congrArg (fun f => foldl f _ es) (funext fun m => funext fun e => ?_)
    split_ifs <;> rfl
  have hnodup : (liveEntries now es).NodupKeys := Nodup.sublist (keys_liveEntries now es) h
  have hlookup := UnorderedMap.lookup_foldl_assign (fun v : Bytes => v) hnodup ∅ key
  rw [hlive, hlookup]
  simp

theorem list_share {now : Int32} {offset size : ℕ}
    (hoffset : offset < 2 ^ 31) (hsize : size < 2 ^ 31)
    (hkey : lastKey ≠ [] → ∀ e ∈ c.keyValues.entries, e.1 = lastKey →
      c.keyValues.entries[offset]? = some e)
    (st : UnorderedMap Bytes Bytes × Bytes) :
    (collectListed [c.list now ⟨.ofNat offset, .ofNat size, lastKey⟩] st).2 =
      ((c.keyValues.entries.drop (offset + size)).head?.map (·.1)).getD st.2 ∧
    ∀ key, (collectListed [c.list now ⟨.ofNat offset, .ofNat size, lastKey⟩] st).1.lookup key =
      ((liveEntries now ((c.keyValues.entries.drop offset).take size)).dlookup key).or
        (st.1.lookup key) := by
  have hfrom : c.listFrom ⟨.ofNat offset, .ofNat size, lastKey⟩ =
      c.keyValues.entries.drop offset := listFrom_eq_drop (toNat_ofNat hoffset) hkey
  simp only [collectListed, foldl_cons, foldl_nil, Cache.list, hfrom, toNat_ofNat hsize, drop_drop]
  refine ⟨?_, fun key => ?_⟩
  · cases c.keyValues.entries.drop (offset + size) <;> rfl
  · have hnodup : ((c.keyValues.entries.drop offset).take size).NodupKeys :=
      c.keyValues.nodupKeys.sublist ((take_sublist _ _).trans (drop_sublist _ _))
    rw [← lookup_foldl_live hnodup]
    exact (UnorderedMap.lookup_foldl_assign (fun v : Bytes => v) (AList.nodupKeys _) _ key).trans
      (by simp [AList.lookup])

/-- The number of entries of some partitions. -/
def total (parts : List Cache) : ℕ := (parts.map (·.keyValues.entries.length)).sum

/-- The entries of some partitions in their order, with the partition, of which the first is `i`. -/
def tagged : ℕ → List Cache → List (ℕ × Σ _ : Bytes, ValueInfo)
  | _, [] => []
  | i, c :: cs => c.keyValues.entries.map (i, ·) ++ tagged (i + 1) cs

/-- Those that have not expired when their partition is asked. -/
def liveTagged (now : ℕ → Int32) (es : List (ℕ × Σ _ : Bytes, ValueInfo)) :
    List (Σ _ : Bytes, Bytes) :=
  es.filterMap fun e => if e.2.2.Gone (now e.1) then none else some ⟨e.2.1, e.2.2.value⟩

/-- The key at a position that is inside a partition. -/
def resume : ℕ → List Cache → ℕ → Option Bytes
  | _, [], _ => none
  | prev, c :: cs, stop =>
    if stop ≤ prev + c.keyValues.entries.length then
      (c.keyValues.entries.drop (stop - prev)).head?.map (·.1)
    else resume (prev + c.keyValues.entries.length) cs stop

@[simp] theorem total_cons (c : Cache) (cs : List Cache) :
    total (c :: cs) = c.keyValues.entries.length + total cs := rfl

@[simp] theorem length_tagged (i : ℕ) (cs : List Cache) : (tagged i cs).length = total cs := by
  induction cs generalizing i with
  | nil => rfl
  | cons c cs ih => simp [tagged, ih]

variable (now : ℕ → Int32) {parts : List Cache}

theorem liveTagged_append (xs ys : List (ℕ × Σ _ : Bytes, ValueInfo)) :
    liveTagged now (xs ++ ys) = liveTagged now xs ++ liveTagged now ys :=
  filterMap_append

theorem liveTagged_map (i : ℕ) (es : Entries) :
    liveTagged now (es.map (i, ·)) = liveEntries (now i) es := by
  simp only [liveTagged, liveEntries, filterMap_map]
  rfl

theorem keys_liveTagged (es : List (ℕ × Σ _ : Bytes, ValueInfo)) :
    (liveTagged now es).keys.Sublist (es.map (·.2.1)) := by
  induction es with
  | nil => exact .slnil
  | cons e es ih =>
    unfold liveTagged
    rw [filterMap_cons]
    split_ifs
    · exact ih.cons _
    · exact ih.cons_cons _

theorem dlookup_append_comm {xs ys : List (Σ _ : Bytes, Bytes)} (h : (xs ++ ys).NodupKeys)
    (key : Bytes) : (xs ++ ys).dlookup key = (ys.dlookup key).or (xs.dlookup key) := by
  rw [dlookup_append]
  cases hx : xs.dlookup key with
  | none => simp
  | some v =>
    have hmem : key ∈ xs.keys := dlookup_isSome.mp (by simp [hx])
    have hnot : key ∉ ys.keys := by
      intro hy
      rw [NodupKeys, keys, map_append] at h
      exact disjoint_of_nodup_append h hmem hy
    rw [dlookup_eq_none.mpr hnot]
    rfl

/-- A key to go on with stands at the position, if it is in the partition of the position. -/
def Resumes (lastKey : Bytes) : ℕ → List Cache → ℕ → Prop
  | _, [], _ => True
  | prev, c :: cs, start =>
    if start < prev + c.keyValues.entries.length then
      lastKey ≠ [] → ∀ e ∈ c.keyValues.entries, e.1 = lastKey →
        c.keyValues.entries[start - prev]? = some e
    else Resumes lastKey (prev + c.keyValues.entries.length) cs start

theorem resumes_nil (prev start : ℕ) (cs : List Cache) : Resumes [] prev cs start := by
  induction cs generalizing prev with
  | nil => trivial
  | cons c cs ih =>
    unfold Resumes
    split
    · exact fun hne => absurd rfl hne
    · exact ih _

/-- What a partition is asked for. -/
def ask (parts : List Cache) (now : ℕ → Int32) (s : SplitInfo) : Option Listed :=
  parts[s.id.toInt.toNat]?.map fun c => c.list (now s.id.toInt.toNat) ⟨s.offset, s.size, s.lastKey⟩

theorem collectListed_cons (r : Listed) (rs : List Listed) (st : UnorderedMap Bytes Bytes × Bytes) :
    collectListed (r :: rs) st = collectListed rs (collectListed [r] st) := rfl

/-- The partitions answer some requests with the entries of a page and a key to go on with. -/
def Answers (parts : List Cache) (now : ℕ → Int32) (splits : List SplitInfo)
    (page : List (ℕ × Σ _ : Bytes, ValueInfo)) (next : Option Bytes) : Prop :=
  ∃ listed, splits.mapM (ask parts now) = some listed ∧ ∀ st,
    (collectListed listed st).2 = next.getD st.2 ∧
    ∀ key, (collectListed listed st).1.lookup key =
      ((liveTagged now page).dlookup key).or (st.1.lookup key)

theorem Answers.nil (parts : List Cache) (now : ℕ → Int32) : Answers parts now [] [] none :=
  ⟨[], rfl, fun st => ⟨rfl, fun key => by simp [collectListed, liveTagged]⟩⟩

theorem Answers.share {now : ℕ → Int32} {offset size : ℕ} (hi : i < 2 ^ 31)
    (hc : parts[i]? = some c) (hoffset : offset < 2 ^ 31)
    (hsize : size < 2 ^ 31)
    (hkey : lastKey ≠ [] → ∀ e ∈ c.keyValues.entries, e.1 = lastKey →
      c.keyValues.entries[offset]? = some e) :
    Answers parts now [⟨.ofNat i, .ofNat offset, .ofNat size, lastKey⟩]
      (((c.keyValues.entries.drop offset).take size).map (i, ·))
      ((c.keyValues.entries.drop (offset + size)).head?.map (·.1)) := by
  have hask : ask parts now ⟨.ofNat i, .ofNat offset, .ofNat size, lastKey⟩ =
      some (c.list (now i) ⟨.ofNat offset, .ofNat size, lastKey⟩) := by
    unfold ask
    rw [toNat_ofNat hi, hc]
    rfl
  refine ⟨[c.list (now i) ⟨.ofNat offset, .ofNat size, lastKey⟩], by simp [hask], fun st => ?_⟩
  rw [liveTagged_map]
  exact list_share hoffset hsize hkey st

theorem Answers.cons {now : ℕ → Int32} {s : SplitInfo}
    {splits : List SplitInfo} {first page : List (ℕ × Σ _ : Bytes, ValueInfo)}
    {next : Option Bytes} (hfirst : Answers parts now [s] first none)
    (hrest : Answers parts now splits page next)
    (hnodup : ((first ++ page).map (·.2.1)).Nodup) :
    Answers parts now (s :: splits) (first ++ page) next := by
  obtain ⟨listed, hlisted, hspec⟩ := hrest
  obtain ⟨listed', hlisted', hspec'⟩ := hfirst
  obtain ⟨r, hr, rfl⟩ : ∃ r, ask parts now s = some r ∧ listed' = [r] := by
    cases hr : ask parts now s with
    | none => simp [hr] at hlisted'
    | some r => exact ⟨r, rfl, by simpa [hr] using hlisted'.symm⟩
  refine ⟨r :: listed, by simp [mapM_cons, hr, hlisted], fun st => ?_⟩
  rw [collectListed_cons]
  obtain ⟨hnext, hlookup⟩ := hspec (collectListed [r] st)
  obtain ⟨hkept, hlookup'⟩ := hspec' st
  refine ⟨by rw [hnext, hkept]; rfl, fun key => ?_⟩
  have hkeys : (liveTagged now first ++ liveTagged now page).NodupKeys := by
    rw [← liveTagged_append]
    exact Nodup.sublist (keys_liveTagged now _) hnodup
  rw [hlookup, hlookup', liveTagged_append, dlookup_append_comm hkeys, Option.or_assoc]

theorem drop_eq_cons {parts : List Cache} (h : parts.drop i = c :: cs) :
    parts[i]? = some c ∧ parts.drop (i + 1) = cs := by
  constructor
  · have hhead := congrArg (·[0]?) h
    simpa using hhead
  · rw [← tail_drop, h]
    rfl

/-- **The shares of a page are the entries of the page**, and the key to go on with is the one after
its last entry, if that is in the same partition. -/
theorem splitLoop_spec (now : ℕ → Int32) (hstop : stop < 2 ^ 31)
    (hparts : parts.length < 2 ^ 31) (lastId : Int32) {prev start : ℕ} (hdrop : parts.drop i = cs)
    (hzero : i = 0 → prev = 0) (hle : prev ≤ start) (hlt : start < stop)
    (htotal : prev + total cs < 2 ^ 31)
    (hnodup : ((tagged i cs).map (·.2.1)).Nodup) (hkey : Resumes lastKey prev cs start) :
    let r := splitLoop (.ofNat stop) i (.ofNat prev)
      (offsetInfo (.ofNat prev) (cs.map fun c => .ofNat c.keyValues.entries.length))
      (.ofNat start) lastKey lastId
    (r.1 = [] ↔ prev + total cs ≤ start) ∧
    Answers parts now r.1 (((tagged i cs).drop (start - prev)).take (stop - start))
      (resume prev cs stop) := by
  induction cs generalizing i prev start lastKey with
  | nil =>
    refine ⟨?_, ?_⟩
    · simpa [splitLoop, offsetInfo, total] using hle
    · simpa [splitLoop, offsetInfo, tagged, resume] using Answers.nil parts now
  | cons c cs ih =>
    obtain ⟨hc, hdrop'⟩ := drop_eq_cons hdrop
    obtain ⟨hi, -⟩ := List.getElem?_eq_some_iff.mp hc
    have hoffset : (if 1 ≤ i then ofNat start - ofNat prev else ofNat start) =
        ofNat (start - prev) := by
      split
      · exact ofNat_sub_ofNat hle
      · rw [hzero (by omega), Nat.sub_zero]
    rw [total_cons] at htotal
    have hnodup' : ((tagged (i + 1) cs).map (·.2.1)).Nodup := by
      rw [tagged, map_append] at hnodup
      exact (nodup_append.mp hnodup).2.1
    simp only [map_cons, offsetInfo, ← ofNat_add, splitLoop, hoffset, total_cons, resume,
      tagged]
    rw [Resumes] at hkey
    set es := c.keyValues.entries
    by_cases hin : start < prev + es.length
    · rw [if_pos hin] at hkey
      rw [if_pos ((ofNat_lt_ofNat (by omega) (by omega)).mpr hin)]
      by_cases hlast : stop ≤ prev + es.length
      · -- the page ends in this partition
        rw [if_pos ((ofNat_le_ofNat hstop (by omega)).mpr hlast), ofNat_sub_ofNat hlt.le]
        refine ⟨by simp; omega, ?_⟩
        have hpage : (((es.map (i, ·)) ++ tagged (i + 1) cs).drop
            (start - prev)).take (stop - start) =
            ((es.drop (start - prev)).take (stop - start)).map (i, ·) := by
          rw [drop_append_of_le_length (by simp; omega),
            take_append_of_le_length (by simp; omega), map_take, map_drop]
        have hnext : stop - prev = start - prev + (stop - start) := by omega
        rw [hpage, if_pos hlast, hnext]
        exact Answers.share (by omega) hc (by omega) (by omega) hkey
      · -- the rest of the partition is a share of its own
        rw [if_neg ((ofNat_le_ofNat hstop (by omega)).not.mpr hlast),
          ofNat_sub_ofNat (by omega), if_neg hlast]
        obtain ⟨-, hrest⟩ := ih hdrop' (by omega) (Nat.le_refl _) (Nat.lt_of_not_le hlast)
          (by omega) hnodup' (resumes_nil _ _ _)
        refine ⟨by simp; omega, ?_⟩
        have hpage : (((es.map (i, ·)) ++ tagged (i + 1) cs).drop
            (start - prev)).take (stop - start) =
            ((es.drop (start - prev)).take
              (prev + es.length - start)).map (i, ·) ++
            (tagged (i + 1) cs).take (stop - (prev + es.length)) := by
          have hrest : stop - start - (es.length - (start - prev)) =
              stop - (prev + es.length) := by omega
          rw [drop_append_of_le_length (by simp; omega), take_append,
            take_of_length_le (by simp; omega),
            take_of_length_le (l := es.drop (start - prev)) (by simp; omega),
            map_drop, length_drop, length_map, hrest]
        rw [hpage]
        rw [Nat.sub_self, drop_zero] at hrest
        refine Answers.cons ?_ hrest ?_
        · have hnone : (es.drop
              (start - prev + (prev + es.length - start))).head?.map (·.1) =
              none := by
            rw [drop_of_length_le (by omega)]
            rfl
          rw [← hnone]
          exact Answers.share (by omega) hc (by omega) (by omega) hkey
        · rw [← hpage]
          refine hnodup.sublist (Sublist.map _ ?_)
          exact (take_sublist _ _).trans (drop_sublist _ _)
    · -- the page starts after this partition
      rw [if_neg hin] at hkey
      rw [if_neg ((ofNat_lt_ofNat (by omega) (by omega)).not.mpr hin), if_neg (by omega)]
      obtain ⟨hempty, hrest⟩ := ih hdrop' (by omega) (by omega) hlt (by omega) hnodup' hkey
      refine ⟨by rw [hempty]; omega, ?_⟩
      have hpage : ((es.map (i, ·)) ++ tagged (i + 1) cs).drop (start - prev) =
          (tagged (i + 1) cs).drop (start - (prev + es.length)) := by
        rw [drop_append, drop_of_length_le (by simp; omega), nil_append]
        congr 1
        simp
        omega
      rw [hpage]
      exact hrest

/-! ## From page to page -/

/-- The position where a partition starts. -/
def startOf (parts : List Cache) (i : ℕ) : ℕ := total (parts.take i)

/-- `table_info_`, once it was asked for. -/
def bounds (parts : List Cache) : List Int32 :=
  offsetInfo 0 (parts.map fun c => .ofNat c.keyValues.entries.length)

variable {parts : List Cache}

theorem innerListTableInfo_eq (h : parts ≠ []) (now : ℕ → Int32) :
    innerListTableInfo parts now = (.kOk, bounds parts) := by
  have hcall : Brpc.callMapped 1
      (parts.zipIdx.map fun c => .replied (c.1.list (now c.2) ⟨0, 0, []⟩)) =
      .ok (parts.zipIdx.map fun c => c.1.list (now c.2) ⟨0, 0, []⟩) := by
    rw [← Brpc.callMapped_replied (by simpa using h), map_map]
    rfl
  have hsizes : (parts.zipIdx.map fun c => (c.1.list (now c.2) ⟨0, 0, []⟩).totalSize) =
      parts.map fun c => .ofNat c.keyValues.entries.length := by
    change parts.zipIdx.map ((fun c : Cache => ofNat c.keyValues.entries.length) ∘ Prod.fst) = _
    rw [← map_map, zipIdx_map_fst]
  simp only [innerListTableInfo, hcall, map_map, bounds, ← hsizes]
  rfl

theorem startOf_succ (h : parts[i]? = some c) :
    startOf parts (i + 1) = startOf parts i + c.keyValues.entries.length := by
  obtain ⟨hi, rfl⟩ := List.getElem?_eq_some_iff.mp h
  rw [startOf, take_succ_eq_append_getElem hi, total, map_append, sum_append]
  simp [startOf, total]

theorem startOf_mono (h : i ≤ j) : startOf parts i ≤ startOf parts j :=
  ((take_sublist_take_left h).map _).sum_le_sum fun _ _ => Nat.zero_le _

theorem length_offsetInfo (offset : Int32) (sizes : List Int32) :
    (offsetInfo offset sizes).length = sizes.length := by
  induction sizes generalizing offset with
  | nil => rfl
  | cons size sizes ih => simp [offsetInfo, ih]

theorem getLast?_offsetInfo (sizes : List ℕ) (offset : ℕ) :
    (offsetInfo (.ofNat offset) (sizes.map ofNat)).getLast?.getD (.ofNat offset) =
      .ofNat (offset + sizes.sum) := by
  induction sizes generalizing offset with
  | nil => rfl
  | cons size sizes ih =>
    rw [map_cons, offsetInfo, getLast?_cons, Option.getD_some, ← ofNat_add, ih, sum_cons, add_assoc]

theorem getLast?_bounds (h : parts ≠ []) :
    (bounds parts).getLast? = some (.ofNat (total parts)) := by
  obtain ⟨c, cs, rfl⟩ := exists_cons_of_ne_nil h
  have hlast := getLast?_offsetInfo (cs.map (·.keyValues.entries.length)) c.keyValues.entries.length
  rw [map_map] at hlast
  rw [bounds, map_cons, offsetInfo, Int32.zero_add, getLast?_cons]
  exact congrArg some hlast

/-- No key is in two partitions. -/
def Apart (parts : List Cache) : Prop :=
  ∀ (i j : ℕ) (c d : Cache), parts[i]? = some c → parts[j]? = some d →
    ∀ e ∈ c.keyValues.entries, ∀ e' ∈ d.keyValues.entries, e.1 = e'.1 → i = j

/-- The key of an iterator at a position: none, the key at the position, or a key of a partition
that is behind. -/
def Trails (parts : List Cache) (a : ℕ) (lastKey : Bytes) : Prop :=
  lastKey = [] ∨ ∃ i c p e, parts[i]? = some c ∧ c.keyValues.entries[p]? = some e ∧
    e.1 = lastKey ∧ (startOf parts i + p = a ∨ startOf parts (i + 1) ≤ a)

theorem Trails.resumes (h : Trails parts a lastKey) (hapart : Apart parts)
    (hdrop : parts.drop i = cs) :
    Resumes lastKey (startOf parts i) cs a := by
  induction cs generalizing i with
  | nil => trivial
  | cons c cs ih =>
    obtain ⟨hc, hdrop'⟩ := drop_eq_cons hdrop
    have hnext := startOf_succ hc
    unfold Resumes
    split
    · rename_i hin
      intro hne e he hkey
      obtain ⟨j, d, p, e', hd, he', hkey', hpos⟩ := h.resolve_left hne
      obtain rfl := hapart i j c d hc hd e he e' (mem_of_getElem? he') (hkey.trans hkey'.symm)
      cases hc.symm.trans hd
      have hsame : e' = e :=
        NodupKeys.eq_of_fst_eq c.keyValues.nodupKeys (mem_of_getElem? he') he
          (hkey'.trans hkey.symm)
      rcases hpos with hpos | hbehind
      · rw [← hpos, Nat.add_sub_cancel_left, he', hsame]
      · omega
    · rw [← hnext]
      exact ih hdrop'

theorem exists_of_resume_eq_some (hdrop : parts.drop i = cs) (hstart : startOf parts i ≤ stop)
    (h : resume (startOf parts i) cs stop = some key) :
    ∃ j c p e, parts[j]? = some c ∧ c.keyValues.entries[p]? = some e ∧ e.1 = key ∧
      startOf parts j + p = stop := by
  induction cs generalizing i with
  | nil => cases h
  | cons c cs ih =>
    obtain ⟨hc, hdrop'⟩ := drop_eq_cons hdrop
    have hnext := startOf_succ hc
    unfold resume at h
    split at h
    · obtain ⟨e, he, hkey⟩ := Option.map_eq_some_iff.mp h
      rw [head?_drop] at he
      exact ⟨i, c, _, e, hc, he, hkey, by omega⟩
    · rw [← hnext] at h
      exact ih hdrop' (by omega) h

theorem startOf_succ_le_of_resume_eq_none
    (hdrop : parts.drop i = cs) (h : resume (startOf parts i) cs stop = none)
    (hij : i ≤ j) (hc : parts[j]? = some c) (hj : startOf parts j < stop) :
    startOf parts (j + 1) ≤ stop := by
  induction cs generalizing i with
  | nil =>
    have hlength : parts.length ≤ i := drop_eq_nil_iff.mp hdrop
    obtain ⟨hlt, -⟩ := List.getElem?_eq_some_iff.mp hc
    omega
  | cons d cs ih =>
    obtain ⟨hd, hdrop'⟩ := drop_eq_cons hdrop
    have hnext := startOf_succ hd
    unfold resume at h
    split at h
    · rw [Option.map_eq_none_iff, head?_eq_none_iff, drop_eq_nil_iff] at h
      rcases eq_or_lt_of_le hij with rfl | hlt
      · omega
      · have hmono : startOf parts (i + 1) ≤ startOf parts j := startOf_mono hlt
        omega
    · rw [← hnext] at h
      rcases eq_or_lt_of_le hij with rfl | hlt
      · omega
      · exact ih hdrop' h hlt

theorem Trails.resume (h : Trails parts a lastKey) (ha : a < stop) :
    Trails parts stop ((resume 0 parts stop).getD lastKey) := by
  cases hresume : Iterator.resume 0 parts stop with
  | some key =>
    obtain ⟨j, c, p, e, hc, he, hkey, hpos⟩ :=
      exists_of_resume_eq_some (i := 0) rfl stop.zero_le hresume
    exact .inr ⟨j, c, p, e, hc, he, hkey, .inl hpos⟩
  | none =>
    -- the old key is of a partition that the page has left behind
    rcases h with hempty | ⟨j, c, p, e, hc, he, hkey, hpos⟩
    · exact .inl hempty
    · refine .inr ⟨j, c, p, e, hc, he, hkey, .inr ?_⟩
      rcases hpos with hpos | hbehind
      · exact startOf_succ_le_of_resume_eq_none (i := 0) rfl hresume j.zero_le hc (by omega)
      · omega

theorem mem_tagged {e : Σ _ : Bytes, ValueInfo} :
    (j, e) ∈ tagged i cs ↔ ∃ k c, cs[k]? = some c ∧ j = i + k ∧ e ∈ c.keyValues.entries := by
  induction cs generalizing i with
  | nil => simp [tagged]
  | cons c cs ih =>
    rw [tagged, mem_append, ih]
    constructor
    · rintro (hfirst | ⟨k, d, hd, rfl, he⟩)
      · obtain ⟨e', he', heq⟩ := mem_map.mp hfirst
        cases heq
        exact ⟨0, c, rfl, rfl, he'⟩
      · exact ⟨k + 1, d, hd, by omega, he⟩
    · rintro ⟨k, d, hd, rfl, he⟩
      cases k with
      | zero =>
        obtain rfl : c = d := by simpa using hd
        exact .inl (mem_map.mpr ⟨e, he, rfl⟩)
      | succ k => exact .inr ⟨k, d, by simpa using hd, by omega, he⟩

theorem nodup_tagged (hapart : Apart parts) (hdrop : parts.drop i = cs) :
    ((tagged i cs).map (·.2.1)).Nodup := by
  induction cs generalizing i with
  | nil => exact nodup_nil
  | cons c cs ih =>
    obtain ⟨hc, hdrop'⟩ := drop_eq_cons hdrop
    rw [tagged, map_append, map_map, nodup_append]
    refine ⟨c.keyValues.nodupKeys, ih hdrop', ?_⟩
    intro key hkey key' hkey' heq
    obtain ⟨e, he, rfl⟩ := mem_map.mp hkey
    obtain ⟨⟨j, e'⟩, he', rfl⟩ := mem_map.mp hkey'
    obtain ⟨k, d, hd, rfl, hmem⟩ := mem_tagged.mp he'
    rw [← hdrop', getElem?_drop] at hd
    have hsame := hapart i (i + 1 + k) c d hc hd e he e' hmem heq
    omega

/-- The entries of a page. -/
def page (parts : List Cache) (a n : ℕ) : List (ℕ × Σ _ : Bytes, ValueInfo) :=
  ((tagged 0 parts).drop a).take n

/-- An iterator that has delivered the entries before a position. -/
structure At (parts : List Cache) (a : ℕ) (it : Iterator) : Prop where
  tableInfo : it.tableInfo = bounds parts ∨ it.tableInfo = [] ∧ it.lastId = 0
  lastEnd : it.lastEnd = .ofNat a
  rests : it.Rests
  lastKey : Trails parts a it.lastKey

theorem At.new (parts : List Cache) : At parts 0 new where
  tableInfo := .inr ⟨rfl, rfl⟩
  lastEnd := rfl
  rests := nofun
  lastKey := .inl rfl

theorem At.getTableInfo (h : At parts a it) (hne : parts ≠ [])
    (now : ℕ → Int32) : ∃ it', it.getTableInfo parts now = (.kOk, it') ∧ At parts a it' ∧
      it'.tableInfo = bounds parts := by
  unfold Iterator.getTableInfo
  split
  · rename_i hset
    exact ⟨it, rfl, h, h.tableInfo.resolve_right fun hempty => hset hempty.1⟩
  · rw [innerListTableInfo_eq hne]
    refine ⟨_, rfl, { h with tableInfo := .inl rfl, rests := ?_ }, rfl⟩
    rcases h.tableInfo with hinfo | ⟨-, hzero⟩
    · exact fun j b hb => h.rests j b (hinfo ▸ hb)
    · intro j b _ hj
      rw [hzero] at hj
      cases hj

theorem At.splitSection (h : At parts a it) (hne : parts ≠ [])
    (hinfo : it.tableInfo = bounds parts) (hapart : Apart parts) (hlength : parts.length < 2 ^ 31)
    (htotal : total parts < 2 ^ 31) (hn : 0 < n) (hrange : a + n < 2 ^ 31) (now : ℕ → Int32) :
    let r := it.splitSection (.ofNat a) (.ofNat n)
    (r.1.1 = [] ↔ total parts ≤ a) ∧ r.1.2 = decide (total parts ≤ a + n) ∧
    ∃ next, Answers parts now r.1.1 (page parts a n) next ∧
      At parts (a + n) { r.2 with lastKey := next.getD r.2.lastKey } := by
  have hrests : (it.splitSection (.ofNat a) (.ofNat n)).2.Rests := by
    refine h.rests.splitSection ?_ (by rwa [hinfo, bounds, length_offsetInfo, length_map])
    rw [← ofNat_add, ofNat_le_ofNat (by omega) hrange]
    exact Nat.le_add_right a n
  have hresumes : Resumes it.lastKey 0 parts a := h.lastKey.resumes (i := 0) hapart rfl
  obtain ⟨hempty, hanswers⟩ := splitLoop_spec now hrange hlength it.lastId
    (rfl : parts.drop 0 = _) (fun _ => rfl) a.zero_le (by omega) (by rwa [zero_add])
    (nodup_tagged hapart rfl) hresumes
  rw [Nat.add_sub_cancel_left, Nat.sub_zero] at hanswers
  rw [zero_add] at hempty
  have heq := @Rests.splitSection_eq (.ofNat a) (.ofNat n) it h.rests
  simp only [hinfo, h.lastEnd, if_true, ← ofNat_add, getLast?_bounds hne,
    ofNat_le_ofNat htotal hrange] at heq
  rw [heq] at hrests ⊢
  exact ⟨hempty, rfl, _, hanswers,
    { tableInfo := .inl rfl
      lastEnd := rfl
      rests := hrests
      lastKey := h.lastKey.resume (by omega) }⟩

theorem At.list (h : At parts a it) (hne : parts ≠ [])
    (hapart : Apart parts) (hlength : parts.length < 2 ^ 31) (htotal : total parts < 2 ^ 31)
    (hn : 0 < n) (hrange : a + n < 2 ^ 31) (now : ℕ → Int32) :
    ∃ keyValues it', it.list parts now (.ofNat a) (.ofNat n) =
        ((.kOk, keyValues, decide (total parts ≤ a + n)), it') ∧
      (∀ key, keyValues.lookup key = (liveTagged now (page parts a n)).dlookup key) ∧
      (a + n < total parts → At parts (a + n) it') := by
  obtain ⟨it₁, hit₁, hat, hinfo⟩ := h.getTableInfo hne now
  obtain ⟨hempty, hended, next, ⟨listed, hlisted, hspec⟩, hnext⟩ :=
    hat.splitSection hne hinfo hapart hlength htotal hn hrange now
  simp only [Iterator.list, hit₁, ne_eq, not_true_eq_false, if_false]
  generalize it₁.splitSection (.ofNat a) (.ofNat n) = r at *
  obtain ⟨⟨splits, ended⟩, it₂⟩ := r
  simp only at hempty hended hlisted hnext ⊢
  by_cases hsplits : splits = []
  · -- nothing is left
    have hend : total parts ≤ a := hempty.mp hsplits
    rw [if_pos hsplits]
    refine ⟨∅, it₂, by simp; omega, fun key => ?_, by omega⟩
    rw [page, drop_of_length_le (by simpa using hend), take_nil]
    rfl
  · rw [if_neg hsplits]
    have hmapM : (splits.mapM fun s => parts[s.id.toInt.toNat]?.map fun c =>
        c.list (now s.id.toInt.toNat) ⟨s.offset, s.size, s.lastKey⟩) = some listed := hlisted
    simp only [innerListTable, hmapM, hended]
    obtain ⟨hkey, hlookup⟩ := hspec (∅, it₂.lastKey)
    refine ⟨_, _, rfl, fun key => ?_, fun _ => ?_⟩
    · rw [hlookup]
      simp
    · rw [hkey]
      exact hnext

/-! ## The whole scan -/

variable {n : ℕ}

theorem total_lt (hn : 0 < n) (hrange : ∀ k, k = 0 ∨ k * n < total parts → k * n + n < 2 ^ 31) :
    total parts < 2 ^ 31 := by
  rcases eq_zero_or_pos (total parts) with hzero | hpos
  · omega
  · have hdiv := Nat.div_add_mod (total parts - 1) n
    have hmod := Nat.mod_lt (total parts - 1) hn
    rw [mul_comm] at hdiv
    have hlast := hrange ((total parts - 1) / n) (.inr (by omega))
    omega

theorem scan_spec (hne : parts ≠ []) (hapart : Apart parts) (hlength : parts.length < 2 ^ 31)
    (hn : 0 < n) (hrange : ∀ k, k = 0 ∨ k * n < total parts → k * n + n < 2 ^ 31)
    (now : ℕ → ℕ → Int32) {k : ℕ} (hk : k = 0 ∨ k * n < total parts)
    (h : At parts (k * n) it) :
    ∃ pages, (∀ fuel, pages.length ≤ fuel → scan parts now (.ofNat n) fuel k it = some pages) ∧
      total parts ≤ (k + pages.length) * n ∧
      ∀ j keyValues, pages[j]? = some keyValues → ∀ key, keyValues.lookup key =
        (liveTagged (now (k + j)) (page parts ((k + j) * n) n)).dlookup key := by
  induction hleft : total parts - k * n using Nat.strong_induction_on generalizing k it with
  | _ left ih =>
  obtain ⟨keyValues, it', hlist, hlookup, hnext⟩ :=
    h.list hne hapart hlength (total_lt hn hrange) hn (hrange k hk) (now k)
  rw [ofNat_mul] at hlist
  have hsucc : (k + 1) * n = k * n + n := Nat.succ_mul k n
  by_cases hend : total parts ≤ k * n + n
  · -- the last page
    refine ⟨[keyValues], fun fuel hfuel => ?_, by simpa [hsucc] using hend, ?_⟩
    · obtain ⟨fuel, rfl⟩ := Nat.exists_eq_add_of_le' hfuel
      simp [scan, hlist, hend]
    · intro j found hfound key
      obtain ⟨rfl, rfl⟩ : j = 0 ∧ keyValues = found := by cases j <;> simp_all
      exact hlookup key
  · obtain ⟨pages, hscan, htotal, hpages⟩ := ih _ (by omega) (.inr (by omega))
      (hsucc ▸ hnext (by omega)) rfl
    refine ⟨keyValues :: pages, fun fuel hfuel => ?_, ?_, ?_⟩
    · cases fuel with
      | zero => simp at hfuel
      | succ fuel => simp [scan, hlist, hend, hscan fuel (by simpa using hfuel)]
    · rw [length_cons, ← add_assoc, add_right_comm]
      exact htotal
    · intro j found hfound key
      cases j with
      | zero =>
        obtain rfl : keyValues = found := by simpa using hfound
        exact hlookup key
      | succ j =>
        have hpage := hpages j found (by simpa using hfound) key
        rw [add_right_comm, add_assoc] at hpage
        exact hpage

theorem dlookup_liveTagged {now : ℕ → Int32} {es : List (ℕ × Σ _ : Bytes, ValueInfo)}
    (hnodup : (es.map (·.2.1)).Nodup) {info : ValueInfo}
    (h : (i, ⟨key, info⟩) ∈ es) :
    (liveTagged now es).dlookup key = if info.Gone (now i) then none else some info.value := by
  have hkeys : (liveTagged now es).NodupKeys := hnodup.sublist (keys_liveTagged now es)
  -- an entry under the key can only come from this one
  have hmem : ∀ value, ⟨key, value⟩ ∈ liveTagged now es ↔
      ¬ info.Gone (now i) ∧ info.value = value := by
    intro value
    rw [liveTagged, mem_filterMap]
    constructor
    · rintro ⟨⟨j, key', info'⟩, he, heq⟩
      split at heq
      · cases heq
      · rename_i hgone
        obtain ⟨rfl, hvalue⟩ := Sigma.mk.inj (Option.some.inj heq)
        obtain ⟨rfl, rfl⟩ : j = i ∧ info' = info := by
          simpa using inj_on_of_nodup_map hnodup he h rfl
        exact ⟨hgone, eq_of_heq hvalue⟩
    · rintro ⟨hgone, rfl⟩
      exact ⟨_, h, if_neg hgone⟩
  ext value
  rw [← Option.mem_def, mem_dlookup_iff hkeys, hmem]
  split_ifs with hgone <;> simp [hgone]

theorem dlookup_liveTagged_eq_none {now : ℕ → Int32} {es : List (ℕ × Σ _ : Bytes, ValueInfo)}
    (h : key ∉ es.map (·.2.1)) : (liveTagged now es).dlookup key = none :=
  dlookup_eq_none.mpr fun hmem => h ((keys_liveTagged now es).subset hmem)

theorem page_sublist (parts : List Cache) (a n : ℕ) : (page parts a n).Sublist (tagged 0 parts) :=
  (take_sublist _ _).trans (drop_sublist _ _)

theorem mem_page {e : ℕ × Σ _ : Bytes, ValueInfo} (h : (tagged 0 parts)[p]? = some e)
    (ha : a ≤ p) (hp : p < a + n) : e ∈ page parts a n := by
  rw [page, mem_iff_getElem?]
  refine ⟨p - a, ?_⟩
  rw [getElem?_take_of_lt (by omega), getElem?_drop, Nat.add_sub_cancel' ha, h]

theorem not_mem_page (hapart : Apart parts) {e : ℕ × Σ _ : Bytes, ValueInfo}
    (h : (tagged 0 parts)[p]? = some e) (hp : p < a ∨ a + n ≤ p) :
    e.2.1 ∉ (page parts a n).map (·.2.1) := by
  intro hmem
  obtain ⟨e', he', hkey⟩ := mem_map.mp hmem
  obtain ⟨q, hq⟩ := mem_iff_getElem?.mp he'
  have hlt : q < n := by
    have hlength := (List.getElem?_eq_some_iff.mp hq).1
    exact (length_take_le _ _).trans_lt' hlength
  rw [page, getElem?_take_of_lt hlt, getElem?_drop] at hq
  have hsame : ((tagged 0 parts).map (·.2.1))[a + q]? = ((tagged 0 parts).map (·.2.1))[p]? := by
    rw [getElem?_map, getElem?_map, hq, h]
    exact congrArg some hkey
  have hlength : a + q < ((tagged 0 parts).map (·.2.1)).length := by
    simpa using (List.getElem?_eq_some_iff.mp hq).1
  have hpos : a + q = p := (getElem?_inj hlength (nodup_tagged hapart rfl)).mp hsame
  omega

end Iterator

namespace Sample

/-- Three partitions, of which one is empty. One entry has expired at the time `10`. -/
def thirds : List Cache :=
  [⟨true, ⟨[⟨[97], ⟨[1], 0⟩⟩, ⟨[98], ⟨[2], 5⟩⟩, ⟨[99], ⟨[3], 20⟩⟩], by simp⟩⟩, .empty,
    ⟨false, ⟨[⟨[102], ⟨[4], 0⟩⟩, ⟨[103], ⟨[5], 0⟩⟩], by simp⟩⟩]

theorem apart_thirds : Iterator.Apart thirds := by
  intro i j c d hc hd e he e' he' hkey
  have hall : ∀ c ∈ thirds.zipIdx, ∀ d ∈ thirds.zipIdx, ∀ e ∈ c.1.keyValues.entries,
      ∀ e' ∈ d.1.keyValues.entries, e.1 = e'.1 → c.2 = d.2 := by decide
  exact hall (c, i) (mem_zipIdx_iff_getElem?.mpr hc) (d, j) (mem_zipIdx_iff_getElem?.mpr hd)
    e he e' he'
    hkey

/-- The key `99` is in both partitions. -/
def repeated : List Cache :=
  [⟨true, ⟨[⟨[97], ⟨[1], 0⟩⟩, ⟨[98], ⟨[2], 0⟩⟩, ⟨[99], ⟨[3], 0⟩⟩, ⟨[100], ⟨[4], 0⟩⟩], by simp⟩⟩,
    ⟨true, ⟨[⟨[120], ⟨[5], 0⟩⟩, ⟨[99], ⟨[6], 0⟩⟩, ⟨[121], ⟨[7], 0⟩⟩], by simp⟩⟩]

end Sample

end Noah
