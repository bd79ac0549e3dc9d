import Nori.Butil.Strings
import Nori.Container.UnorderedMap

/-!
# `Cache`

The values of one partition on one node. Each operation holds the writer lock from its first key to
its last, so it is a single step for everybody else. A value is stored in a message with the time
it expires, which parsing gives back as it was.
-/

namespace Noah

open Butil Container Option

/-- `message ValueInfo`. -/
structure ValueInfo where
  value : Bytes
  expired : Int32
deriving DecidableEq

/-- An entry that reads pass over: it has an expiry, which has come. -/
def ValueInfo.Gone (now : Int32) (info : ValueInfo) : Prop := info.expired ≠ 0 ∧ info.expired ≤ now

instance (now : Int32) (info : ValueInfo) : Decidable (info.Gone now) :=
  inferInstanceAs (Decidable (_ ∧ _))

structure ListInfo where
  offset : Int32
  size : Int32
  offsetKey : Bytes

/-- What `List` returns. A key to go on with is only set if the end was not reached. -/
structure Listed where
  keyValues : UnorderedMap Bytes Bytes
  totalSize : Int32
  ended : Bool
  lastKey : Bytes

structure Cache where
  expired : Bool
  keyValues : UnorderedMap Bytes ValueInfo
deriving DecidableEq

namespace Cache

def empty : Cache := ⟨false, ∅⟩

/-- `Set` at the time `now`; without a positive `ttl` nothing expires. -/
def set (now : Int32) (keyValues : UnorderedMap Bytes Bytes) (ttl : Int32) (c : Cache) : Cache where
  expired := c.expired || decide (0 < ttl)
  keyValues := keyValues.entries.foldl
    (fun m e => m.assign e.1 ⟨e.2, if 0 < ttl then now + ttl else 0⟩) c.keyValues

def del (keys : List Bytes) (c : Cache) : Cache :=
  { c with keyValues := keys.foldl (fun m key => m.erase key) c.keyValues }

/-- `Set` with a `ttl` for each entry, taken in the order of the map. -/
def setTtlVec (now : Int32) (keyValues : UnorderedMap Bytes Bytes) (ttlVec : List Int32)
    (c : Cache) : Bool × Cache :=
  if keyValues.entries.length ≠ ttlVec.length then (false, c)
  else (true, (keyValues.entries.zip ttlVec).foldl (fun c e =>
    { expired := c.expired || decide ((0 : Int32) < e.2)
      keyValues :=
        c.keyValues.assign e.1.1 ⟨e.1.2, if (0 : Int32) < e.2 then now + e.2 else 0⟩ }) c)

/-- `Migrate`: entries are taken over as they are, with their expiry. -/
def migrate (keyValues : UnorderedMap Bytes ValueInfo) (expired : Bool) (c : Cache) : Cache where
  expired := c.expired || expired
  keyValues := keyValues.entries.foldl (fun m e => m.assign e.1 e.2) c.keyValues

/-- The value of a key as `Get` finds it at the time `now`. -/
def find (now : Int32) (key : Bytes) (c : Cache) : Option Bytes :=
  (c.keyValues.lookup key).bind fun info => if info.Gone now then none else some info.value

/-- `Get`: the empty string stands for a key that is not found. -/
def get (now : Int32) (keys : List Bytes) (c : Cache) : List Bytes :=
  keys.map fun key => (c.find now key).getD []

/-- Where `List` starts: at a key if it is given and there, otherwise at a position. -/
def listFrom (info : ListInfo) (c : Cache) : List (Σ _ : Bytes, ValueInfo) :=
  let atKey := if info.offsetKey = [] then []
    else c.keyValues.entries.dropWhile (·.1 ≠ info.offsetKey)
  if atKey = [] then c.keyValues.entries.drop info.offset.toInt.toNat else atKey

/-- `List`: entries that have expired count, but are left out. -/
def list (now : Int32) (info : ListInfo) (c : Cache) : Listed :=
  let rest := c.listFrom info
  let next := rest.drop info.size.toInt.toNat
  { keyValues := (rest.take info.size.toInt.toNat).foldl
      (fun m e => if e.2.Gone now then m else m.assign e.1 e.2.value) ∅
    totalSize := .ofNat c.keyValues.entries.length
    ended := next.isEmpty
    lastKey := (next.head?.map (·.1)).getD [] }

/-- The value of a key, whenever it expires. -/
def value (c : Cache) (key : Bytes) : Option Bytes := (c.keyValues.lookup key).map ValueInfo.value

variable {c : Cache} {key : Bytes}

theorem find_eq_some_iff {now : Int32} {value : Bytes} : c.find now key = some value ↔
    ∃ info, c.keyValues.lookup key = some info ∧ ¬ info.Gone now ∧ info.value = value := by
  simp only [find, bind_eq_some_iff]
  refine exists_congr fun info => and_congr_right fun _ => ?_
  split_ifs with hgone <;> simp [hgone]

theorem lookup_set (now : Int32) (keyValues : UnorderedMap Bytes Bytes) (ttl : Int32) :
    (c.set now keyValues ttl).keyValues.lookup key = ((keyValues.lookup key).map fun value =>
      ⟨value, if 0 < ttl then now + ttl else 0⟩).or (c.keyValues.lookup key) :=
  UnorderedMap.lookup_foldl_assign
    (fun v : Bytes => (⟨v, if 0 < ttl then now + ttl else 0⟩ : ValueInfo)) keyValues.nodupKeys
    c.keyValues key

/-- The values after a `Set`. -/
theorem value_set (now : Int32) (keyValues : UnorderedMap Bytes Bytes) (ttl : Int32) :
    (c.set now keyValues ttl).value key = (keyValues.lookup key).or (c.value key) := by
  simp only [value, lookup_set, map_or, map_map]
  simp [Function.comp_def]

/-- The values after a `Del`. -/
theorem value_del (keys : List Bytes) :
    (c.del keys).value key = if key ∈ keys then none else c.value key := by
  simp only [value, del, UnorderedMap.lookup_foldl_erase]
  split <;> rfl

theorem del_empty (keys : List Bytes) : empty.del keys = empty := by
  have h : keys.foldl (fun (m : UnorderedMap Bytes ValueInfo) key => m.erase key) ∅ = ∅ := by
    induction keys with
    | nil => rfl
    | cons first keys ih =>
      have hempty : (∅ : UnorderedMap Bytes ValueInfo).erase first = ∅ := rfl
      rw [List.foldl_cons, hempty, ih]
  simp only [del, empty, h]

end Cache

end Noah
