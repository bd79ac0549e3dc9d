import Mathlib.Data.List.Infix
import Nori.Noah.Node.Server

/-!
# Persistence

With `open_persistence` every write goes to the cache and then to the leveldb of its partition, and
a node that starts reads all its leveldbs back. What is read back is written to the caches by
`Set`, which takes the time an entry has left to live. It is given the time the entry expires
instead, and the times go by the order of leveldb while the entries go by the order of a protobuf
map. So the cache comes back as it was if and only if nothing that can still be read ever expires.

A leveldb is an ordered map, a protobuf map has any order.
-/

namespace Noah

open Butil Container List UnorderedMap OrderedMap Int32

/-! ## Keys -/

/-- The bytes of an `int`, as `memcpy` moves them on a little-endian machine. -/
def intBytes (id : Int32) : Bytes :=
  let n := id.toUInt32.toNat
  [.ofNat (n % 256), .ofNat (n / 256 % 256), .ofNat (n / 65536 % 256), .ofNat (n / 16777216)]

def bytesInt (bytes : Bytes) : Int32 :=
  (UInt32.ofNat (bytes.foldr (fun b n => b.toNat + 256 * n) 0)).toInt32

/-- `EncodeLbKey` for the type `kKey`: the type, the name of the table after its length, the
partition and the key. -/
def encodeLbKey (key tableName : Bytes) (id : Int32) : Option Bytes :=
  if key = [] ∨ 255 < tableName.length then none
  else some (1 :: .ofNat tableName.length :: (tableName ++ intBytes id ++ key))

/-- `DecodeLbKey`: the table, the partition and the key. -/
def decodeLbKey : Bytes → Option (Bytes × Int32 × Bytes)
  | [] | [_] => none
  -- `kMeta`
  | 0 :: key => some ([], -1, key)
  -- `kKey`
  | 1 :: size :: rest =>
    if rest.length < size.toNat + 4 then none
    else some (rest.take size.toNat, bytesInt ((rest.drop size.toNat).take 4),
      rest.drop (size.toNat + 4))
  | _ => none

theorem length_intBytes (id : Int32) : (intBytes id).length = 4 := rfl

theorem bytesInt_intBytes (id : Int32) : bytesInt (intBytes id) = id := by
  have hlt : id.toUInt32.toNat < 4294967296 := id.toUInt32.toNat_lt
  simp only [bytesInt, intBytes, foldr_cons, foldr_nil, UInt8.toNat_ofNat']
  have hsum : id.toUInt32.toNat % 256 % 2 ^ 8 + 256 * (id.toUInt32.toNat / 256 % 256 % 2 ^ 8 +
      256 * (id.toUInt32.toNat / 65536 % 256 % 2 ^ 8 +
        256 * (id.toUInt32.toNat / 16777216 % 2 ^ 8 + 256 * 0))) = id.toUInt32.toNat := by
    omega
  rw [hsum, UInt32.ofNat_toNat]
  exact toInt32_toUInt32 id

theorem decodeLbKey_encodeLbKey {key tableName encoded : Bytes} {id : Int32}
    (h : encodeLbKey key tableName id = some encoded) :
    decodeLbKey encoded = some (tableName, id, key) := by
  unfold encodeLbKey at h
  split at h
  · cases h
  · rename_i hproper
    push Not at hproper
    cases h
    have hsize : (UInt8.ofNat tableName.length).toNat = tableName.length := by
      rw [UInt8.toNat_ofNat']
      exact Nat.mod_eq_of_lt (by omega)
    have hdrop : (tableName ++ (intBytes id ++ key)).drop (tableName.length + 4) = key := by
      rw [← drop_drop, drop_left]
      rfl
    have htake : (intBytes id ++ key).take 4 = intBytes id := rfl
    simp [decodeLbKey, hsize, hdrop, htake, length_intBytes, bytesInt_intBytes]

theorem intBytes_bytesInt {bytes : Bytes} (h : bytes.length = 4) :
    intBytes (bytesInt bytes) = bytes := by
  obtain ⟨a, b, c, d, rfl⟩ : ∃ a b c d, bytes = [a, b, c, d] := length_eq_four.mp h
  have := a.toNat_lt
  have := b.toNat_lt
  have := c.toNat_lt
  have := d.toNat_lt
  have hsum : a.toNat + 256 * (b.toNat + 256 * (c.toNat + 256 * (d.toNat + 256 * 0))) <
      2 ^ 32 := by omega
  simp only [bytesInt, intBytes, foldr_cons, foldr_nil, UInt32.toUInt32_toInt32,
    UInt32.toNat_ofNat_of_lt' hsum, cons.injEq, and_true]
  simp only [← UInt8.toNat_inj, UInt8.toNat_ofNat']
  omega

theorem encodeLbKey_decodeLbKey {encoded key tableName : Bytes} {id : Int32}
    (htype : encoded.head? = some 1) (hkey : key ≠ [])
    (h : decodeLbKey encoded = some (tableName, id, key)) :
    encodeLbKey key tableName id = some encoded := by
  obtain ⟨rest, rfl⟩ := head?_eq_some_iff.mp htype
  cases rest with
  | nil => cases h
  | cons size rest =>
    have hsize := size.toNat_lt
    simp only [decodeLbKey, Option.ite_none_left_eq_some, not_lt, Option.some.injEq,
      Prod.mk.injEq] at h
    obtain ⟨hlength, rfl, rfl, rfl⟩ := h
    have htake : (rest.take size.toNat).length = size.toNat := by
      rw [length_take]
      omega
    have hid : ((rest.drop size.toNat).take 4).length = 4 := by
      rw [length_take, length_drop]
      omega
    rw [encodeLbKey, if_neg (by rw [htake]; exact not_or.mpr ⟨hkey, by omega⟩), htake,
      intBytes_bytesInt hid, UInt8.ofNat_toNat, append_assoc, ← drop_drop,
      take_append_drop, take_append_drop]

/-- **Data keys are encoded one to one.** What is encoded reads back with its type, and what reads
back as a data key is what its parts are encoded to. -/
theorem dataKeys_one_to_one : (∀ key tableName id, key ≠ [] → tableName.length ≤ 255 →
      ∃ encoded, encodeLbKey key tableName id = some encoded ∧ encoded.head? = some 1 ∧
        decodeLbKey encoded = some (tableName, id, key)) ∧
    (∀ encoded key tableName id, encoded.head? = some 1 → key ≠ [] →
      decodeLbKey encoded = some (tableName, id, key) →
        encodeLbKey key tableName id = some encoded) ∧
    ∀ encoded key tableName id key' tableName' id', encodeLbKey key tableName id = some encoded →
      encodeLbKey key' tableName' id' = some encoded →
        key = key' ∧ tableName = tableName' ∧ id = id' := by
  refine ⟨fun key tableName id hkey hname => ?_, fun _ _ _ _ => encodeLbKey_decodeLbKey, ?_⟩
  · have hencoded : encodeLbKey key tableName id = some _ :=
      if_neg (not_or.mpr ⟨hkey, not_lt.mpr hname⟩)
    exact ⟨_, hencoded, rfl, decodeLbKey_encodeLbKey hencoded⟩
  · intro encoded key tableName id key' tableName' id' h h'
    have heq := (decodeLbKey_encodeLbKey h).symm.trans (decodeLbKey_encodeLbKey h')
    simp only [Option.some.injEq, Prod.mk.injEq] at heq
    exact ⟨heq.2.2, heq.1, heq.2.1⟩

/-- `EncodeLbKey` for the type `kMeta`. The buffer is made a string up to its first zero byte. -/
def encodeLbKeyMeta (key tableName : Bytes) : Option Bytes :=
  if key = [] ∨ 255 < tableName.length then none else some ((0 :: key).takeWhile (· ≠ 0))

/-- **A meta key never reads back**: its type is the zero byte that ends the string, so every key is
encoded to the empty string. -/
theorem metaKey_reads_back_iff {key tableName : Bytes} (hkey : key ≠ []) :
    ((∀ encoded, encodeLbKeyMeta key tableName = some encoded →
      encoded.head? = some 0 ∧ decodeLbKey encoded = some ([], -1, key)) ∧
    ∀ key' encoded, key' ≠ key → encodeLbKeyMeta key tableName = some encoded →
      encodeLbKeyMeta key' tableName ≠ some encoded) ↔ 255 < tableName.length := by
  unfold encodeLbKeyMeta
  constructor
  · intro h
    by_contra hname
    have hempty := h.1 [] (if_neg (not_or.mpr ⟨hkey, hname⟩))
    cases hempty.1
  · intro hname
    rw [if_pos (.inr hname)]
    exact ⟨nofun, nofun⟩

theorem metaKey_reads_back_long : encodeLbKeyMeta [107] (replicate 256 116) = none ∧
    ∀ encoded, encodeLbKeyMeta [107] (replicate 256 116) = some encoded →
      decodeLbKey encoded = some ([], -1, [107]) := by
  have hlong : 255 < (replicate 256 (116 : UInt8)).length := by
    rw [length_replicate]
    decide
  exact ⟨if_pos (.inr hlong), fun encoded h =>
    (((metaKey_reads_back_iff (by decide)).mpr hlong).1 encoded h).2⟩

/-- Two keys get the empty string, and it is refused. -/
theorem metaKeys_collide :
    encodeLbKeyMeta [107] [116] = some [] ∧ encodeLbKeyMeta [108] [116] = some [] ∧
      decodeLbKey [] = none := by
  decide

/-! ## Writes -/

/-- What a leveldb holds, with the messages parsed. -/
abbrev LevelDb := OrderedMap Bytes ValueInfo

namespace Ldb

/-- `Set` at the time `now`: keys that cannot be encoded are left out. -/
def set (now : Int32) (tableName : Bytes) (id : Int32) (keyValues : UnorderedMap Bytes Bytes)
    (ttl : Int32) (db : LevelDb) : LevelDb :=
  keyValues.entries.foldl (fun db e =>
    match encodeLbKey e.1 tableName id with
    | none => db
    | some encoded => db.assign encoded ⟨e.2, if 0 < ttl then now + ttl else 0⟩) db

def del (tableName : Bytes) (id : Int32) (keys : List Bytes) (db : LevelDb) : LevelDb :=
  keys.foldl (fun db key =>
    match encodeLbKey key tableName id with
    | none => db
    | some encoded => db.erase encoded) db

end Ldb

/-- Every key of a leveldb is a key of its partition. -/
def Ldb.Encoded (tableName : Bytes) (id : Int32) (db : LevelDb) : Prop :=
  ∀ encoded info, db.find? encoded = some info → ∃ key, encodeLbKey key tableName id = some encoded

section Ldb

variable {tableName key encoded : Bytes} {id : Int32} {db : LevelDb}

section

variable (h : encodeLbKey key tableName id = some encoded)
include h

theorem encodeLbKey_inj {key' : Bytes}
    (h' : encodeLbKey key' tableName id = some encoded) : key = key' := by
  have heq := (decodeLbKey_encodeLbKey h).symm.trans (decodeLbKey_encodeLbKey h')
  simpa using heq

theorem Ldb.find?_set (now : Int32)
    (keyValues : UnorderedMap Bytes Bytes) (ttl : Int32) (db : LevelDb) :
    (Ldb.set now tableName id keyValues ttl db).find? encoded =
      ((keyValues.lookup key).map fun value =>
        ⟨value, if 0 < ttl then now + ttl else 0⟩).or (db.find? encoded) := by
  obtain ⟨es, hnodup⟩ := keyValues
  unfold Ldb.set AList.lookup
  induction es generalizing db with
  | nil => simp
  | cons e es ih =>
    obtain ⟨first, value⟩ := e
    rw [nodupKeys_cons] at hnodup
    rw [foldl_cons, ih _ hnodup.2]
    by_cases hkey : key = first
    · subst hkey
      simp [h, find?_assign, dlookup_eq_none.mpr hnodup.1]
    · rw [dlookup_cons_ne es ⟨first, value⟩ hkey]
      cases hfirst : encodeLbKey first tableName id with
      | none => rfl
      | some other =>
        have hne : encoded ≠ other := fun heq => hkey (encodeLbKey_inj h (heq ▸ hfirst))
        simp [find?_assign, hne]

theorem Ldb.find?_del (keys : List Bytes)
    (db : LevelDb) : (Ldb.del tableName id keys db).find? encoded =
      if key ∈ keys then none else db.find? encoded := by
  unfold Ldb.del
  induction keys generalizing db with
  | nil => simp
  | cons first keys ih =>
    rw [foldl_cons, ih]
    by_cases hkey : key = first
    · subst hkey
      simp [h, find?_erase]
    · cases hfirst : encodeLbKey first tableName id with
      | none => simp [hkey]
      | some other =>
        have hne : encoded ≠ other := fun heq => hkey (encodeLbKey_inj h (heq ▸ hfirst))
        simp [find?_erase, hne, hkey]

end

theorem Ldb.Encoded.set (h : Ldb.Encoded tableName id db) (now : Int32)
    (keyValues : UnorderedMap Bytes Bytes) (ttl : Int32) :
    Ldb.Encoded tableName id (Ldb.set now tableName id keyValues ttl db) := by
  refine foldlRecOn keyValues.entries _ h fun db hdb e _ => ?_
  split
  · exact hdb
  · rename_i other hother
    intro encoded info hinfo
    rw [find?_assign] at hinfo
    by_cases heq : encoded = other
    · exact ⟨e.1, heq ▸ hother⟩
    · rw [if_neg heq] at hinfo
      exact hdb encoded info hinfo

theorem Ldb.Encoded.del (h : Ldb.Encoded tableName id db) (keys : List Bytes) :
    Ldb.Encoded tableName id (Ldb.del tableName id keys db) := by
  refine foldlRecOn keys _ h fun db hdb key _ => ?_
  split
  · exact hdb
  · intro encoded info hinfo
    rw [find?_erase] at hinfo
    split_ifs at hinfo
    exact hdb encoded info hinfo

end Ldb

/-- A write to a partition. The cache and the leveldb each read the clock. -/
inductive Persisted.Write
  | set (now ldbNow : Int32) (keyValues : UnorderedMap Bytes Bytes) (ttl : Int32)
  | del (keys : List Bytes)

/-- A partition of a node with `open_persistence`. -/
structure Persisted where
  cache : Cache
  db : LevelDb

namespace Persisted

/-- `Set` and `Del`: the cache first, then leveldb. -/
def write (tableName : Bytes) (id : Int32) (p : Persisted) : Write → Persisted
  | .set now ldbNow keyValues ttl =>
    ⟨p.cache.set now keyValues ttl, Ldb.set ldbNow tableName id keyValues ttl p.db⟩
  | .del keys => ⟨p.cache.del keys, Ldb.del tableName id keys p.db⟩

/-- A partition after a sequence of writes. -/
def after (tableName : Bytes) (id : Int32) (writes : List Write) : Persisted :=
  writes.foldl (write tableName id) ⟨.empty, ∅⟩

/-- The cache and the leveldb hold entries that `Q` relates, under the keys that can be encoded. -/
structure Agrees (Q : ValueInfo → ValueInfo → Prop) (tableName : Bytes) (id : Int32)
    (p : Persisted) : Prop where
  encoded : Ldb.Encoded tableName id p.db
  related : ∀ key encoded, encodeLbKey key tableName id = some encoded →
    Option.Rel Q (p.cache.keyValues.lookup key) (p.db.find? encoded)

/-- `Q` relates what the two stores make of a write. -/
def Write.Relates (Q : ValueInfo → ValueInfo → Prop) : Write → Prop
  | .set now ldbNow _ ttl => ∀ value, Q ⟨value, if 0 < ttl then now + ttl else 0⟩
      ⟨value, if 0 < ttl then ldbNow + ttl else 0⟩
  | .del _ => True

variable {Q : ValueInfo → ValueInfo → Prop} {tableName : Bytes} {id : Int32} {p : Persisted}

theorem Agrees.of_db (h : p.Agrees Q tableName id) {key encoded : Bytes} {ldbInfo : ValueInfo}
    (hkey : encodeLbKey key tableName id = some encoded)
    (hdb : p.db.find? encoded = some ldbInfo) :
    ∃ info, p.cache.keyValues.lookup key = some info ∧ Q info ldbInfo := by
  have hrel := h.related key encoded hkey
  rw [hdb] at hrel
  generalize p.cache.keyValues.lookup key = found at hrel ⊢
  cases hrel with
  | some hQ => exact ⟨_, rfl, hQ⟩

theorem Agrees.of_cache (h : p.Agrees Q tableName id) {key encoded : Bytes} {info : ValueInfo}
    (hkey : encodeLbKey key tableName id = some encoded)
    (hcache : p.cache.keyValues.lookup key = some info) :
    ∃ ldbInfo, p.db.find? encoded = some ldbInfo ∧ Q info ldbInfo := by
  have hrel := h.related key encoded hkey
  rw [hcache] at hrel
  generalize p.db.find? encoded = found at hrel ⊢
  cases hrel with
  | some hQ => exact ⟨_, rfl, hQ⟩

theorem Agrees.write (h : p.Agrees Q tableName id) {w : Write} (hw : w.Relates Q) :
    (p.write tableName id w).Agrees Q tableName id := by
  cases w with
  | set now ldbNow keyValues ttl =>
    refine ⟨h.encoded.set _ _ _, fun key encoded hkey => ?_⟩
    simp only [Persisted.write, Cache.lookup_set, Ldb.find?_set hkey]
    cases keyValues.lookup key with
    | none => exact h.related key encoded hkey
    | some value => exact .some (hw value)
  | del keys =>
    refine ⟨h.encoded.del _, fun key encoded hkey => ?_⟩
    simp only [Persisted.write, Cache.del, lookup_foldl_erase, Ldb.find?_del hkey]
    by_cases hmem : key ∈ keys
    · simp only [hmem, if_true]
      exact .none
    · simp only [hmem, if_false]
      exact h.related key encoded hkey

theorem agrees_after {writes : List Write} (h : ∀ w ∈ writes, w.Relates Q) :
    (after tableName id writes).Agrees Q tableName id := by
  refine foldlRecOn writes _ ⟨fun encoded info hinfo => ?_, fun key encoded _ => .none⟩
    fun p hp w hw => hp.write (h w hw)
  cases hinfo

end Persisted

open Persisted

/-! ## Loading -/

/-- The directories of `leveldb_path`: the names of the tables, the partitions each of them has, and
the leveldb of a partition. -/
structure Disk where
  tables : List Bytes
  parts : Bytes → List Int32
  store : Bytes → Int32 → LevelDb

/-- `GetDirList`: a name with `.used` in it is skipped. -/
def getDirList (names : List Bytes) : List Bytes :=
  names.filter fun name => name ≠ [46] ∧ name ≠ [46, 46] ∧ ¬ [46, 117, 115, 101, 100] <:+: name

/-- The scan of the directories comes to a partition. -/
def Disk.Lists (disk : Disk) (tableName : Bytes) (id : Int32) : Prop :=
  tableName ∈ getDirList disk.tables ∧ id ∈ disk.parts tableName

namespace NodeData

/-- The variables of `LoadDataFormDb`, with the caches it fills. -/
structure Loading where
  caches : UnorderedMap Bytes Cache
  keyValues : UnorderedMap Bytes Bytes
  ttlVec : List Int32

def batchSize : ℕ := 1000000

/-- The entry of a partition that is loaded from an entry of its leveldb. -/
def loadable (now : Int32) (tableName : Bytes) (id : Int32) (e : Bytes × ValueInfo) :
    Option (Bytes × ValueInfo) :=
  match decodeLbKey e.1 with
  | none => none
  | some (name, partId, key) =>
    if name ≠ tableName ∨ partId ≠ id then none
    else if e.2.Gone now then none
    else some (key, e.2)

/-- What is taken for the `ttl` of a loaded entry: the time it expires. -/
def loadedTtl (info : ValueInfo) : Int32 := if info.expired ≠ 0 then info.expired else -1

/-- `Set` of what was collected, in the order of the protobuf map. -/
def flush (order : Arrangement Bytes Bytes) (now : Int32) (tableName : Bytes) (id : Int32)
    (st : Loading) : Loading :=
  let name := tableInfoString tableName id
  let cache := (st.caches.lookup name).getD .empty
  ⟨st.caches.assign name (cache.setTtlVec now (order.run st.keyValues) st.ttlVec).2, ∅, []⟩

/-- An entry is collected, and a full batch is written. -/
def collect (order : Arrangement Bytes Bytes) (now : Int32) (tableName : Bytes) (id : Int32)
    (st : Loading) (item : Bytes × ValueInfo) : Loading :=
  let st := { st with
    keyValues := st.keyValues.assign item.1 item.2.value
    ttlVec := st.ttlVec ++ [loadedTtl item.2] }
  if batchSize < st.keyValues.entries.length then flush order now tableName id st else st

/-- The body of the loop over a leveldb. -/
def loadEntry (order : Arrangement Bytes Bytes) (now : Int32) (tableName : Bytes) (id : Int32)
    (st : Loading) (e : Bytes × ValueInfo) : Loading :=
  match loadable now tableName id e with
  | none => st
  | some item => collect order now tableName id st item

/-- The body of the loop over the partitions of a table. -/
def loadPartition (order : Arrangement Bytes Bytes) (now : Int32) (tableName : Bytes) (id : Int32)
    (db : LevelDb) (caches : UnorderedMap Bytes Cache) : UnorderedMap Bytes Cache :=
  let st := db.entries.foldl (loadEntry order now tableName id) ⟨caches, ∅, []⟩
  if st.keyValues.entries = [] then st.caches else (flush order now tableName id st).caches

/-- `LoadDataFormDb` at the time `now` on a node that starts. -/
def loadDataFormDb (order : Arrangement Bytes Bytes) (now : Int32) (disk : Disk) :
    Bool × UnorderedMap Bytes Cache :=
  let tableNames := getDirList disk.tables
  if tableNames = [] then (false, ∅)
  else (true, tableNames.foldl (fun caches name => (disk.parts name).foldl (fun caches id =>
    loadPartition order now name id (disk.store name id) caches) caches) ∅)

/-- `NodeData::Get`. -/
def get (now : Int32) (tableName : Bytes) (id : Int32) (keys : List Bytes)
    (caches : UnorderedMap Bytes Cache) : List Bytes :=
  match caches.lookup (tableInfoString tableName id) with
  | some cache => cache.get now keys
  | none => keys.map fun _ => []

/-- What `Get` finds in a partition of a node. -/
def find (now : Int32) (tableName : Bytes) (id : Int32) (key : Bytes)
    (caches : UnorderedMap Bytes Cache) : Option Bytes :=
  (caches.lookup (tableInfoString tableName id)).bind (Cache.find now key)

/-! ## What is loaded -/

section Loaded

variable {order : Arrangement Bytes Bytes} {now : Int32} {tableName : Bytes} {id : Int32}
  {items : List (Bytes × ValueInfo)} {R : Bytes × ValueInfo → Int32 → Prop}

/-- The message `Set` stores for a value and a `ttl`. -/
def stored (now : Int32) (value : Bytes) (ttl : Int32) : ValueInfo :=
  ⟨value, if 0 < ttl then now + ttl else 0⟩

theorem keyValues_setTtlVec {keyValues : UnorderedMap Bytes Bytes} {ttlVec : List Int32}
    (h : keyValues.entries.length = ttlVec.length) (c : Cache) :
    (c.setTtlVec now keyValues ttlVec).2.keyValues = (keyValues.entries.zip ttlVec).foldl
      (fun m e => m.assign e.1.1 (stored now e.1.2 e.2)) c.keyValues := by
  simp only [Cache.setTtlVec, h, ne_eq, not_true_eq_false, if_false]
  exact (foldl_hom Cache.keyValues fun _ _ => rfl).symm

/-- What a protobuf map holds after the values of some entries were collected in it. -/
def collected (batch : List (Bytes × ValueInfo)) : List (Σ _ : Bytes, Bytes) :=
  (batch.map fun item => ⟨item.1, item.2.value⟩).reverse

/-- Whatever was collected, an entry only gets a `ttl` that `R` allows. -/
def Pairs (order : Arrangement Bytes Bytes) (items : List (Bytes × ValueInfo))
    (R : Bytes × ValueInfo → Int32 → Prop) : Prop :=
  ∀ batch ⊆ items, ∀ keyValues : UnorderedMap Bytes Bytes, keyValues.entries = collected batch →
    ∀ x ∈ (order.run keyValues).entries.zip (batch.map (loadedTtl ·.2)),
      ∃ info, (x.1.1, info) ∈ items ∧ info.value = x.1.2 ∧ R (x.1.1, info) x.2

theorem pairs_any (order : Arrangement Bytes Bytes) (items : List (Bytes × ValueInfo)) :
    Pairs order items fun _ ttl => ∃ other ∈ items, ttl = loadedTtl other.2 := by
  intro batch hbatch keyValues hentries x hx
  obtain ⟨hkey, httl⟩ := of_mem_zip hx
  rw [(order.perm keyValues).mem_iff, hentries, collected, mem_reverse] at hkey
  obtain ⟨item, hitem, heq⟩ := mem_map.mp hkey
  obtain ⟨other, hother, hother'⟩ := mem_map.mp httl
  rw [← heq]
  exact ⟨item.2, hbatch hitem, rfl, other, hbatch hother, hother'.symm⟩

theorem pairs_reverse (items : List (Bytes × ValueInfo)) :
    Pairs .reverse items fun item ttl => ttl = loadedTtl item.2 := by
  intro batch hbatch keyValues hentries x hx
  have hrun : (Arrangement.reverse.run keyValues).entries =
      batch.map fun item => ⟨item.1, item.2.value⟩ := by
    change keyValues.entries.reverse = _
    rw [hentries, collected, reverse_reverse]
  rw [hrun, zip_map', mem_map] at hx
  obtain ⟨item, hitem, rfl⟩ := hx
  exact ⟨item.2, hbatch hitem, rfl, rfl⟩

/-- The entries of a partition's cache. -/
def cached (tableName : Bytes) (id : Int32) (caches : UnorderedMap Bytes Cache) :
    UnorderedMap Bytes ValueInfo :=
  ((caches.lookup (tableInfoString tableName id)).getD .empty).keyValues

/-- Everything in the cache of a partition was loaded from its leveldb, with a `ttl` that `R`
allows. -/
def Sound (now : Int32) (tableName : Bytes) (id : Int32) (items : List (Bytes × ValueInfo))
    (R : Bytes × ValueInfo → Int32 → Prop) (caches : UnorderedMap Bytes Cache) : Prop :=
  ∀ key found, (cached tableName id caches).lookup key = some found →
    ∃ info ttl, (key, info) ∈ items ∧ R (key, info) ttl ∧ found = stored now info.value ttl

/-- Everything that is loaded is in the cache of a partition. -/
def Filled (tableName : Bytes) (id : Int32) (items : List (Bytes × ValueInfo))
    (caches : UnorderedMap Bytes Cache) : Prop :=
  ∀ item ∈ items, ((cached tableName id caches).lookup item.1).isSome = true

theorem flush_spec (hpairs : Pairs order items R) {batch : List (Bytes × ValueInfo)}
    (hbatch : batch ⊆ items) {st : Loading} (hentries : st.keyValues.entries = collected batch)
    (httl : st.ttlVec = batch.map (loadedTtl ·.2))
    (hsound : Sound now tableName id items R st.caches) :
    Sound now tableName id items R (flush order now tableName id st).caches ∧
    Filled tableName id batch (flush order now tableName id st).caches ∧
    ∀ key, ((cached tableName id st.caches).lookup key).isSome = true →
      ((cached tableName id (flush order now tableName id st).caches).lookup key).isSome =
        true := by
  have hlength : (order.run st.keyValues).entries.length = st.ttlVec.length := by
    rw [(order.perm _).length_eq, hentries, httl]
    simp [collected]
  have hcached : cached tableName id (flush order now tableName id st).caches =
      ((order.run st.keyValues).entries.zip st.ttlVec).foldl
        (fun m e => m.assign e.1.1 (stored now e.1.2 e.2)) (cached tableName id st.caches) := by
    simp only [cached, flush, lookup_assign, if_true, Option.getD_some]
    exact keyValues_setTtlVec hlength _
  unfold Filled
  rw [hcached]
  refine ⟨?_, ?_, fun key hkey => isSome_lookup_foldl_assign (.inr hkey)⟩
  · intro key found hfound
    rw [hcached] at hfound
    rcases mem_of_lookup_foldl_assign hfound with ⟨x, hx, rfl, hvalue⟩ | hold
    · rw [httl] at hx
      obtain ⟨info, hinfo, heq, hR⟩ := hpairs batch hbatch _ hentries x hx
      exact ⟨info, x.2, hinfo, hR, heq ▸ hvalue⟩
    · exact hsound key found hold
  · intro item hitem
    refine isSome_lookup_foldl_assign (.inl ?_)
    -- the lists are equally long, so every key is paired
    have hmem : (⟨item.1, item.2.value⟩ : Σ _ : Bytes, Bytes) ∈
        (order.run st.keyValues).entries := by
      rw [(order.perm _).mem_iff, hentries, collected, mem_reverse]
      exact mem_map.mpr ⟨item, hitem, rfl⟩
    rw [← map_fst_zip hlength.le] at hmem
    obtain ⟨x, hx, heq⟩ := mem_map.mp hmem
    exact ⟨x, hx, congrArg Sigma.fst heq⟩

/-- How far a partition is loaded: what was passed is in the cache or in the batch. -/
structure Progress (now : Int32) (tableName : Bytes) (id : Int32) (items : List (Bytes × ValueInfo))
    (R : Bytes × ValueInfo → Int32 → Prop) (passed batch : List (Bytes × ValueInfo))
    (st : Loading) :
    Prop where
  batched : batch ⊆ passed
  entries : st.keyValues.entries = collected batch
  ttls : st.ttlVec = batch.map (loadedTtl ·.2)
  sound : Sound now tableName id items R st.caches
  complete : ∀ item ∈ passed, item ∈ batch ∨
    ((cached tableName id st.caches).lookup item.1).isSome = true

variable {caches : UnorderedMap Bytes Cache} {passed batch : List (Bytes × ValueInfo)}
  {st : Loading}

section

variable (h : Progress now tableName id items R passed batch st) (hpairs : Pairs order items R)
include h hpairs

theorem Progress.flush (hpassed : passed ⊆ items) :
    Progress now tableName id items R passed [] (flush order now tableName id st) := by
  obtain ⟨hsound, hbatch, hkept⟩ := flush_spec hpairs (Subset.trans h.batched hpassed)
    h.entries h.ttls h.sound
  exact {
    batched := nil_subset _
    entries := rfl
    ttls := rfl
    sound := hsound
    complete item hitem := .inr ((h.complete item hitem).elim (hbatch item) (hkept item.1)) }

theorem Progress.collect {item : Bytes × ValueInfo} (hpassed : passed ++ [item] ⊆ items)
    (hfresh : item.1 ∉ passed.map Prod.fst) :
    ∃ batch', Progress now tableName id items R (passed ++ [item]) batch'
      (collect order now tableName id st item) := by
  have hnone : st.keyValues.lookup item.1 = none := by
    rw [AList.lookup_eq_none]
    intro hmem
    have hkeys : item.1 ∈ st.keyValues.entries.map Sigma.fst := hmem
    rw [h.entries] at hkeys
    simp only [collected, map_reverse, mem_reverse, map_map, mem_map] at hkeys
    obtain ⟨other, hother, heq⟩ := hkeys
    exact hfresh (mem_map.mpr ⟨other, h.batched hother, heq⟩)
  have hcollected : Progress now tableName id items R (passed ++ [item]) (batch ++ [item]) { st with
        keyValues := st.keyValues.assign item.1 item.2.value
        ttlVec := st.ttlVec ++ [loadedTtl item.2] } := { h with
    batched := append_subset.mpr ⟨subset_append_of_subset_left _ h.batched, subset_append_right _ _⟩
    entries := by
      simp only [UnorderedMap.assign, hnone]
      rw [AList.entries_insert_of_notMem (AList.lookup_eq_none.mp hnone), h.entries]
      simp [collected]
    ttls := by simp [h.ttls]
    complete other hother := by
      rcases mem_append.mp hother with hother | hother
      · exact (h.complete other hother).imp_left (mem_append_left _)
      · exact .inl (mem_append_right _ hother) }
  by_cases hfull : batchSize < (st.keyValues.assign item.1 item.2.value).entries.length
  · simp only [NodeData.collect, if_pos hfull]
    exact ⟨[], hcollected.flush hpairs hpassed⟩
  · simp only [NodeData.collect, if_neg hfull]
    exact ⟨_, hcollected⟩

end

theorem Progress.foldl (hpairs : Pairs order items R) (hnodup : (items.map Prod.fst).Nodup)
    {rest : List (Bytes × ValueInfo)} (hitems : items = passed ++ rest)
    (h : Progress now tableName id items R passed batch st) :
    ∃ batch', Progress now tableName id items R items batch'
      (rest.foldl (NodeData.collect order now tableName id) st) := by
  induction rest generalizing passed batch st with
  | nil =>
    rw [append_nil] at hitems
    exact ⟨batch, hitems ▸ h⟩
  | cons item rest ih =>
    have hfresh : item.1 ∉ passed.map Prod.fst := by
      rw [hitems, map_append, map_cons] at hnodup
      exact fun hmem => disjoint_of_nodup_append hnodup hmem mem_cons_self
    rw [append_cons] at hitems
    obtain ⟨batch', hbatch'⟩ := h.collect hpairs (hitems ▸ subset_append_left _ _) hfresh
    exact ih hitems hbatch'

/-- The entries that are loaded from a leveldb. -/
def loadables (now : Int32) (tableName : Bytes) (id : Int32) (db : LevelDb) :
    List (Bytes × ValueInfo) := db.entries.filterMap (loadable now tableName id)

/-- **What a partition is loaded with**: the entries of its leveldb, and nothing else. -/
theorem loadPartition_spec {db : LevelDb} (hdb : loadables now tableName id db = items)
    (hpairs : Pairs order items R) (hnodup : (items.map Prod.fst).Nodup)
    (hsound : Sound now tableName id items R caches) :
    Sound now tableName id items R (loadPartition order now tableName id db caches) ∧
    Filled tableName id items (loadPartition order now tableName id db caches) := by
  have hstart : Progress now tableName id items R [] [] ⟨caches, ∅, []⟩ :=
    ⟨Subset.refl _, rfl, rfl, hsound, nofun⟩
  have hitems : items = [] ++ items := rfl
  obtain ⟨batch, hloaded⟩ := Progress.foldl hpairs hnodup hitems hstart
  have hloop : db.entries.foldl (loadEntry order now tableName id) ⟨caches, ∅, []⟩ =
      items.foldl (collect order now tableName id) ⟨caches, ∅, []⟩ := by
    rw [← hdb, loadables, foldl_filterMap]
    refine congrArg (fun f => foldl f _ db.entries) (funext fun st => funext fun e => ?_)
    unfold loadEntry
    cases loadable now tableName id e <;> rfl
  by_cases hempty : (items.foldl (collect order now tableName id)
      ⟨caches, ∅, []⟩).keyValues.entries = []
  · simp only [loadPartition, hloop, if_pos hempty]
    have hbatch : batch = [] := by
      have hentries := hloaded.entries
      rw [hempty] at hentries
      simpa [collected] using hentries.symm
    subst hbatch
    exact ⟨hloaded.sound, fun item hitem => (hloaded.complete item hitem).resolve_left not_mem_nil⟩
  · simp only [loadPartition, hloop, if_neg hempty]
    have hflushed := hloaded.flush hpairs (Subset.refl _)
    exact ⟨hflushed.sound, fun item hitem => (hflushed.complete item hitem).resolve_left
      not_mem_nil⟩

theorem lookup_loadPartition_of_ne {db : LevelDb} {name : Bytes}
    (h : name ≠ tableInfoString tableName id) :
    (loadPartition order now tableName id db caches).lookup name = caches.lookup name := by
  have hflush : ∀ st : Loading,
      (flush order now tableName id st).caches.lookup name = st.caches.lookup name := by
    intro st
    simp only [flush, lookup_assign, if_neg h]
  have hcollect : ∀ (st : Loading) (item : Bytes × ValueInfo),
      (collect order now tableName id st item).caches.lookup name = st.caches.lookup name := by
    intro st item
    simp only [collect]
    split
    · exact hflush _
    · rfl
  have hloop : (db.entries.foldl (loadEntry order now tableName id) ⟨caches, ∅, []⟩).caches.lookup
      name = caches.lookup name := by
    refine foldlRecOn (motive := fun st : Loading => st.caches.lookup name = _) db.entries _ rfl
      fun st hst e _ => ?_
    unfold loadEntry
    split
    · exact hst
    · exact (hcollect st _).trans hst
  simp only [loadPartition]
  split
  · exact hloop
  · exact (hflush _).trans hloop

/-- The partitions in the order they are loaded. -/
def scanned (disk : Disk) : List (Bytes × Int32) :=
  (getDirList disk.tables).flatMap fun name => (disk.parts name).map (name, ·)

theorem mem_scanned {disk : Disk} : (tableName, id) ∈ scanned disk ↔ disk.Lists tableName id := by
  simp [scanned, Disk.Lists]

/-- Partitions loaded one after the other. -/
def loadAll (order : Arrangement Bytes Bytes) (now : Int32) (disk : Disk)
    (ps : List (Bytes × Int32)) (caches : UnorderedMap Bytes Cache) : UnorderedMap Bytes Cache :=
  ps.foldl (fun caches p => loadPartition order now p.1 p.2 (disk.store p.1 p.2) caches) caches

theorem loadDataFormDb_eq (disk : Disk) :
    (loadDataFormDb order now disk).2 = loadAll order now disk (scanned disk) ∅ := by
  simp only [loadDataFormDb, loadAll, scanned, foldl_flatMap, foldl_map]
  split
  · rename_i hempty
    rw [hempty]
    rfl
  · rfl

section

variable {disk : Disk} (hitems : items = loadables now tableName id (disk.store tableName id))
  (hpairs : Pairs order items R) (hnodup : (items.map Prod.fst).Nodup)
include hitems hpairs hnodup

theorem loadAll_spec (ps : List (Bytes × Int32)) {caches : UnorderedMap Bytes Cache}
    (hsound : Sound now tableName id items R caches) :
    Sound now tableName id items R (loadAll order now disk ps caches) ∧
    ((tableName, id) ∈ ps ∨ Filled tableName id items caches →
      Filled tableName id items (loadAll order now disk ps caches)) ∧
    ((tableName, id) ∉ ps → (loadAll order now disk ps caches).lookup
      (tableInfoString tableName id) = caches.lookup (tableInfoString tableName id)) := by
  induction ps generalizing caches with
  | nil => exact ⟨hsound, fun hfilled => hfilled.resolve_left not_mem_nil, fun _ => rfl⟩
  | cons p ps ih =>
    by_cases hp : p = (tableName, id)
    · subst hp
      have hloaded := loadPartition_spec hitems.symm hpairs hnodup hsound
      obtain ⟨hsound, hfilled, -⟩ := ih hloaded.1
      exact ⟨hsound, fun _ => hfilled (.inr hloaded.2), fun hnot => absurd mem_cons_self hnot⟩
    -- another partition has another cache
    · have hname : tableInfoString tableName id ≠ tableInfoString p.1 p.2 := by
        intro heq
        obtain ⟨hname, hid⟩ := tableInfoString_inj.mp heq
        exact hp (Prod.ext hname.symm hid.symm)
      have hother : (loadPartition order now p.1 p.2 (disk.store p.1 p.2) caches).lookup
          (tableInfoString tableName id) = caches.lookup (tableInfoString tableName id) :=
        lookup_loadPartition_of_ne hname
      have hcached : cached tableName id (loadPartition order now p.1 p.2 (disk.store p.1 p.2)
          caches) = cached tableName id caches := by
        simp only [cached, hother]
      simp only [Sound, Filled, ← hcached] at hsound ⊢
      obtain ⟨hsound, hfilled, habsent⟩ := ih hsound
      refine ⟨hsound, fun h => hfilled (h.imp_left fun hmem => ?_), fun hnot => ?_⟩
      · exact (mem_cons.mp hmem).resolve_left (Ne.symm hp)
      · exact (habsent fun hmem => hnot (mem_cons_of_mem _ hmem)).trans hother

/-- **What a node starts with** in a partition: the entries of its leveldb if the scan comes to it,
and no cache otherwise. -/
theorem loadDataFormDb_spec : Sound now tableName id items R (loadDataFormDb order now disk).2 ∧
    (disk.Lists tableName id → Filled tableName id items (loadDataFormDb order now disk).2) ∧
    (¬ disk.Lists tableName id →
      (loadDataFormDb order now disk).2.lookup (tableInfoString tableName id) = none) := by
  rw [loadDataFormDb_eq, ← mem_scanned]
  have hstart : Sound now tableName id items R ∅ := by
    intro key found hfound
    simp [cached, Cache.empty] at hfound
  obtain ⟨hsound, hfilled, habsent⟩ := loadAll_spec hitems hpairs hnodup (scanned disk) hstart
  exact ⟨hsound, fun hlists => hfilled (.inl hlists), habsent⟩

end

theorem loadable_eq_some_iff {key : Bytes} {e item : Bytes × ValueInfo}
    (h : encodeLbKey key tableName id = some e.1) :
    loadable now tableName id e = some item ↔ ¬ e.2.Gone now ∧ (key, e.2) = item := by
  simp [loadable, decodeLbKey_encodeLbKey h]

theorem mem_loadables {db : LevelDb} (h : Ldb.Encoded tableName id db) {key : Bytes}
    {info : ValueInfo} : (key, info) ∈ loadables now tableName id db ↔
      ∃ encoded, encodeLbKey key tableName id = some encoded ∧ db.find? encoded = some info ∧
        ¬ info.Gone now := by
  simp only [loadables, mem_filterMap]
  constructor
  · rintro ⟨⟨encoded, info'⟩, he, hload⟩
    rw [← find?_eq_some_iff] at he
    obtain ⟨key', hkey'⟩ := h encoded info' he
    obtain ⟨hlive, hitem⟩ := (loadable_eq_some_iff hkey').mp hload
    cases hitem
    exact ⟨encoded, hkey', he, hlive⟩
  · rintro ⟨encoded, hkey, hinfo, hlive⟩
    exact ⟨(encoded, info), find?_eq_some_iff.mp hinfo, (loadable_eq_some_iff hkey).mpr
      ⟨hlive, rfl⟩⟩

theorem nodup_loadables {db : LevelDb} (h : Ldb.Encoded tableName id db) :
    ((loadables now tableName id db).map Prod.fst).Nodup := by
  have hkey : ∀ e ∈ db.entries, ∀ item ∈ loadable now tableName id e,
      encodeLbKey item.1 tableName id = some e.1 := by
    intro e he item hitem
    obtain ⟨key, hkey⟩ := h e.1 e.2 (find?_eq_some_iff.mpr he)
    obtain ⟨-, rfl⟩ := (loadable_eq_some_iff hkey).mp hitem
    exact hkey
  rw [Nodup, pairwise_map]
  refine Pairwise.filterMap (loadable now tableName id) (fun a b hab x hx y hy => ?_)
    (db.sorted.imp_of_mem fun ha hb hlt => (⟨ha, hb, hlt.ne⟩ :
      _ ∈ db.entries ∧ _ ∈ db.entries ∧ _ ≠ _))
  obtain ⟨ha, hb, hne⟩ := hab
  intro heq
  have hsame := (hkey a ha x hx).symm.trans (heq ▸ hkey b hb y hy)
  exact hne (Option.some.inj hsame)

theorem find_eq_some_iff {key value : Bytes} : find now tableName id key caches = some value ↔
    ∃ info, (cached tableName id caches).lookup key = some info ∧ ¬ info.Gone now ∧
      info.value = value := by
  unfold find cached
  cases caches.lookup (tableInfoString tableName id) with
  | none => simp [Cache.empty]
  | some c => exact Cache.find_eq_some_iff

end Loaded

end NodeData

/-! ## Restoring a cache -/

namespace Persisted

variable {tableName : Bytes} {id t : Int32} {disk : Disk} {p : Persisted}

/-- The clock is past the epoch. -/
def Write.Timed : Write → Prop
  | .set now ldbNow _ _ => 0 < now ∧ 0 < ldbNow
  | .del _ => True

/-- The clock does not tick between the two stores. -/
def Write.Steady : Write → Prop
  | .set now ldbNow _ _ => now = ldbNow
  | .del _ => True

/-- A node that starts at the time `t` finds what the cache would give from then on. -/
def Restored (t : Int32) (disk : Disk) (tableName : Bytes) (id : Int32) (p : Persisted) : Prop :=
  ∀ order key t', t ≤ t' →
    NodeData.find t' tableName id key (NodeData.loadDataFormDb order t disk).2 = p.cache.find t' key

/-- What can be read at the time `t` never expires and is where the scan finds it, and what leveldb
has at that time never expires either. -/
structure Lasting (t : Int32) (disk : Disk) (tableName : Bytes) (id : Int32) (p : Persisted) :
    Prop where
  cache : ∀ key info, p.cache.keyValues.lookup key = some info → ¬ info.Gone t →
    info.expired = 0 ∧ key ≠ [] ∧ tableName.length ≤ 255 ∧ disk.Lists tableName id
  db : disk.Lists tableName id → ∀ encoded info, p.db.find? encoded = some info →
    ¬ info.Gone t → info.expired = 0

theorem add_ne_zero_of_pos {a b : Int32} (ha : 0 < a) (hb : 0 < b) : a + b ≠ 0 := by
  rw [lt_iff_toInt_lt, toInt_zero] at ha hb
  intro h
  have hsum := congrArg toInt h
  have ha' := a.toInt_lt
  have hb' := b.toInt_lt
  rw [toInt_add, toInt_zero, Int.bmod_def] at hsum
  split at hsum <;> omega

theorem add_le_or_lt_add {t x : Int32} (ht : 0 < t) (h : t < x) : t + x ≤ t ∨ x < t + x := by
  rw [lt_iff_toInt_lt] at ht h
  rw [toInt_zero] at ht
  have hx := x.toInt_lt
  rw [le_iff_toInt_le, lt_iff_toInt_lt, toInt_add, Int.bmod_def]
  split <;> omega

/-- The two stores of a partition have the same values, and the same entries without an expiry. -/
def SameEntry (info ldbInfo : ValueInfo) : Prop :=
  info.value = ldbInfo.value ∧ (info.expired = 0 ↔ ldbInfo.expired = 0)

theorem Write.Timed.relates {w : Write} (h : w.Timed) : w.Relates SameEntry := by
  cases w with
  | del keys => trivial
  | set now ldbNow keyValues ttl =>
    intro value
    refine ⟨rfl, ?_⟩
    by_cases httl : 0 < ttl
    · simp only [httl, if_true]
      exact iff_of_false (add_ne_zero_of_pos h.1 httl) (add_ne_zero_of_pos h.2 httl)
    · simp [httl]

theorem Write.Steady.relates {w : Write} (h : w.Steady) : w.Relates Eq := by
  cases w with
  | del keys => trivial
  | set now ldbNow keyValues ttl =>
    intro value
    rw [show now = ldbNow from h]

open NodeData

theorem Lasting.restored (h : p.Lasting t disk tableName id)
    (hagrees : p.Agrees SameEntry tableName id) (hstore : disk.store tableName id = p.db) :
    p.Restored t disk tableName id := by
  intro order key t' ht'
  obtain ⟨hsound, hfilled, habsent⟩ := loadDataFormDb_spec (congrArg _ hstore.symm)
    (pairs_any order (loadables t tableName id p.db)) (nodup_loadables hagrees.encoded)
  have hforever : disk.Lists tableName id → ∀ key info,
      (key, info) ∈ loadables t tableName id p.db → info.expired = 0 := by
    intro hlists key info hinfo
    obtain ⟨encoded, -, hdb, hlive⟩ := (mem_loadables hagrees.encoded).mp hinfo
    exact h.db hlists encoded info hdb hlive
  -- every `ttl` is `-1`, so the order does not matter
  have hfound : disk.Lists tableName id → ∀ found,
      (cached tableName id (loadDataFormDb order t disk).2).lookup key = some found →
      ∃ info, (key, info) ∈ loadables t tableName id p.db ∧ found = ⟨info.value, 0⟩ := by
    intro hlists found hfound
    obtain ⟨info, ttl, hinfo, ⟨other, hother, rfl⟩, rfl⟩ := hsound key found hfound
    refine ⟨info, hinfo, ?_⟩
    have hzero : other.2.expired = 0 := hforever hlists other.1 other.2 hother
    simp [stored, loadedTtl, hzero]
  ext value
  rw [find_eq_some_iff, Cache.find_eq_some_iff]
  constructor
  · rintro ⟨found, hlookup, -, hvalue⟩
    have hlists : disk.Lists tableName id := by
      by_contra hnot
      simp [cached, habsent hnot, Cache.empty] at hlookup
    obtain ⟨info, hinfo, rfl⟩ := hfound hlists found hlookup
    obtain ⟨encoded, hkey, hdb, -⟩ := (mem_loadables hagrees.encoded).mp hinfo
    obtain ⟨cacheInfo, hcache, hsame, hzero⟩ := hagrees.of_db hkey hdb
    refine ⟨cacheInfo, hcache, fun hgone => hgone.1 ?_, hsame.trans hvalue⟩
    exact hzero.mpr (hforever hlists key info hinfo)
  · rintro ⟨info, hcache, hlive, rfl⟩
    obtain ⟨hzero, hkey, hlength, hlists⟩ :=
      h.cache key info hcache fun hgone => hlive ⟨hgone.1, Int32.le_trans hgone.2 ht'⟩
    obtain ⟨encoded, hencoded⟩ : ∃ encoded, encodeLbKey key tableName id = some encoded := by
      simp [encodeLbKey, hkey, not_lt.mpr hlength]
    obtain ⟨dbInfo, hdb, hsame, hzero'⟩ := hagrees.of_cache hencoded hcache
    have hitem : (key, dbInfo) ∈ loadables t tableName id p.db :=
      (mem_loadables hagrees.encoded).mpr ⟨encoded, hencoded, hdb, fun hgone =>
        hgone.1 (hzero'.mp hzero)⟩
    obtain ⟨found, hlookup⟩ := Option.isSome_iff_exists.mp (hfilled hlists _ hitem)
    obtain ⟨info', hinfo', rfl⟩ := hfound hlists found hlookup
    obtain ⟨encoded', hencoded', hdb', -⟩ := (mem_loadables hagrees.encoded).mp hinfo'
    obtain rfl : encoded = encoded' := Option.some.inj (hencoded.symm.trans hencoded')
    obtain rfl : dbInfo = info' := Option.some.inj (hdb.symm.trans hdb')
    exact ⟨_, hlookup, fun hgone => hgone.1 rfl, hsame.symm⟩

theorem expired_eq_zero_of_restored (h : p.Restored t disk tableName id) (ht : 0 < t) {key : Bytes}
    {info : ValueInfo} (hcache : p.cache.keyValues.lookup key = some info) (hlive : ¬ info.Gone t)
    (hloaded : (cached tableName id (loadDataFormDb .reverse t disk).2).lookup key =
      some (stored t info.value (loadedTtl info))) : info.expired = 0 := by
  by_contra hne
  have hlater : t < info.expired := Int32.not_le.mp fun hle => hlive ⟨hne, hle⟩
  have hpos : 0 < info.expired := Int32.lt_trans ht hlater
  have hstored : stored t info.value (loadedTtl info) = ⟨info.value, t + info.expired⟩ := by
    simp [stored, loadedTtl, hne, hpos]
  rw [hstored] at hloaded
  rcases add_le_or_lt_add ht hlater with hwrap | hlong
  · -- the sum wraps around, so the entry is gone at once
    have hfind := (h .reverse key t (Int32.le_refl t)).trans
      (Cache.find_eq_some_iff.mpr ⟨info, hcache, hlive, rfl⟩)
    obtain ⟨found, hfound, hnotGone, -⟩ := find_eq_some_iff.mp hfind
    cases hloaded.symm.trans hfound
    exact hnotGone ⟨add_ne_zero_of_pos ht hpos, hwrap⟩
  · -- when it should expire it is still there
    have hfind := (h .reverse key info.expired (Int32.le_of_lt hlater)).symm.trans
      (find_eq_some_iff.mpr ⟨_, hloaded, fun hgone => Int32.not_le.mpr hlong hgone.2, rfl⟩)
    obtain ⟨found, hfound, hnotGone, -⟩ := Cache.find_eq_some_iff.mp hfind
    cases hcache.symm.trans hfound
    exact hnotGone ⟨hne, Int32.le_refl _⟩

theorem Restored.lasting (h : p.Restored t disk tableName id) (ht : 0 < t)
    (hagrees : p.Agrees Eq tableName id) (hstore : disk.store tableName id = p.db) :
    p.Lasting t disk tableName id := by
  obtain ⟨hsound, -, habsent⟩ := loadDataFormDb_spec (congrArg _ hstore.symm)
    (pairs_reverse (loadables t tableName id p.db)) (nodup_loadables hagrees.encoded)
  have hcacheLasting : ∀ key info, p.cache.keyValues.lookup key = some info → ¬ info.Gone t →
      info.expired = 0 ∧ key ≠ [] ∧ tableName.length ≤ 255 ∧ disk.Lists tableName id := by
    intro key info hcache hlive
    have hfind := (h .reverse key t (Int32.le_refl t)).trans
      (Cache.find_eq_some_iff.mpr ⟨info, hcache, hlive, rfl⟩)
    obtain ⟨found, hfound, -, -⟩ := find_eq_some_iff.mp hfind
    have hlists : disk.Lists tableName id := by
      by_contra hnot
      simp [cached, habsent hnot, Cache.empty] at hfound
    obtain ⟨dbInfo, ttl, hitem, rfl, rfl⟩ := hsound key found hfound
    obtain ⟨encoded, hencoded, hdb, -⟩ := (mem_loadables hagrees.encoded).mp hitem
    obtain ⟨info', hcache', rfl⟩ := hagrees.of_db hencoded hdb
    obtain rfl := Option.some.inj (hcache.symm.trans hcache')
    refine ⟨expired_eq_zero_of_restored h ht hcache hlive hfound, ?_, ?_, hlists⟩
    · rintro rfl
      simp [encodeLbKey] at hencoded
    · by_contra hlong
      simp [encodeLbKey, not_le.mp hlong] at hencoded
  refine ⟨hcacheLasting, fun _ encoded info hdb hlive => ?_⟩
  obtain ⟨key, hkey⟩ := hagrees.encoded encoded info hdb
  obtain ⟨info', hcache, rfl⟩ := hagrees.of_db hkey hdb
  exact (hcacheLasting key info' hcache hlive).1

end Persisted

/-- **When a cache comes back as it was.** Nothing that can be read when the node starts may ever
expire, and it has to be stored where the scan looks. If the clock does not tick between the two
stores, this is also necessary. -/
theorem restored_iff {tableName : Bytes} {id t : Int32} {disk : Disk}
    {writes : List Write} (ht : 0 < t) (htimed : ∀ w ∈ writes, w.Timed)
    (hstore : disk.store tableName id = (after tableName id writes).db) :
    ((after tableName id writes).Lasting t disk tableName id →
      (after tableName id writes).Restored t disk tableName id) ∧
    ((∀ w ∈ writes, w.Steady) → (after tableName id writes).Restored t disk tableName id →
      (after tableName id writes).Lasting t disk tableName id) := by
  constructor
  · intro hlasting
    exact hlasting.restored (agrees_after fun w hw => (htimed w hw).relates) hstore
  · intro hsteady hrestored
    exact hrestored.lasting ht (agrees_after fun w hw => (hsteady w hw).relates) hstore

namespace Sample

/-- The disk of a node with one partition. -/
def diskOf (writes : List Write) : Disk where
  tables := [[97]]
  parts _ := [0]
  store _ _ := (Persisted.after [97] 0 writes).db

/-- Entries that never expire. -/
def lastingWrites : List Write :=
  [.set 1700000000 1700000000 (.singleton [1] [2]) 0,
   .set 1700000001 1700000001 (.singleton [3] [4]) 0]

/-- An entry that expires after a hundred seconds. -/
def expiringWrites : List Write := [.set 1700000000 1700000000 (.singleton [1] [2]) 100]

end Sample

open Sample

theorem restored_iff_lastingWrites : (after [97] 0 lastingWrites).Restored 1700000050
      (diskOf lastingWrites) [97] 0 := by
  have htimed : ∀ w ∈ lastingWrites, w.Timed := by
    intro w hw
    rcases mem_pair.mp hw with rfl | rfl <;> exact ⟨by decide, by decide⟩
  refine (restored_iff (by decide) htimed rfl).1 ⟨fun key info hcache _ => ?_, ?_⟩
  · rcases mem_pair.mp (AList.mem_lookup_iff.mp hcache) with heq | heq
    all_goals
      obtain ⟨rfl, hinfo⟩ := Sigma.mk.inj heq
      cases eq_of_heq hinfo
      exact ⟨rfl, by decide, by decide, by decide, mem_singleton.mpr rfl⟩
  · intro _ encoded info hdb _
    rcases mem_pair.mp (find?_eq_some_iff.mp hdb) with heq | heq <;> cases heq <;> rfl

/-- The expiry of the entry is taken for its time to live, and the sum wraps around. -/
theorem expiring_entry_not_restored :
    NodeData.get 1700000050 [97] 0 [[1]] (NodeData.loadDataFormDb .keep 1700000050
      (diskOf expiringWrites)).2 = [[]] ∧
    (after [97] 0 expiringWrites).cache.get 1700000050 [[1]] = [[2]] := by
  decide

end Noah
