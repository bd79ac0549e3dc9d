import Nori.Noah.Node.Persistence
import Nori.Noah.Node.Read

/-!
# Times to live, and reads with persistence

A `Set` adds the time to live of its entries to the clock and stores the sum in an `int32_t`. Reads
of the cache pass over what has expired, those of leveldb do not; with `open_persistence` the answer
to a `Get` has the values of both.
-/

namespace Noah

open Butil Container List Int32

/-! ## Times to live -/

section Ttl

variable {now ttl t : Int32} {key value : Bytes} {keyValues : UnorderedMap Bytes Bytes}

theorem NodeData.lookup_setTtlVec {ttlVec : List Int32} (c : Cache)
    (hlength : keyValues.entries.length = ttlVec.length)
    (h : (Sigma.mk key value, ttl) ∈ keyValues.entries.zip ttlVec) :
    (c.setTtlVec now keyValues ttlVec).2.keyValues.lookup key = some (stored now value ttl) := by
  rw [keyValues_setTtlVec hlength]
  obtain ⟨x, hx, hkey, hlookup⟩ := UnorderedMap.lookup_foldl_assign_of_mem
    (g := fun e => stored now e.1.2 e.2) (m := c.keyValues) ⟨_, h, rfl⟩
  -- the keys of a map are distinct, so this is the same pair
  have hnodup := keyValues.nodupKeys
  rw [NodupKeys, keys, ← map_fst_zip hlength.le, map_map] at hnodup
  obtain rfl := inj_on_of_nodup_map hnodup hx h hkey
  exact hlookup

/-- What an entry is worth at the time `t`, by the exact sum. -/
def foundAt (now ttl : Int32) (value : Bytes) (t : Int32) : Option Bytes :=
  if t.toInt < now.toInt + ttl.toInt then some value else none

/-- From the moment of the write on, an entry is found for the time that it was given. -/
def Lives (now ttl : Int32) (value : Bytes) (find : Int32 → Option Bytes) : Prop :=
  ∀ t, now ≤ t → find t = foundAt now ttl value t

/-- A sum that does not fit is negative, so that the entry has expired when it is written. -/
theorem lives_stored_iff (hnow : 0 ≤ now) (httl : 0 < ttl) :
    Lives now ttl value (fun t =>
      if (NodeData.stored now value ttl).Gone t then none else some value) ↔
      now.toInt + ttl.toInt < 2 ^ 31 := by
  have hpos : 0 < ttl.toInt := lt_iff_toInt_lt.mp httl
  have hnow : 0 ≤ now.toInt := le_iff_toInt_le.mp hnow
  have hlt := now.toInt_lt
  have hlt' := ttl.toInt_lt
  have hgone : ∀ t, (NodeData.stored now value ttl).Gone t ↔
      (now + ttl).toInt ≠ 0 ∧ (now + ttl).toInt ≤ t.toInt := by
    intro t
    unfold NodeData.stored ValueInfo.Gone
    rw [if_pos httl, le_iff_toInt_le, ne_eq, ← toInt_inj, toInt_zero]
  have hsum := toInt_add now ttl
  unfold Lives foundAt
  refine ⟨fun hlives => ?_, fun hfits t _ => ?_⟩
  · by_contra hover
    have hwrapped : (now + ttl).toInt = now.toInt + ttl.toInt - 2 ^ 32 := by
      rw [hsum, Int.bmod_def]
      omega
    have hfound := hlives now (Int32.le_refl now)
    dsimp only at hfound
    rw [if_pos ((hgone now).mpr (by omega)), if_pos (by omega)] at hfound
    cases hfound
  · rw [Int.bmod_eq_of_le (by omega) (by omega)] at hsum
    have hexact : (NodeData.stored now value ttl).Gone t ↔ ¬ t.toInt < now.toInt + ttl.toInt := by
      rw [hgone, hsum]
      omega
    simp only [hexact, ite_not]

/-- **An entry lives as long as it was given,** whichever `Set` wrote it, if and only if the end of
its time to live fits in an `int32_t`. -/
theorem found_until_expiry (hnow : 0 ≤ now) (httl : 0 < ttl) (c : Cache) :
    (keyValues.lookup key = some value →
      (Lives now ttl value (fun t => (c.set now keyValues ttl).find t key) ↔
        now.toInt + ttl.toInt < 2 ^ 31)) ∧
    (∀ ttlVec, keyValues.entries.length = ttlVec.length →
      (Sigma.mk key value, ttl) ∈ keyValues.entries.zip ttlVec →
      (Lives now ttl value (fun t => (c.setTtlVec now keyValues ttlVec).2.find t key) ↔
        now.toInt + ttl.toInt < 2 ^ 31)) ∧
    ∀ tableName id encoded db, encodeLbKey key tableName id = some encoded →
      keyValues.lookup key = some value →
      (Lives now ttl value (fun t =>
        ((Ldb.set now tableName id keyValues ttl db).find? encoded).bind
        fun info => if info.Gone t then none else some info.value) ↔
        now.toInt + ttl.toInt < 2 ^ 31) := by
  have hfound : Lives now ttl value _ ↔ _ := lives_stored_iff hnow httl
  refine ⟨fun hkey => ?_, fun ttlVec hlength hmem => ?_, fun _ _ _ _ hencoded hkey => ?_⟩
  · simp only [Cache.find, Cache.lookup_set, hkey]
    exact hfound
  · simp only [Cache.find, NodeData.lookup_setTtlVec c hlength hmem]
    exact hfound
  · simp only [Ldb.find?_set hencoded, hkey]
    exact hfound

theorem found_until_expiry_minute :
    (Cache.empty.set 1700000000 ⟨[⟨[1], [2]⟩], by simp⟩ 60).find 1700000059 [1] = some [2] :=
  ((found_until_expiry (by decide) (by decide) .empty).1 rfl).mpr (by decide) 1700000059 (by decide)

/-- A time to live of fifteen years wraps around, and the entry is never found. -/
theorem lost_to_overflow :
    (Cache.empty.set 1700000000 ⟨[⟨[1], [2]⟩], by simp⟩ 473040000).find 1700000000 [1] = none := by
  decide

end Ttl

/-! ## Reads -/

/-- `Ldb::Get`, which does not look at the expiry. -/
def Ldb.get (tableName : Bytes) (id : Int32) (keys : List Bytes) (db : LevelDb) : List Bytes :=
  keys.map fun key => (((encodeLbKey key tableName id).bind db.find?).map ValueInfo.value).getD []

/-- A read with `open_persistence` after some writes. `LdbGet` fails unless a `Set` has made the
leveldb. -/
def Persisted.readEnv (writes : List Persisted.Write) (request : GetRequest) (env : ReadEnv) :
    ReadEnv :=
  { env with
    ldb := some (writes.any (· matches .set ..))
    ldbValues := Ldb.get request.tableName request.id request.keys
      (Persisted.after request.tableName request.id writes).db }

/-- **A read with persistence is answered as without** only if it asks for nothing: the values of
leveldb come after those of the cache. -/
theorem get_persisted_iff {server : NodeServer} {env : ReadEnv} {request : GetRequest}
    (writes : List Persisted.Write) (hldb : env.ldb = none)
    (hok : (server.get env request).1.status = .ok) :
    (server.get (Persisted.readEnv writes request env) request).1 = (server.get env request).1 ↔
      request.keys = [] ∧ writes.any (· matches .set ..) = true := by
  have hfill : server.fill (Persisted.readEnv writes request env).toWriteEnv
      request.toWriteHeader = server.fill env.toWriteEnv request.toWriteHeader := rfl
  unfold NodeServer.get at hok ⊢
  rw [hfill]
  generalize server.fill env.toWriteEnv request.toWriteHeader = filled at hok ⊢
  rcases filled with ⟨_ | p, server'⟩
  · cases hok
  · dsimp only at hok ⊢
    split_ifs at hok ⊢
    rw [hldb]
    cases hset : writes.any (· matches .set ..) <;> simp [Persisted.readEnv, hset, Ldb.get]

namespace Sample

/-- A read of the only partition, without persistence. -/
def readEnv : ReadEnv := { lossy with ldbValues := [] }

def keyValue : UnorderedMap Bytes Bytes := .assign ∅ [1] [2]

/-- The master after it was sent the key. -/
def written : NodeServer := (master.set lossy ⟨header, keyValue, 0⟩).2

end Sample

open Sample

theorem get_persisted_empty : (written.get (Persisted.readEnv [.set 1 1 keyValue 0] ⟨header, []⟩
      readEnv) ⟨header, []⟩).1 =
    (written.get readEnv ⟨header, []⟩).1 :=
  (get_persisted_iff _ rfl rfl).mpr ⟨rfl, rfl⟩

/-- There are two values for the one key. -/
theorem get_persisted_twice : (written.get (Persisted.readEnv [.set 1 1 keyValue 0] ⟨header, [[1]]⟩
      readEnv) ⟨header, [[1]]⟩).1.values = [[2], [2]] := by
  decide

end Noah
