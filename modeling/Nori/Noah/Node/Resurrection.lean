import Nori.Noah.Node.Migration

/-!
# Deletes during a migration

A migration beside `Del` requests on the master. A batch that was read is on its way to the target
while a `Del` of one of its keys is forwarded there on another connection, so the old value may come
last. A deleted key stays deleted as long as no `Del` overlaps a batch with one of its keys, and the
target carries out every `Del` of a key that it has.
-/

namespace Noah

open Butil Container Transition List Option

/-- What has become of a `Del` on the master. -/
inductive DelCall.Phase
  | forwarding
  | forwarded
  | ended
deriving DecidableEq

structure DelCall where
  keys : List Bytes
  /-- whether the target of the migration is among the nodes it is forwarded to -/
  toDst : Bool
  /-- whether the target has carried it out -/
  applied : Bool
  phase : DelCall.Phase

/-- The master with its migration, the cache of the target, the batches on their way to it, the
`Del` requests, and the keys of those that were answered with `OK`. -/
structure Copying (bucket : ℕ → Bytes → ℕ) where
  src : NodeMigrate bucket
  dst : Cache
  net : List MigrateRequest
  dels : List DelCall
  acked : List Bytes

namespace Copying

inductive Event (bucket : ℕ → Bytes → ℕ)
  | thread (event : NodeMigrate.Event bucket)
  /-- an attempt of `MigrateToDst` -/
  | send
  /-- a batch comes to the target, or is lost or refused -/
  | deliver (i : ℕ) (accepted : Bool)
  | del (keys : List Bytes) (p : Common.Partition)
  | applyDel (i : ℕ)
  /-- the parallel call ends, with these outcomes at the target and at the other nodes -/
  | forward (i : ℕ) (atDst : Brpc.SubCall NodeServer.Status)
      (others : List (Brpc.SubCall NodeServer.Status))
  /-- the master deletes the keys itself, with `open_persistence` also from leveldb -/
  | finish (i : ℕ) (ldb : Option Bool)

variable {bucket : ℕ → Bytes → ℕ} {migrateBatchSize : Int32} {task : MigrateTaskInfo}
  {w w' : Copying bucket}

/-- The nodes `Del` is forwarded to: the slaves, and those of `CheckMigrating`. -/
def targets (task : MigrateTaskInfo) (p : Common.Partition) (src : NodeMigrate bucket) :
    List Node :=
  p.slaves ++ ((src.migratingInfo.find? (tableInfoString task.tableName task.partitionId)).map
    OrderedSet.elems).getD []

/-- Whether `Del` goes on after these outcomes. -/
def succeeds (outcomes : List (Brpc.SubCall NodeServer.Status)) : Bool :=
  if outcomes.isEmpty then true
  else match Brpc.callMethod NodeServer.Status.mergeFrom .ok (-1) outcomes with
    | .error _ => false
    | .ok status => decide (status = .ok)

def step (migrateBatchSize : Int32) (task : MigrateTaskInfo) (w : Copying bucket) :
    Event bucket → Option (Copying bucket)
  -- only `finish` changes the cache of the master
  | .thread (.set _ _) | .thread (.del _) => none
  | .thread event => (w.src.step migrateBatchSize task event).map fun src => { w with src := src }
  | .send =>
    if w.src.pc = .migrateToDst then some { w with net := w.src.request :: w.net } else none
  | .deliver i accepted => w.net[i]?.map fun request =>
    { w with
      dst := if accepted then w.dst.migrate request.keyValues request.expired else w.dst
      net := w.net.eraseIdx i }
  | .del keys p => some { w with
      dels := ⟨keys, decide (task.dst ∈ targets task p w.src), false, .forwarding⟩ :: w.dels }
  | .applyDel i => w.dels[i]?.bind fun call =>
    if call.toDst then some { w with
      dst := w.dst.del call.keys
      dels := w.dels.set i { call with applied := true } } else none
  | .forward i atDst others => w.dels[i]?.bind fun call =>
    -- the target does not answer `OK` before it has deleted the keys
    if call.phase = .forwarding ∧ (atDst = .replied .ok → call.applied = true) then some { w with
      dels := w.dels.set i { call with
        phase := if succeeds (others ++ if call.toDst then [atDst] else []) then .forwarded
          else .ended } } else none
  | .finish i ldb => w.dels[i]?.bind fun call =>
    if call.phase = .forwarded then some { w with
      src := w.src.withCache (call.keys.foldl HashTable.erase w.src.cache)
      dels := w.dels.set i { call with phase := .ended }
      acked := if ldb = some false then w.acked else call.keys ++ w.acked } else none

/-- The migration starts; the target may have keys from before. -/
def system (bucket : ℕ → Bytes → ℕ) (migrateBatchSize : Int32) (task : MigrateTaskInfo) :
    System (Copying bucket) (Event bucket) where
  init w := w.src.Fresh ∧ w.net = [] ∧ w.dels = [] ∧ w.acked = []
  step w event w' := w.step migrateBatchSize task event = some w'

/-- No batch with the key is on its way. -/
def Unsent (w : Copying bucket) (key : Bytes) : Prop :=
  key ∉ w.src.request.keyValues ∧ ∀ request ∈ w.net, key ∉ request.keyValues

/-- A `Del` starts when no batch with one of its keys is on its way and the target is among its
nodes or does not have the key; a batch is read when no `Del` of a key in the cache is under way;
and `Del` does not go on before the target, if it is among its nodes, has carried it out. -/
def Apart (task : MigrateTaskInfo) (w : Copying bucket) : Event bucket → Prop
  | .del keys p => ∀ key ∈ keys, w.Unsent key ∧
    (task.dst ∈ targets task p w.src ∨ key ∉ w.dst.keyValues)
  | .thread (.run _) => w.src.pc = .loop →
    ∀ call ∈ w.dels, call.phase ≠ .ended → ∀ key ∈ call.keys, key ∉ w.src.cache.map
  | .forward i _ _ => ∀ call ∈ w.dels[i]?, call.toDst = true → call.applied = true
  | _ => True

/-- A key that was deleted on the target is not there, and is not on its way. -/
structure Inv (w : Copying bucket) : Prop where
  deleted : ∀ key ∈ w.acked, w.Unsent key ∧ key ∉ w.src.cache.map ∧ key ∉ w.dst.keyValues
  underway : ∀ call ∈ w.dels, call.phase ≠ .ended → ∀ key ∈ call.keys, w.Unsent key ∧
    (call.applied = true ∨ call.toDst = false → key ∉ w.dst.keyValues)
  forwarded : ∀ call ∈ w.dels, call.phase = .forwarded → call.applied = true ∨ call.toDst = false

/-! ## The parts of a step -/

theorem mem_foldl_assign {entries : List (Σ _ : Bytes, ValueInfo)}
    {m : UnorderedMap Bytes ValueInfo} {key : Bytes}
    (h : key ∈ entries.foldl (fun m e => m.assign e.1 e.2) m) :
    key ∈ entries.map Sigma.fst ∨ key ∈ m := by
  rw [← AList.lookup_isSome, isSome_iff_exists] at h
  obtain ⟨v, hv⟩ := h
  rcases UnorderedMap.mem_of_lookup_foldl_assign hv with ⟨e, he, rfl, -⟩ | hm
  · exact .inl (mem_map_of_mem he)
  · exact .inr (AList.lookup_isSome.mp (by rw [hm]; rfl))

theorem mem_of_mem_unread {src : NodeMigrate bucket} {e : Σ _ : Bytes, ValueInfo}
    (h : e ∈ src.unread) : e ∈ src.cache.map.entries := by
  unfold NodeMigrate.unread at h
  split at h
  · dsimp only at h
    split at h
    · exact h
    · exact (dropWhile_sublist _).subset h
  · exact h

/-- The cache is kept, and a key in the request was there before or satisfies `Q`. -/
def Keeps (Q : Bytes → Prop) (src src' : NodeMigrate bucket) : Prop :=
  src'.cache = src.cache ∧ ∀ key ∈ src'.request.keyValues, key ∈ src.request.keyValues ∨ Q key

section Keeps

variable {Q : Bytes → Prop} {src src' : NodeMigrate bucket}

section

variable (hcache : src'.cache = src.cache)
include hcache

theorem Keeps.of_eq (h : src'.request.keyValues = src.request.keyValues) : Keeps Q src src' :=
  ⟨hcache, fun _ hkey => .inl (h ▸ hkey)⟩

theorem Keeps.of_empty (h : src'.request.keyValues = ∅) : Keeps Q src src' :=
  ⟨hcache, fun key hkey => absurd (h ▸ hkey) (AList.notMem_empty key)⟩

theorem keeps_retryDst (h : src'.request.keyValues = src.request.keyValues) :
    Keeps Q src src'.retryDst := by
  unfold NodeMigrate.retryDst
  split
  · exact .of_empty hcache rfl
  · exact .of_eq hcache h

theorem keeps_retryMeta (h : src'.request.keyValues = src.request.keyValues) :
    Keeps Q src src'.retryMeta := by
  unfold NodeMigrate.retryMeta
  split
  · exact .of_eq hcache h
  · exact .of_eq hcache h

end

/-- A step of the thread keeps the cache, and puts keys of the cache into the request only at the
beginning of the loop. -/
theorem keeps_run {reply : NodeMigrate.Reply}
    (h : src.run migrateBatchSize task reply = some src') :
    Keeps (fun key => src.pc = .loop ∧ key ∈ src.cache.map) src src' := by
  unfold NodeMigrate.run at h
  split at h <;> cases h
  · exact .of_eq rfl rfl
  · unfold NodeMigrate.migrateData
    split
    · exact .of_eq rfl rfl
    · exact .of_empty rfl rfl
  · rename_i hpc
    have hread : ∀ key ∈ (src.readBatch migrateBatchSize).request.keyValues,
        key ∈ src.request.keyValues ∨ (src.pc = .loop ∧ key ∈ src.cache.map) := by
      intro key hkey
      refine (mem_foldl_assign hkey).symm.imp_right fun hmem => ⟨hpc, ?_⟩
      obtain ⟨e, he, rfl⟩ := mem_map.mp hmem
      exact AList.mem_keys.mpr (mem_map_of_mem (mem_of_mem_unread (mem_of_mem_take he)))
    unfold NodeMigrate.migrateLoop
    split
    · split
      · exact ⟨rfl, hread⟩
      · exact ⟨rfl, hread⟩
    · exact .of_eq rfl rfl
  · unfold NodeMigrate.migrateToDst
    split
    · exact .of_empty rfl rfl
    · split
      · exact .of_empty rfl rfl
      · exact keeps_retryDst rfl rfl
    all_goals exact keeps_retryDst rfl rfl
  · unfold NodeMigrate.commitToMeta
    split
    · exact .of_eq rfl rfl
    · exact .of_eq rfl rfl
  · cases reply with
    | ok => exact .of_eq rfl rfl
    | eepoch updated => cases updated <;> exact keeps_retryMeta rfl rfl
    | failed | error => exact keeps_retryMeta rfl rfl
  · exact .of_eq rfl rfl

end Keeps

theorem mem_foldl_erase {t : HashTable Bytes ValueInfo bucket} {keys : List Bytes} {key : Bytes} :
    key ∈ (keys.foldl HashTable.erase t).map ↔ key ∉ keys ∧ key ∈ t.map := by
  induction keys generalizing t with
  | nil => simp
  | cons first keys ih => rw [foldl_cons, ih, HashTable.mem_erase, mem_cons]; tauto

theorem mem_del {c : Cache} {keys : List Bytes} {key : Bytes} :
    key ∈ (c.del keys).keyValues ↔ key ∉ keys ∧ key ∈ c.keyValues := by
  rw [← AList.lookup_isSome, ← AList.lookup_isSome, Cache.del, UnorderedMap.lookup_foldl_erase]
  split <;> simp_all

/-! ## Steps -/

/-- A step that brings no deleted key onto its way, into the cache or to the target, and keeps the
`Del` requests. -/
theorem Inv.mono (h : w.Inv)
    (hunsent : ∀ key, (key ∈ w.acked ∨ ∃ call ∈ w.dels, call.phase ≠ .ended ∧ key ∈ call.keys) →
      w.Unsent key → w'.Unsent key)
    (hcache : ∀ key, key ∈ w'.src.cache.map → key ∈ w.src.cache.map)
    (hdst : ∀ key, w.Unsent key → key ∈ w'.dst.keyValues → key ∈ w.dst.keyValues)
    (hdels : w'.dels = w.dels) (hacked : w'.acked = w.acked) : w'.Inv where
  deleted := by
    rw [hacked]
    intro key hkey
    obtain ⟨hu, hc, hd⟩ := h.deleted key hkey
    exact ⟨hunsent key (.inl hkey) hu, fun hmem => hc (hcache key hmem),
      fun hmem => hd (hdst key hu hmem)⟩
  underway := by
    rw [hdels]
    intro call hcall hopen key hkey
    obtain ⟨hu, hd⟩ := h.underway call hcall hopen key hkey
    exact ⟨hunsent key (.inr ⟨call, hcall, hopen, hkey⟩) hu,
      fun hor hmem => hd hor (hdst key hu hmem)⟩
  forwarded := hdels ▸ h.forwarded

/-- A `Del` goes on; the keys stay where they are. -/
theorem Inv.set (h : w.Inv) (i : ℕ) (call : DelCall)
    (hunderway : call.phase ≠ .ended → ∀ key ∈ call.keys, w.Unsent key ∧
      (call.applied = true ∨ call.toDst = false → key ∉ w.dst.keyValues))
    (hforwarded : call.phase = .forwarded → call.applied = true ∨ call.toDst = false) :
    Inv { w with dels := w.dels.set i call } := { h with
  underway c hc := by
    rcases mem_or_eq_of_mem_set hc with hc | rfl
    · exact h.underway c hc
    · exact hunderway
  forwarded c hc := by
    rcases mem_or_eq_of_mem_set hc with hc | rfl
    · exact h.forwarded c hc
    · exact hforwarded }

theorem Inv.thread (h : w.Inv) {event : NodeMigrate.Event bucket}
    (hC : w.Apart task (.thread event))
    (hstep : w.step migrateBatchSize task (.thread event) = some w') : w'.Inv := by
  cases event with
  | set _ _ => cases hstep
  | del _ => cases hstep
  | run reply =>
    obtain ⟨src, hrun, rfl⟩ := map_eq_some_iff.mp hstep
    obtain ⟨hcache, hrequest⟩ := keeps_run hrun
    refine h.mono (fun key hkey hu => ⟨fun hmem => ?_, hu.2⟩) (fun key => by rw [hcache]; exact id)
      (fun _ _ => id) rfl rfl
    rcases hrequest key hmem with hold | ⟨hloop, hread⟩
    · exact hu.1 hold
    · rcases hkey with hacked | ⟨call, hcall, hopen, hkey⟩
      · exact (h.deleted key hacked).2.1 hread
      · exact hC hloop call hcall hopen key hkey hread
  | rehash cache =>
    obtain ⟨src, hrehash, rfl⟩ := map_eq_some_iff.mp hstep
    simp only [NodeMigrate.step, ite_none_right_eq_some] at hrehash
    obtain ⟨hof, hrehash⟩ := hrehash
    cases hrehash
    exact h.mono (fun _ _ => id) (fun _ => hof.mem_iff.mp) (fun _ _ => id) rfl rfl
  | updateMetaInfo _ | cancel | quit => cases hstep; exact { h with }

theorem Inv.step (h : w.Inv) {event : Event bucket} (hC : w.Apart task event)
    (hstep : w.step migrateBatchSize task event = some w') : w'.Inv := by
  cases event with
  | thread event => exact h.thread hC hstep
  | send =>
    simp only [Copying.step, ite_none_right_eq_some] at hstep
    obtain ⟨-, hstep⟩ := hstep
    cases hstep
    exact h.mono (fun key _ hu => ⟨hu.1, forall_mem_cons.mpr hu⟩) (fun _ => id) (fun _ _ => id)
      rfl rfl
  | deliver i accepted =>
    obtain ⟨request, hget, rfl⟩ := map_eq_some_iff.mp hstep
    refine h.mono (fun key _ hu => ⟨hu.1, fun r hr => hu.2 r (mem_of_mem_eraseIdx hr)⟩)
      (fun _ => id) (fun key hu hmem => ?_) rfl rfl
    cases accepted with
    | false => exact hmem
    | true =>
      exact (mem_foldl_assign hmem).resolve_left fun hin =>
        hu.2 request (mem_of_getElem? hget) (AList.mem_keys.mpr hin)
  | del keys p =>
    cases hstep
    refine ⟨h.deleted, forall_mem_cons.mpr ⟨fun _ key hkey => ⟨(hC key hkey).1, ?_⟩,
      h.underway⟩, forall_mem_cons.mpr ⟨nofun, h.forwarded⟩⟩
    rintro (happlied | hpassed)
    · cases happlied
    · exact (hC key hkey).2.resolve_left (of_decide_eq_false hpassed)
  | applyDel i =>
    obtain ⟨call, hget, hstep⟩ := bind_eq_some_iff.mp hstep
    simp only [ite_none_right_eq_some] at hstep
    obtain ⟨-, hstep⟩ := hstep
    cases hstep
    have hcall := mem_of_getElem? hget
    have hdel : Inv { w with dst := w.dst.del call.keys } :=
      h.mono (fun _ _ => id) (fun _ => id) (fun _ _ hmem => (mem_del.mp hmem).2) rfl rfl
    exact hdel.set i _ (fun hopen key hkey => ⟨(h.underway call hcall hopen key hkey).1,
      fun _ hmem => (mem_del.mp hmem).1 hkey⟩) fun _ => .inl rfl
  | forward i atDst others =>
    obtain ⟨call, hget, hstep⟩ := bind_eq_some_iff.mp hstep
    simp only [ite_none_right_eq_some] at hstep
    obtain ⟨⟨hforwarding, -⟩, hstep⟩ := hstep
    cases hstep
    refine h.set i _ (fun _ => h.underway call (mem_of_getElem? hget) (by simp [hforwarding]))
      fun _ => ?_
    cases hto : call.toDst with
    | true => exact .inl (hC call hget hto)
    | false => exact .inr rfl
  | finish i ldb =>
    obtain ⟨call, hget, hstep⟩ := bind_eq_some_iff.mp hstep
    simp only [ite_none_right_eq_some] at hstep
    obtain ⟨hforwarded, hstep⟩ := hstep
    cases hstep
    have hcall := mem_of_getElem? hget
    have herase : Inv { w with
        src := w.src.withCache (call.keys.foldl HashTable.erase w.src.cache) } :=
      h.mono (fun _ _ => id) (fun _ hmem => (mem_foldl_erase.mp hmem).2) (fun _ _ => id) rfl rfl
    refine { herase.set i { call with phase := .ended } (absurd rfl) nofun with
      deleted key hkey := ?_ }
    have hkey : key ∈ call.keys ∨ key ∈ w.acked := by
      split at hkey
      · exact .inr hkey
      · exact mem_append.mp hkey
    rcases hkey with hkey | hkey
    · obtain ⟨hu, hd⟩ := h.underway call hcall (by simp [hforwarded]) key hkey
      exact ⟨hu, fun hmem => (mem_foldl_erase.mp hmem).1 hkey,
        hd (h.forwarded call hcall hforwarded)⟩
    · exact herase.deleted key hkey

/-- **No deleted key comes back.** In every run in which no `Del` overlaps a batch with one of its
keys, and the target carries out what is forwarded to it, a key of a `Del` that was answered with
`OK` is not on the target, whatever is still on its way. -/
theorem deleted_absent
    (h : ((system bucket migrateBatchSize task).restrict (Apart task)).Reachable w) :
    ∀ key ∈ w.acked, key ∉ w.dst.keyValues := by
  have hinv : w.Inv := by
    refine h.invariant ?_ ?_
    · rintro w ⟨-, -, hdels, hacked⟩
      exact ⟨by simp [hacked], by simp [hdels], by simp [hdels]⟩
    · rintro w event w' ⟨hC, hstep⟩ hw
      exact hw.step hC hstep
  exact fun key hkey => (hinv.deleted key hkey).2.2

end Copying

/-! ## A late batch -/

namespace Copying.Sample

open NodeMigrate.Sample (task thread fresh_thread)

/-- The master has one key, the target has none. -/
def start : Copying fun _ _ => 0 := ⟨thread, .empty, [], [], []⟩

theorem init_start : (system (fun _ _ => 0) 1 task).init start := ⟨fresh_thread, rfl, rfl, rfl⟩

/-- The batch comes to the target before the `Del` starts. -/
def inOrder : List (Event fun _ _ => 0) :=
  [.thread (.run .ok), .thread (.run .ok), .thread (.run .ok), .send, .deliver 0 true,
    .thread (.run .ok), .del [bytes "k"] .unknown, .applyDel 0, .forward 0 (.replied .ok) [],
    .finish 0 none]

/-- The `Del` overtakes the batch, and then the migration goes to its end. -/
def overtaken : List (Event fun _ _ => 0) :=
  [.thread (.run .ok), .thread (.run .ok), .thread (.run .ok), .send, .del [bytes "k"] .unknown,
    .applyDel 0, .forward 0 (.replied .ok) [], .finish 0 none, .deliver 0 true,
    .thread (.run .ok), .thread (.run .ok), .thread (.run .ok), .thread (.run .ok),
    .thread (.run .ok)]

theorem deleted_absent_inOrder :
    ∃ w, ((system (fun _ _ => 0) 1 task).restrict (Apart task)).Reachable w ∧
      bytes "k" ∈ w.acked ∧ bytes "k" ∉ w.dst.keyValues := by
  have hC : System.Admits (Apart task) (step 1 task) start inOrder := by
    refine .cons nofun rfl (.cons nofun rfl (.cons (fun _ => nofun) rfl (.cons trivial rfl
      (.cons trivial rfl (.cons nofun rfl (.cons ?_ rfl (.cons trivial rfl (.cons ?_ rfl
      (.cons trivial rfl trivial)))))))))
    · intro key hkey
      cases mem_singleton.mp hkey
      exact ⟨⟨by decide, nofun⟩, .inl (by decide)⟩
    · rintro call hcall -
      cases hcall
      rfl
  have hrun : ((System.ofStep start (step 1 task)).restrict (Apart task)).Run start _ :=
    System.run_restrict_of_admits hC rfl
  have hreachable : ((system (fun _ _ => 0) 1 task).restrict (Apart task)).Reachable _ :=
    ⟨start, init_start, hrun⟩
  exact ⟨_, hreachable, by decide, deleted_absent hreachable _ (by decide)⟩

/-- A batch that comes late brings a deleted key back. -/
theorem deleted_returns :
    ∃ w, (system (fun _ _ => 0) 1 task).Reachable w ∧ w.src.pc = .finished ∧ w.net = [] ∧
      (∀ call ∈ w.dels, call.phase = .ended) ∧ bytes "k" ∈ w.acked ∧
        bytes "k" ∈ w.dst.keyValues := by
  have hrun : (System.ofStep start (step 1 task)).Run start _ :=
    System.run_of_foldlM (show overtaken.foldlM _ _ = _ from rfl)
  exact ⟨_, ⟨start, init_start, hrun⟩, rfl, rfl, by decide, by decide, by decide⟩

end Copying.Sample

end Noah
